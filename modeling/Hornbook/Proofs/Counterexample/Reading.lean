import Hornbook.Counterexample.Json
import Hornbook.Proofs.Json.Grammar
import Hornbook.Proofs.Json.Record

/-!
# Which texts describe a trace

A text describes a trace exactly when it is the text of a value that gives the trace
(`Trace.reading_exact`).  Values give traces, steps and assignments as records, each of them as
an array or as an object, whatever the others are (`GivenBy`).  Every other value has a flaw at
some record (`Flawed`), and a text of it describes nothing.
-/

namespace Hornbook

open Json

namespace Assignment

variable {j : Json} {a : Assignment}

/-- What a value has to be as each field of an assignment. -/
def fields : List (List Char × (Json → Prop)) :=
  [("variable".toList, NotText), ("value".toList, NotText)]

/-- A value gives an assignment. -/
def GivenBy (a : Assignment) (j : Json) : Prop :=
  j.IsRecord (fields.map Prod.fst) [.string (some a.name.toList), .string (some a.value.toList)]

/-- A value gives no assignment. -/
def Flawed : Json → Prop := RecordFlaw fields

theorem distinct_fields : (fields.map Prod.fst).Nodup := by decide

theorem ofJson?_eq_bind (j : Json) :
    ofJson? j = j.record? (fields.map Prod.fst) >>= ofFields? := rfl

theorem ofJson?_eq_some_iff : ofJson? j = some a ↔ a.GivenBy j := by
  rw [ofJson?_eq_bind, record?_bind_eq_some_iff distinct_fields, GivenBy]
  constructor
  · rintro ⟨values, record, read⟩
    match values with
    | [name, value] =>
        simp only [ofFields?, Option.bind_eq_bind, Option.bind_eq_some_iff, Option.pure_def,
          Option.some.injEq, text?_eq_some_iff] at read
        obtain ⟨ns, rfl, vs, rfl, rfl⟩ := read
        simpa using record
  · intro record
    exact ⟨_, record, by simp [ofFields?, text?]⟩

theorem ofJson?_eq_none_iff : ofJson? j = none ↔ Flawed j := by
  rw [ofJson?_eq_bind]
  refine record?_bind_eq_none_iff distinct_fields fun values same => ?_
  match values with
  | [name, value] =>
      cases first : name.text? <;> cases second : value.text? <;>
        simp [ofFields?, fields, ← text?_eq_none_iff, first, second]

end Assignment

namespace TraceStep

variable {j : Json} {s : TraceStep}

/-- What a value has to be as each field of a step. -/
def fields : List (List Char × (Json → Prop)) :=
  [("predicate".toList, NotText), ("call".toList, NotText),
    ("state".toList, ListFlaw Assignment.Flawed)]

/-- A value gives a step. -/
def GivenBy (s : TraceStep) (j : Json) : Prop :=
  ∃ es, List.Forall₂ Assignment.GivenBy s.state es ∧
    j.IsRecord (fields.map Prod.fst)
      [.string (some s.predicate.toList), .string (some s.call.toList), .array es]

/-- A value gives no step. -/
def Flawed : Json → Prop := RecordFlaw fields

theorem distinct_fields : (fields.map Prod.fst).Nodup := by decide

theorem ofFields?_eq_bind (predicate call state : Json) :
    ofFields? [predicate, call, state]
      = (state.elements? >>= List.mapM Assignment.ofJson?) >>= fun as =>
          predicate.text? >>= fun ps => call.text? >>= fun cs =>
            some ⟨String.ofList ps, String.ofList cs, as⟩ := by
  simp [ofFields?, Option.bind_assoc]

theorem ofJson?_eq_bind (j : Json) :
    ofJson? j = j.record? (fields.map Prod.fst) >>= ofFields? := rfl

theorem ofJson?_eq_some_iff : ofJson? j = some s ↔ s.GivenBy j := by
  rw [ofJson?_eq_bind, record?_bind_eq_some_iff distinct_fields, GivenBy]
  constructor
  · rintro ⟨values, record, read⟩
    match values with
    | [predicate, call, state] =>
        rw [ofFields?_eq_bind] at read
        obtain ⟨as, elements, texts⟩ := Option.bind_eq_some_iff.mp read
        obtain ⟨es, rfl, given⟩ :=
          (elements?_mapM_eq_some_iff fun _ _ => Assignment.ofJson?_eq_some_iff).mp elements
        simp only [Option.bind_eq_bind, Option.bind_eq_some_iff, Option.some.injEq,
          text?_eq_some_iff] at texts
        obtain ⟨ps, rfl, cs, rfl, rfl⟩ := texts
        exact ⟨es, given, by simpa using record⟩
  · rintro ⟨es, given, record⟩
    have state := (elements?_mapM_eq_some_iff fun _ _ => Assignment.ofJson?_eq_some_iff).mpr
      ⟨es, rfl, given⟩
    refine ⟨_, record, ?_⟩
    rw [ofFields?_eq_bind, state]
    simp [text?]

theorem ofJson?_eq_none_iff : ofJson? j = none ↔ Flawed j := by
  rw [ofJson?_eq_bind]
  refine record?_bind_eq_none_iff distinct_fields fun values same => ?_
  match values with
  | [predicate, call, state] =>
      rw [ofFields?_eq_bind]
      cases first : predicate.text? <;> cases second : call.text? <;>
        cases third : state.elements? >>= List.mapM Assignment.ofJson? <;>
        simp [fields, ← text?_eq_none_iff, first, second, third,
          ← elements?_mapM_eq_none_iff fun _ => Assignment.ofJson?_eq_none_iff]

end TraceStep

namespace Trace

variable {j : Json} {t : Trace} {cs : List Char}

/-- What a value has to be as the field of a trace. -/
def fields : List (List Char × (Json → Prop)) := [("steps".toList, ListFlaw TraceStep.Flawed)]

/-- A value gives a trace. -/
def GivenBy (t : Trace) (j : Json) : Prop :=
  ∃ es, List.Forall₂ TraceStep.GivenBy t.steps es ∧ j.IsRecord (fields.map Prod.fst) [.array es]

/-- A value gives no trace. -/
def Flawed : Json → Prop := RecordFlaw fields

theorem distinct_fields : (fields.map Prod.fst).Nodup := by decide

theorem ofFields?_eq_bind (steps : Json) : ofFields? [steps]
    = (steps.elements? >>= List.mapM TraceStep.ofJson?) >>= fun as => some ⟨as⟩ := by
  simp [ofFields?, Option.bind_assoc]

theorem ofJson?_eq_bind (j : Json) :
    ofJson? j = j.record? (fields.map Prod.fst) >>= ofFields? := rfl

theorem ofJson?_eq_some_iff : ofJson? j = some t ↔ t.GivenBy j := by
  rw [ofJson?_eq_bind, record?_bind_eq_some_iff distinct_fields, GivenBy]
  constructor
  · rintro ⟨values, record, read⟩
    match values with
    | [steps] =>
        rw [ofFields?_eq_bind] at read
        obtain ⟨as, elements, whole⟩ := Option.bind_eq_some_iff.mp read
        obtain ⟨es, rfl, given⟩ :=
          (elements?_mapM_eq_some_iff fun _ _ => TraceStep.ofJson?_eq_some_iff).mp elements
        cases whole
        exact ⟨es, given, record⟩
  · rintro ⟨es, given, record⟩
    have steps := (elements?_mapM_eq_some_iff fun _ _ => TraceStep.ofJson?_eq_some_iff).mpr
      ⟨es, rfl, given⟩
    refine ⟨_, record, ?_⟩
    rw [ofFields?_eq_bind, steps]
    rfl

theorem ofJson?_eq_none_iff : ofJson? j = none ↔ Flawed j := by
  rw [ofJson?_eq_bind]
  refine record?_bind_eq_none_iff distinct_fields fun values same => ?_
  match values with
  | [steps] =>
      rw [ofFields?_eq_bind]
      cases first : steps.elements? >>= List.mapM TraceStep.ofJson? <;>
        simp [fields, first, ← elements?_mapM_eq_none_iff fun _ => TraceStep.ofJson?_eq_none_iff]

/-- What gives a trace is an array or an object. -/
theorem GivenBy.isComposite (h : t.GivenBy j) : j.IsComposite := by
  obtain ⟨es, -, record⟩ := h
  cases record with
  | array => exact .inl ⟨_, rfl⟩
  | object => exact .inr ⟨_, rfl⟩

/-- What the texts of a trace are.  A text describes a trace exactly when it is the text of a
value that gives it.  The text of any other value describes nothing, because of a flaw that the
value has at some record.  Nor does a text with anything but white space behind one that
describes a trace. -/
theorem reading_exact (s : String) :
    (∀ t : Trace, decode? ofJson? s = some t ↔ ∃ j : Json, j.IsWritten s.toList ∧ t.GivenBy j) ∧
      (∀ j : Json, j.IsWritten s.toList → (decode? ofJson? s = none ↔ Flawed j)) ∧
      ∀ (t : Trace) (j : Json) (front behind : List Char), j.IsWritten front → t.GivenBy j →
        ¬ Blank behind → s.toList = front ++ behind → decode? ofJson? s = none := by
  have read (j : Json) : ofText? s = some j ↔ j.IsWritten s.toList := ofChars?_eq_some_iff
  refine ⟨fun t => ?_, fun j written => ?_, fun t j front behind written given more split => ?_⟩
  · simp only [decode?, Option.bind_eq_bind, Option.bind_eq_some_iff, read, ofJson?_eq_some_iff]
  · simp only [decode?, (read j).mpr written, Option.bind_eq_bind, Option.bind_some,
      ofJson?_eq_none_iff]
  · have unread : ofText? s = none := by
      rw [ofText?, split]
      exact written.ofChars?_append_eq_none given.isComposite more
    rw [decode?, unread]
    rfl

/-- Arrays for the trace and its step, an object for the assignment.  A bracket behind the text
spoils it, and a step without its state is a flaw. -/
theorem reading_exact_of_flaws :
    decode? ofJson?
        "[[[\"p\", \"f(1)\",\n[\x7b\"n\": [1e5], \"value\":\"5\",\"\\u0076ariable\":\"b\"\x7d]]]]"
        = some ⟨[⟨"p", "f(1)", [⟨"b", "5"⟩]⟩]⟩
      ∧ decode? ofJson?
        "[[[\"p\", \"f(1)\",\n[\x7b\"n\": [1e5], \"value\":\"5\",\"\\u0076ariable\":\"b\"\x7d]]]]]"
        = none
      ∧ ∃ j : Json, j.IsWritten "[[[\"p\", \"f(1)\"]]]".toList ∧ Flawed j := by
  have read : decode? ofJson?
      "[[[\"p\", \"f(1)\",\n[\x7b\"n\": [1e5], \"value\":\"5\",\"\\u0076ariable\":\"b\"\x7d]]]]"
      = some ⟨[⟨"p", "f(1)", [⟨"b", "5"⟩]⟩]⟩ := by decide +kernel
  obtain ⟨j, written, given⟩ := ((reading_exact _).1 _).mp read
  refine ⟨read, ?_, ?_⟩
  · have bracket : ¬ Blank [']'] := by simp [Blank]; decide
    exact (reading_exact _).2.2 _ j _ [']'] written given bracket (by decide +kernel)
  · have legible : (ofChars? "[[[\"p\", \"f(1)\"]]]".toList).isSome = true := by decide +kernel
    obtain ⟨short, written⟩ := Option.isSome_iff_exists.mp legible
    rw [ofChars?_eq_some_iff] at written
    exact ⟨short, written, ((reading_exact _).2.1 short written).mp (by decide +kernel)⟩

end Trace

end Hornbook
