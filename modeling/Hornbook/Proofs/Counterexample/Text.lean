import Hornbook.Proofs.Counterexample.Path
import Hornbook.Proofs.Text.Separated
import Mathlib.Data.List.Forall2

/-!
# What a printed trace tells

A printed trace quotes nothing.  The arguments of a call stand with commas between them, the
call stands on a line of its own, and the names in front of it may have commas and line
breaks in them.  The arguments can be read back all the same if they have neither, and if it
is known which predicates the path visits.  Then the name in front of a call is known, so its
arguments begin at a known place.  They end at the next line break, and each of them at the
next comma (`Predicate.call_append_inj`).  The state below a call shows nothing that the
arguments do not tell.

So two paths over the same identities have one text exactly when each summary on them has the
same arguments (`Registry.text_tells_arguments`).
-/

namespace Hornbook

/-- A text without commas and line breaks. -/
def IsPlain (s : String) : Prop := ',' ∉ s.toList ∧ '\n' ∉ s.toList

instance (s : String) : Decidable (IsPlain s) := inferInstanceAs (Decidable (_ ∧ _))

/-- An entry of a path whose arguments are plain. -/
def PathEntry.Plain (entry : PathEntry) : Prop := ∀ arg ∈ entry.2, IsPlain arg

instance (entry : PathEntry) : Decidable entry.Plain :=
  inferInstanceAs (Decidable (∀ arg ∈ entry.2, IsPlain arg))

/-! ## Characters of a trace -/

theorem TraceStep.toList_text (s : TraceStep) :
    s.text.toList = '\n' :: (s.call.toList ++ '\n' ::
      ("State: ".toList ++ (Assignment.listText s.state).toList)) := by
  simp [text]

theorem Trace.toList_text (t : Trace) :
    t.text.toList = "Transaction trace:".toList ++ t.steps.flatMap (·.text.toList) := by
  have joined : (String.join (t.steps.map TraceStep.text)).toList
      = t.steps.flatMap (·.text.toList) := by
    rw [String.toList_join, List.flatMap_map]
  rw [← joined]
  exact String.toList_append

/-- Two traces have one text when their steps have one text, taken together. -/
theorem Trace.text_eq_iff {t t' : Trace} :
    t'.text = t.text ↔
      t'.steps.flatMap (·.text.toList) = t.steps.flatMap (·.text.toList) := by
  rw [← String.toList_inj, toList_text, toList_text]
  exact ⟨List.append_cancel_left, congrArg _⟩

/-! ## One call -/

/-- The arguments give the state away. -/
theorem Assigns.unique {vars : List Program.Variable} {offset : Nat} {args : List String}
    {state state' : List Assignment} (h : Assigns vars offset args state)
    (h' : Assigns vars offset args state') : state' = state := by
  apply List.ext_getElem?
  intro k
  rw [h'.getElem?_state, h.getElem?_state]

namespace Predicate

variable {p : Predicate} {args args' : List String} {call call' : String}
  {s s' : TraceStep} {rest rest' : List Char}

theorem call_eq_ok_iff :
    p.call args = .ok call ↔
      args.length = p.arity ∧ p.callTarget ++ "(" ++ ", ".intercalate args ++ ")" = call := by
  unfold Predicate.call
  split <;> simp [*]

/-- The arguments as they stand in a call. -/
def argumentChars (args : List String) : List Char :=
  (',' :: [' ']).intercalate (args.map String.toList)

theorem argumentChars_inj (sameLength : args'.length = args.length)
    (plain : ∀ arg ∈ args, IsPlain arg) (plain' : ∀ arg ∈ args', IsPlain arg) :
    argumentChars args' = argumentChars args ↔ args' = args := by
  rw [argumentChars, argumentChars, intercalate_inj_of_notMem]
  · exact (List.map_injective_iff.mpr fun _ _ => String.toList_inj.mp).eq_iff
  · rwa [List.length_map, List.length_map]
  · exact List.forall_mem_map.mpr fun arg mem => (plain arg mem).1
  · exact List.forall_mem_map.mpr fun arg mem => (plain' arg mem).1

theorem newline_notMem_argumentChars (plain : ∀ arg ∈ args, IsPlain arg) :
    '\n' ∉ argumentChars args ++ [')'] := by
  rw [List.mem_append, not_or]
  refine ⟨notMem_intercalate (by decide) ?_, by decide⟩
  exact List.forall_mem_map.mpr fun arg mem => (plain arg mem).2

theorem toList_call (done : p.call args = .ok call) :
    call.toList = (p.callTarget ++ "(").toList ++ (argumentChars args ++ [')']) := by
  obtain ⟨-, rfl⟩ := call_eq_ok_iff.mp done
  simp [argumentChars, String.toList_intercalate]

/-- In a text that begins with a call of a known predicate and goes on in the next line, the
arguments and the rest can be told. -/
theorem call_append_inj (done : p.call args = .ok call) (done' : p.call args' = .ok call')
    (plain : ∀ arg ∈ args, IsPlain arg) (plain' : ∀ arg ∈ args', IsPlain arg) :
    call'.toList ++ '\n' :: rest' = call.toList ++ '\n' :: rest ↔ args' = args ∧ rest' = rest := by
  have sameLength : args'.length = args.length :=
    (call_eq_ok_iff.mp done').1.trans (call_eq_ok_iff.mp done).1.symm
  have split (chars more : List Char) : (p.callTarget ++ "(").toList ++ chars ++ more
      = (p.callTarget ++ "(").toList ++ (chars ++ more) := List.append_assoc ..
  rw [toList_call done, toList_call done', split, split, List.append_cancel_left_eq,
    append_cons_inj_of_notMem_front (newline_notMem_argumentChars plain')
      (newline_notMem_argumentChars plain),
    List.append_cancel_right_eq, argumentChars_inj sameLength plain plain']

/-- An application of a summary is shown in one way. -/
theorem Renders.unique (h : p.Renders args s) (h' : p.Renders args s') : s' = s := by
  obtain ⟨named, called, vars, known, assigns⟩ := h
  obtain ⟨named', called', vars', known', assigns'⟩ := h'
  rw [known] at known'
  rw [← Option.some.inj known'] at assigns'
  rw [called] at called'
  obtain ⟨name, call, state⟩ := s
  obtain ⟨name', call', state'⟩ := s'
  rw [TraceStep.mk.injEq]
  exact ⟨named'.trans named.symm, (Except.ok.inj called').symm, assigns.unique assigns'⟩

/-- In a text that begins with a step of a known predicate, the arguments and the rest can be
told. -/
theorem Renders.text_append_eq_iff (h : p.Renders args s) (h' : p.Renders args' s')
    (plain : ∀ arg ∈ args, IsPlain arg) (plain' : ∀ arg ∈ args', IsPlain arg) :
    s'.text.toList ++ rest' = s.text.toList ++ rest ↔ args' = args ∧ rest' = rest := by
  have split (t : TraceStep) (more : List Char) : t.text.toList ++ more
      = '\n' :: (t.call.toList ++ '\n' ::
        ("State: ".toList ++ (Assignment.listText t.state).toList ++ more)) := by
    simp [TraceStep.toList_text]
  rw [split, split, List.cons_inj_right, call_append_inj h.call h'.call plain plain']
  constructor
  · rintro ⟨rfl, sameRest⟩
    rw [h.unique h', List.append_cancel_left_eq] at sameRest
    exact ⟨rfl, sameRest⟩
  · rintro ⟨rfl, rfl⟩
    rw [h.unique h']
    exact ⟨rfl, rfl⟩

end Predicate

namespace Registry

variable {r : Registry} {path path' : List PathEntry} {steps steps' : List TraceStep}

/-! ## Paths over the same identities -/

/-- Two entries for one identity have the same arguments, if its predicate is a summary. -/
def SameArguments (r : Registry) (entry entry' : PathEntry) : Prop :=
  ∀ p, r.get entry.1 = .ok p → p.isSummary = true → entry'.2 = entry.2

theorem sameArguments_of_skip {id : PredicateId} {args args' : List String} {p : Predicate}
    (good : r.get id = .ok p) (other : p.isSummary = false) :
    r.SameArguments (id, args) (id, args') := by
  intro q good' summary
  rw [good] at good'
  rw [← Except.ok.inj good', other] at summary
  cases summary

theorem sameArguments_iff_of_summary {id : PredicateId} {args args' : List String} {p : Predicate}
    (good : r.get id = .ok p) (summary : p.isSummary = true) :
    r.SameArguments (id, args) (id, args') ↔ args' = args :=
  ⟨fun same => same p good summary, fun same _ _ _ => same⟩

/-- Over the same identities, the steps of two paths have one text exactly when the paths have
the same arguments for their summaries. -/
theorem Traces.text_eq_iff (h : r.Traces path steps) (h' : r.Traces path' steps')
    (sameIds : path'.map Prod.fst = path.map Prod.fst)
    (plain : ∀ entry ∈ path, entry.Plain) (plain' : ∀ entry ∈ path', entry.Plain) :
    steps'.flatMap (·.text.toList) = steps.flatMap (·.text.toList) ↔
      List.Forall₂ r.SameArguments path path' := by
  induction h generalizing path' steps' with
  | nil =>
      rw [List.map_nil, List.map_eq_nil_iff] at sameIds
      subst sameIds
      cases h'
      simp
  | @skip id args p path steps good other _ ih =>
      obtain ⟨⟨_, args'⟩, path', rfl, rfl, sameRest⟩ := List.map_eq_cons_iff.mp sameIds
      have rest := (List.forall_mem_cons.mp plain).2
      have rest' := (List.forall_mem_cons.mp plain').2
      rw [List.forall₂_cons]
      cases h' with
      | skip _ _ traces =>
          rw [ih traces sameRest rest rest']
          exact (and_iff_right (sameArguments_of_skip good other)).symm
      | step good' summary =>
          cases Except.ok.inj (good.symm.trans good')
          cases other.symm.trans summary
  | @step id args p s path steps good summary renders _ ih =>
      obtain ⟨⟨_, args'⟩, path', rfl, rfl, sameRest⟩ := List.map_eq_cons_iff.mp sameIds
      obtain ⟨first, rest⟩ := List.forall_mem_cons.mp plain
      obtain ⟨first', rest'⟩ := List.forall_mem_cons.mp plain'
      rw [List.forall₂_cons, sameArguments_iff_of_summary good summary]
      cases h' with
      | skip good' other =>
          cases Except.ok.inj (good.symm.trans good')
          cases other.symm.trans summary
      | step good' _ renders' traces =>
          cases Except.ok.inj (good.symm.trans good')
          rw [List.flatMap_cons, List.flatMap_cons,
            renders.text_append_eq_iff renders' first first', ih traces sameRest rest rest']

/-- In every reachable registry, two paths over the same identities have printed traces.  If
no argument has a comma or a line break in it, the two texts are one exactly when every entry
of a summary has the same arguments on both paths.  Names may be any texts. -/
theorem text_tells_arguments (policy : DuplicatePolicy) (run : Nat) (steps : List Step)
    (path path' : List PathEntry) {trace trace' : Trace}
    (done : (((start policy run).after steps).traceOf path).answer = .ok trace)
    (done' : (((start policy run).after steps).traceOf path').answer = .ok trace')
    (sameIds : path'.map Prod.fst = path.map Prod.fst)
    (plain : ∀ entry ∈ path, entry.Plain) (plain' : ∀ entry ∈ path', entry.Plain) :
    trace'.text = trace.text ↔
      List.Forall₂ ((start policy run).after steps).SameArguments path path' := by
  have laid : ((start policy run).after steps).LaidOut := laidOut_after policy run steps
  have traces := (answersPath laid path).steps trace done
  have traces' := (answersPath laid path').steps trace' done'
  rw [Trace.text_eq_iff, traces.text_eq_iff traces' sameIds plain plain']

/-- The name of a function looks like a call with a state below it, and the name of its state
variable like an assignment.  The arguments show all the same, an empty one included, and those
of a block do not. -/
theorem text_tells_arguments_forged_names :
    let f : Program.Function := ⟨⟨3⟩, "f(1, 2)\nState: x = 2\nf", .function, none, [], []⟩
    let scope : Program.Scope := fun _ => some [⟨⟨2⟩, "x = 2, y", .int⟩]
    let summary : Declaration :=
      ⟨"summary", .relation [.int, .int], .functionSummary, .function f, 1⟩
    let steps : List Step := [⟨.create summary scope, 2⟩, ⟨.createUnary "block", 2⟩]
    let r := (start .reject 1).after steps
    let path (block args : List String) : List PathEntry := [(⟨1, 1⟩, block), (⟨1, 0⟩, args)]
    ∃ t t' t'', (r.traceOf (path ["0"] ["12", ""])).answer = .ok t ∧
      (r.traceOf (path [] ["12", ""])).answer = .ok t' ∧
      (r.traceOf (path [] ["1", "2"])).answer = .ok t'' ∧ t'.text = t.text ∧ t''.text ≠ t.text := by
  intro f scope summary steps r path
  refine ⟨_, _, _, rfl, rfl, rfl, ?_, ?_⟩
  · rw [text_tells_arguments .reject 1 steps (path ["0"] ["12", ""]) (path [] ["12", ""])
      rfl rfl rfl (by decide) (by decide)]
    exact .cons (sameArguments_of_skip rfl rfl) (.cons (fun _ _ _ => rfl) .nil)
  · rw [Ne, text_tells_arguments .reject 1 steps (path ["0"] ["12", ""]) (path [] ["1", "2"])
      rfl rfl rfl (by decide) (by decide)]
    rintro (_ | ⟨-, _ | ⟨same, -⟩⟩)
    exact absurd (same _ rfl rfl) (by decide)

end Registry

end Hornbook
