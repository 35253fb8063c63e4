import Hornbook.Proofs.Registry.Effect
import Mathlib.Data.List.DropRight

/-!
# Runs of operations

A run is a list of steps, and a step is an operation together with the number of the run
that it begins if it is a reset.  `Registry.after` is the registry that a run leaves, and
`Registry.transcript` is what can be seen of it from outside: the operations and their
outcomes.

A transcript has all that is needed to say what a registry should hold, without a look at
the registry.  What counts is the part since the last reset (`Transcript.sinceReset`).
The names of its successful creations stand in `Transcript.created`, one for each
creation, so a name that was handed back stands there again.  The additions of versions
to one predicate are counted from its creation on (`Transcript.sinceCreation`).
-/

namespace Hornbook

/-- An operation, and the number of the run that it begins if it is a reset. -/
structure Step where
  operation : Operation
  fresh : Nat

/-- A step that was taken, as it is seen from outside. -/
structure Exchange where
  operation : Operation
  outcome : Outcome Answer

/-- The steps of a run as they are seen from outside, oldest first. -/
abbrev Transcript := List Exchange

/-- The creation of a predicate of one integer, for no node in particular. -/
def Operation.createUnary (name : String) : Operation :=
  .create ⟨name, .relation [.int], .custom, .none, 0⟩ fun _ => none

namespace Exchange

/-- The name under which a predicate was made or handed back. -/
def created? (x : Exchange) : Option String :=
  match x.operation, x.outcome.answer with
  | .create d _, .ok _ => some d.name
  | _, _ => none

/-- The identity whose predicate got a version. -/
def versioned? (x : Exchange) : Option PredicateId :=
  match x.operation, x.outcome.answer with
  | .addVersion id, .ok _ => some id
  | _, _ => none

/-- The identities that were given out, each with the name of the predicate it was given
out for. -/
def issued (x : Exchange) : List (PredicateId × String) :=
  match x.operation, x.outcome.answer with
  | .create d _, .ok (.id id) => [(id, d.name)]
  | .lookup name, .ok (.id id) => [(id, name)]
  | .entries, .ok (.entries entries) => entries.map fun entry => (entry.1, entry.2.name)
  | _, _ => []

end Exchange

namespace Transcript

/-- The part after the last reset. -/
def sinceReset (t : Transcript) : Transcript :=
  t.rtakeWhile fun x => x.operation.runsBegun = 0

/-- The names of the successful creations since the last reset, in order. -/
def created (t : Transcript) : List String := t.sinceReset.filterMap Exchange.created?

/-- The names of the predicates that were there before the one of a name. -/
def createdBefore (t : Transcript) (name : String) : List String :=
  (t.created.takeWhile (· ≠ name)).eraseDups

/-- The part from the first creation of a name since the last reset. -/
def sinceCreation (t : Transcript) (name : String) : Transcript :=
  t.sinceReset.dropWhile fun x => x.created? ≠ some name

/-- How often the predicate of an identity got a version. -/
def versionsAdded (t : Transcript) (id : PredicateId) : Nat :=
  t.countP fun x => x.versioned? = some id

end Transcript

namespace Registry

/-- The registry after a run. -/
def after (r : Registry) : List Step → Registry
  | [] => r
  | s :: steps => (r.perform s.fresh s.operation).registry.after steps

/-- What a step looks like from outside. -/
def exchange (r : Registry) (s : Step) : Exchange := ⟨s.operation, r.perform s.fresh s.operation⟩

/-- What a run looks like from outside. -/
def transcript (r : Registry) : List Step → Transcript
  | [] => []
  | s :: steps => r.exchange s :: (r.perform s.fresh s.operation).registry.transcript steps

variable {r r' : Registry} {fresh : Nat} {answer : Except Fault Answer}

theorem after_append (r : Registry) (past future : List Step) :
    r.after (past ++ future) = (r.after past).after future := by
  induction past generalizing r with
  | nil => rfl
  | cons s past ih => exact ih _

/-- What no effect breaks holds after every run. -/
theorem after_of_effect {P : Registry → Prop}
    (kept : ∀ {r r' : Registry} {fresh : Nat} {op : Operation} {answer : Except Fault Answer},
      Effect r fresh op answer r' → P r → P r')
    (steps : List Step) (h : P r) : P (r.after steps) := by
  induction steps generalizing r with
  | nil => exact h
  | cons s steps ih => exact ih (kept (perform_effect r s.fresh s.operation) h)

/-- What no effect but a reset breaks holds after every run without a reset. -/
theorem after_of_effect_of_ne_reset {P : Registry → Prop}
    (kept : ∀ {r r' : Registry} {fresh : Nat} {op : Operation} {answer : Except Fault Answer},
      Effect r fresh op answer r' → op ≠ .reset → P r → P r')
    {steps : List Step} (noReset : ∀ s ∈ steps, s.operation ≠ .reset) (h : P r) :
    P (r.after steps) := by
  induction steps generalizing r with
  | nil => exact h
  | cons s steps ih =>
      refine ih (fun s' hs' => noReset s' (List.mem_cons_of_mem _ hs')) ?_
      exact kept (perform_effect r s.fresh s.operation) (noReset s List.mem_cons_self) h

end Registry

/-! ## Transcripts with one more exchange -/

namespace Transcript

variable {t : Transcript} {x : Exchange} {name : String}

theorem sinceReset_concat (h : x.operation ≠ .reset) :
    sinceReset (t ++ [x]) = t.sinceReset ++ [x] := by
  rw [sinceReset, List.rtakeWhile_concat_pos]
  · rfl
  · exact decide_eq_true (Operation.runsBegun_eq_zero_iff.mpr h)

theorem sinceReset_concat_reset (h : x.operation = .reset) : sinceReset (t ++ [x]) = [] := by
  rw [sinceReset, List.rtakeWhile_concat_neg]
  simp [h, Operation.runsBegun]

theorem created_concat (h : x.operation ≠ .reset) :
    created (t ++ [x]) = t.created ++ x.created?.toList := by
  rw [created, sinceReset_concat h, List.filterMap_append, created]
  cases hx : x.created? with
  | none => simp [hx]
  | some name => simp [hx]

theorem created_concat_reset (h : x.operation = .reset) : created (t ++ [x]) = [] := by
  rw [created, sinceReset_concat_reset h]
  rfl

theorem sinceCreation_concat (h : x.operation ≠ .reset) (mem : name ∈ t.created) :
    sinceCreation (t ++ [x]) name = t.sinceCreation name ++ [x] := by
  obtain ⟨y, hy, hname⟩ := List.mem_filterMap.mp mem
  rw [sinceCreation, sinceReset_concat h, List.dropWhile_append, if_neg]
  · rfl
  · intro empty
    rw [List.isEmpty_iff, List.dropWhile_eq_nil_iff] at empty
    simpa [hname] using empty y hy

theorem sinceCreation_concat_created (h : x.operation ≠ .reset) (fresh : name ∉ t.created)
    (hx : x.created? = some name) : sinceCreation (t ++ [x]) name = [x] := by
  have dropped : t.sinceReset.dropWhile (fun y => y.created? ≠ some name) = [] := by
    rw [List.dropWhile_eq_nil_iff]
    intro y hy
    rw [decide_eq_true_eq]
    intro hname
    exact fresh (List.mem_filterMap.mpr ⟨y, hy, hname⟩)
  rw [sinceCreation, sinceReset_concat h, List.dropWhile_append, dropped]
  simp [hx]

theorem versionsAdded_concat (t : Transcript) (x : Exchange) (id : PredicateId) :
    versionsAdded (t ++ [x]) id = t.versionsAdded id + if x.versioned? = some id then 1 else 0 := by
  simp [versionsAdded, List.countP_append]

end Transcript

end Hornbook
