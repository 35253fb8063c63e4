import Hornbook.Proofs.Registry.Run

/-!
# The layout of state variables

A predicate has state variables exactly when its node has state, and all of them stand
among its arguments.  `Predicate.LaidOut` says both.  A creation checks the second part,
and nothing that the check looks at changes later, so it holds of every predicate of every
registry (`Registry.laidOut_after`).

The check counts in 64 bits.  For an arity of 64 bits it comes to the sum of offset and
number, however large the offset is (`Declaration.build_of_overlong` and
`Declaration.build_of_not_overlong`).
-/

namespace Hornbook

namespace Declaration

variable {d : Declaration} {scope : Program.Scope} {p : Predicate}

/-- The state variables that a declaration asks for would reach past its arguments. -/
def Overlong (d : Declaration) (scope : Program.Scope) : Prop :=
  d.node.kind.hasState = true ∧
    d.signature.arity < d.stateOffset + ((scope d.node).getD []).length

theorem stateVariables_eq (d : Declaration) (scope : Program.Scope) :
    d.stateVariables scope
      = if d.node.kind.hasState then some ((scope d.node).getD []) else none := by
  unfold stateVariables askVariables
  split
  · rfl
  · rfl

theorem build_of_overlong (bound : d.signature.arity < UInt64.size) (overlong : d.Overlong scope) :
    d.build scope = .error (.invalidStateLayout d.name d.stateOffset
      ((scope d.node).getD []).length d.signature.arity) := by
  obtain ⟨stateful, long⟩ := overlong
  have unfit : ¬ blockFits d.stateOffset ((scope d.node).getD []).length d.signature.arity := by
    rw [blockFits_iff_le bound]
    omega
  simp only [build_eq_buildWith, stateVariables_eq, stateful, if_true, buildWith, if_neg unfit]

theorem build_of_not_overlong (bound : d.signature.arity < UInt64.size)
    (short : ¬ d.Overlong scope) : d.build scope = .ok (d.predicate scope) := by
  refine build_eq_ok_iff.mpr ⟨rfl, fun vars visible => ?_⟩
  rw [stateVariables_eq] at visible
  by_cases stateful : d.node.kind.hasState = true
  · rw [if_pos stateful] at visible
    obtain rfl := Option.some.inj visible
    rw [blockFits_iff_le bound]
    exact Nat.le_of_not_lt fun long => short ⟨stateful, long⟩
  · rw [if_neg stateful] at visible
    cases visible

end Declaration

namespace Predicate

/-- A predicate whose node has state has state variables, and they are among its
arguments.  Other predicates have none. -/
structure LaidOut (p : Predicate) : Prop where
  isSome : p.stateVariables.isSome = p.node.kind.hasState
  fits : ∀ vars, p.stateVariables = some vars →
    blockFits p.stateOffset vars.length p.arity = true

theorem LaidOut.addVersion {p : Predicate} (h : p.LaidOut) : p.addVersion.LaidOut :=
  ⟨h.isSome, h.fits⟩

theorem laidOut_of_build {d : Declaration} {scope : Program.Scope} {p : Predicate}
    (built : d.build scope = .ok p) : p.LaidOut := by
  obtain ⟨rfl, fits⟩ := Declaration.build_eq_ok_iff.mp built
  constructor
  · show (d.stateVariables scope).isSome = d.node.kind.hasState
    rw [Declaration.stateVariables_eq]
    cases d.node.kind.hasState with
    | true => rfl
    | false => rfl
  · exact fits

end Predicate

namespace Registry

variable {r r' : Registry} {fresh : Nat} {op : Operation} {answer : Except Fault Answer}

/-- The state variables of every predicate are laid out. -/
def LaidOut (r : Registry) : Prop := ∀ p ∈ r.predicates, p.LaidOut

theorem LaidOut.get (h : r.LaidOut) {id : PredicateId} {p : Predicate} (good : r.get id = .ok p) :
    p.LaidOut :=
  h p (mem_of_get good)

theorem Effect.laidOut (effect : Effect r fresh op answer r') (h : r.LaidOut) : r'.LaidOut := by
  cases effect with
  | reused | duplicate | unfit | versionRefused | read => exact h
  | reset =>
      intro p hp
      cases hp
  | created _ built =>
      intro p hp
      rcases List.mem_append.mp hp with old | new
      · exact h p old
      · rw [List.mem_singleton.mp new]
        exact Predicate.laidOut_of_build built
  | versionAdded good =>
      intro p hp
      rcases List.mem_or_eq_of_mem_set hp with old | new
      · exact h p old
      · rw [new]
        exact (h.get good).addVersion

theorem laidOut_after (policy : DuplicatePolicy) (run : Nat) (steps : List Step) :
    ((start policy run).after steps).LaidOut := by
  refine after_of_effect Effect.laidOut steps ?_
  intro p hp
  cases hp

end Registry

end Hornbook
