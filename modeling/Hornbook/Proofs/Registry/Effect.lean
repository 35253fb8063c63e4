import Hornbook.Registry.Operation

/-!
# What an operation does

`Effect` lists all that an operation can do to a registry.  A creation hands back a
predicate, is refused, or puts one predicate behind the others.  A version is added or
refused.  A reset begins another run.  Every other operation leaves the registry as it
is, whatever it answers.  `perform_effect` says that the list is complete, so an
invariant of registries is a case analysis over `Effect` and never opens `perform`.
-/

namespace Hornbook

/-- An operation that can change nothing. -/
def Operation.Reads : Operation → Prop
  | .create .. => False
  | .addVersion _ => False
  | .reset => False
  | _ => True

theorem Operation.runsBegun_eq_zero_iff {op : Operation} : op.runsBegun = 0 ↔ op ≠ .reset := by
  cases op <;> simp [runsBegun]

/-- A declaration is built exactly when its state variables fit, and then as it stands. -/
theorem Declaration.build_eq_ok_iff {d : Declaration} {scope : Program.Scope} {p : Predicate} :
    d.build scope = .ok p ↔ p = d.predicate scope ∧ ∀ vars, d.stateVariables scope = some vars →
      blockFits d.stateOffset vars.length d.signature.arity = true := by
  rw [build_eq_buildWith, predicate]
  cases d.stateVariables scope with
  | none => simp [buildWith, eq_comm (a := p)]
  | some vars =>
      by_cases fits : blockFits d.stateOffset vars.length d.signature.arity = true
      · simp [buildWith, fits, eq_comm (a := p)]
      · simp [buildWith, fits]

/-- A predicate that was just built has the name, the signature, the role, the node and
the offset of its declaration, and no version but the first. -/
theorem Declaration.build_eq_ok {d : Declaration} {scope : Program.Scope} {p : Predicate}
    (h : d.build scope = .ok p) : p = d.predicate scope :=
  (build_eq_ok_iff.mp h).1

/-- What is built comes with what was asked for the state variables. -/
theorem Declaration.askPredicate_of_build {d : Declaration} {scope : Program.Scope}
    {built : Except Fault Predicate} (h : d.build scope = built) :
    d.askPredicate scope = ⟨built, (d.askVariables scope).questions⟩ := by
  rw [← h]
  rfl

theorem Declaration.name_of_build {d : Declaration} {scope : Program.Scope} {p : Predicate}
    (h : d.build scope = .ok p) : p.name = d.name := by
  rw [build_eq_ok h]
  rfl

theorem Declaration.latest_of_build {d : Declaration} {scope : Program.Scope} {p : Predicate}
    (h : d.build scope = .ok p) : p.latest = 0 := by
  rw [build_eq_ok h]
  rfl

namespace Registry

/-! ## Effects -/

/-- What an operation answers and which registry it leaves.  A reset begins the run
`fresh`. -/
inductive Effect (r : Registry) (fresh : Nat) :
    Operation → Except Fault Answer → Registry → Prop where
  /-- The name is taken by a predicate that the declaration describes. -/
  | reused {d : Declaration} {scope : Program.Scope} {id : PredicateId} {p : Predicate} :
      r.find? d.name = some (id, p) → r.policy = .reuseIdentical → p.Matches d →
      Effect r fresh (.create d scope) (.ok (.id id)) r
  /-- The name is taken. -/
  | duplicate {d : Declaration} {scope : Program.Scope} {id : PredicateId} {p : Predicate} :
      r.find? d.name = some (id, p) → ¬ (r.policy = .reuseIdentical ∧ p.Matches d) →
      Effect r fresh (.create d scope) (.error (.duplicateName d.name)) r
  /-- The name is free, but the state variables do not fit. -/
  | unfit {d : Declaration} {scope : Program.Scope} {fault : Fault} :
      r.find? d.name = none → d.build scope = .error fault →
      Effect r fresh (.create d scope) (.error fault) r
  /-- The name is free, and a predicate is made. -/
  | created {d : Declaration} {scope : Program.Scope} {p : Predicate} :
      r.find? d.name = none → d.build scope = .ok p →
      Effect r fresh (.create d scope) (.ok (.id (r.idAt r.size)))
        { r with predicates := r.predicates ++ [p] }
  /-- The identity is good, and its predicate gets a version. -/
  | versionAdded {id : PredicateId} {p : Predicate} :
      r.get id = .ok p →
      Effect r fresh (.addVersion id) (.ok .done)
        { r with predicates := r.predicates.set id.index p.addVersion }
  /-- The identity is not good. -/
  | versionRefused {id : PredicateId} {fault : Fault} :
      r.get id = .error fault → Effect r fresh (.addVersion id) (.error fault) r
  /-- All predicates are dropped. -/
  | reset : Effect r fresh .reset (.ok .done) (start r.policy fresh)
  /-- Something was asked. -/
  | read {op : Operation} : op.Reads → Effect r fresh op (r.perform fresh op).answer r

theorem create_effect (r : Registry) (fresh : Nat) (d : Declaration) (scope : Program.Scope) :
    Effect r fresh (.create d scope) ((r.create d scope).answer.map .id)
      (r.create d scope).registry := by
  unfold create
  cases found : r.find? d.name with
  | some entry =>
      obtain ⟨id, p⟩ := entry
      dsimp only
      split
      next matching => exact .reused found matching.1 matching.2
      next different => exact .duplicate found different
  | none =>
      cases built : d.build scope with
      | error fault =>
          rw [Declaration.askPredicate_of_build built]
          exact .unfit found built
      | ok p =>
          rw [Declaration.askPredicate_of_build built]
          exact .created found built

theorem addVersion_effect (r : Registry) (fresh : Nat) (id : PredicateId) :
    Effect r fresh (.addVersion id) ((r.addVersion id).answer.map fun _ => .done)
      (r.addVersion id).registry := by
  unfold addVersion
  cases got : r.get id with
  | error fault => exact .versionRefused got
  | ok p => exact .versionAdded got

/-- Every operation has one of the effects. -/
theorem perform_effect (r : Registry) (fresh : Nat) (op : Operation) :
    Effect r fresh op (r.perform fresh op).answer (r.perform fresh op).registry := by
  cases op with
  | create d scope => exact create_effect r fresh d scope
  | addVersion id => exact addVersion_effect r fresh id
  | reset => exact .reset
  | _ => exact .read trivial

end Registry

end Hornbook
