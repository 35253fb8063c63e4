import Hornbook.Proofs.Registry.Creation

/-!
# What a policy decides

The policy of a registry is looked at in one place, where a declaration describes the
predicate that has its name already.  One policy hands that predicate back and the other
refuses the declaration.  Neither changes anything.

So two registries that are asked the same things and have different policies hold the same
predicates all the time (`after_withPolicy`).  Their answers are the same too, except where
such a declaration is made and where the policy itself is asked for
(`policy_changes_answers_only`).
-/

namespace Hornbook

/-- An operation declares a predicate once more: it is a creation under the name of the
predicate, and it agrees with the predicate in everything that a registry compares. -/
inductive Operation.Redeclares : Operation → Predicate → Prop where
  | create {d : Declaration} {scope : Program.Scope} {p : Predicate} :
      p.name = d.name → p.signature = d.signature → p.role = d.role →
      p.stateOffset = d.stateOffset → p.node.kind = d.node.kind → p.node.id? = d.node.id? →
      Redeclares (.create d scope) p

namespace Registry

/-- A registry with another policy and the same contents. -/
def withPolicy (policy : DuplicatePolicy) (r : Registry) : Registry := { r with policy := policy }

end Registry

/-- An outcome that leaves its registry with another policy. -/
def Outcome.withPolicy {α : Type} (policy : DuplicatePolicy) (o : Outcome α) : Outcome α :=
  { o with registry := o.registry.withPolicy policy }

namespace Registry

variable {r : Registry} {policy : DuplicatePolicy} {fresh : Nat} {op : Operation}
  {d : Declaration} {scope : Program.Scope} {id : PredicateId} {p : Predicate}

/-! ## Operations under another policy -/

theorem stepsOf_withPolicy (policy : DuplicatePolicy) (r : Registry) (path : List PathEntry) :
    (r.withPolicy policy).stepsOf path = r.stepsOf path := by
  induction path with
  | nil => rfl
  | cons entry path ih =>
      have same : (r.withPolicy policy).stepOf entry = r.stepOf entry := rfl
      rw [stepsOf, stepsOf, ih, same]

theorem create_withPolicy_of_free (free : r.find? d.name = none) :
    (r.withPolicy policy).create d scope = (r.create d scope).withPolicy policy := by
  have free' : (r.withPolicy policy).find? d.name = none := free
  cases built : d.build scope with
  | error fault =>
      rw [create_of_unfit free built, create_of_unfit free' built]
      rfl
  | ok p =>
      rw [create_of_fit free built, create_of_fit free' built]
      rfl

/-- A taken name is refused under every policy if the declaration does not describe the
predicate that has it. -/
theorem create_withPolicy_of_taken (found : r.find? d.name = some (id, p))
    (other : ¬ p.Matches d) :
    (r.withPolicy policy).create d scope = (r.create d scope).withPolicy policy := by
  have found' : (r.withPolicy policy).find? d.name = some (id, p) := found
  simp only [create, found, found', other, and_false, if_false]
  rfl

/-- An operation that neither asks for the policy nor declares a predicate once more has one
outcome under all policies. -/
theorem perform_withPolicy (other : op ≠ .policy)
    (new : ∀ id p, r.get id = .ok p → ¬ op.Redeclares p) :
    (r.withPolicy policy).perform fresh op = (r.perform fresh op).withPolicy policy := by
  cases op with
  | create d scope =>
      have same : (r.withPolicy policy).create d scope = (r.create d scope).withPolicy policy := by
        cases found : r.find? d.name with
        | none => exact create_withPolicy_of_free found
        | some entry =>
            obtain ⟨good, named⟩ := find?_eq_some found
            refine create_withPolicy_of_taken found ?_
            rintro ⟨signature, role, offset, node⟩
            exact new _ _ good (.create named signature role offset node.1 node.2)
      exact congrArg (Outcome.map Answer.id) same
  | addVersion id =>
      have good : (r.withPolicy policy).get id = r.get id := rfl
      simp only [perform, addVersion, good]
      cases r.get id with
      | error fault => rfl
      | ok p => rfl
  | trace path =>
      simp only [perform, traceOf, stepsOf_withPolicy]
      rfl
  | policy => exact absurd rfl other
  | _ => rfl

/-- A creation under a taken name changes nothing, whatever the policy makes of it. -/
theorem registry_create_withPolicy (policy : DuplicatePolicy) (r : Registry) (d : Declaration)
    (scope : Program.Scope) :
    ((r.withPolicy policy).create d scope).registry
      = (r.create d scope).registry.withPolicy policy := by
  cases found : r.find? d.name with
  | none => rw [create_withPolicy_of_free found]; rfl
  | some entry =>
      have found' : (r.withPolicy policy).find? d.name = some entry := found
      rw [(createsTaken_of_find? found).registry, (createsTaken_of_find? found').registry]

theorem registry_perform_withPolicy (policy : DuplicatePolicy) (r : Registry) (fresh : Nat)
    (op : Operation) :
    ((r.withPolicy policy).perform fresh op).registry
      = (r.perform fresh op).registry.withPolicy policy := by
  cases op with
  | create d scope => exact registry_create_withPolicy policy r d scope
  | policy => rfl
  | _ =>
      rw [perform_withPolicy (by simp) fun _ _ _ again => by cases again]
      rfl

/-- A run leaves the same contents under all policies. -/
theorem after_withPolicy (policy : DuplicatePolicy) (r : Registry) (steps : List Step) :
    (r.withPolicy policy).after steps = (r.after steps).withPolicy policy := by
  induction steps generalizing r with
  | nil => rfl
  | cons s steps ih => rw [after, after, registry_perform_withPolicy, ih]

/-! ## Declaring a predicate once more -/

/-- No creation moves, changes or removes a predicate. -/
theorem predicates_prefix_create (r : Registry) (d : Declaration) (scope : Program.Scope) :
    r.predicates <+: (r.create d scope).registry.predicates := by
  have effect := create_effect r 0 d scope
  generalize (r.create d scope).registry = r', (r.create d scope).answer.map _ = answer at effect ⊢
  cases effect with
  | reused | duplicate | unfit => exact List.prefix_refl _
  | created => exact List.prefix_append _ _
  | read reads => exact False.elim reads

/-- The one operation whose answer the policy decides. -/
theorem answer_of_redeclares (distinct : r.DistinctNames) (good : r.get id = .ok p)
    (again : op.Redeclares p) :
    (r.perform fresh op).answer
      = if r.policy = .reuseIdentical then .ok (.id id) else .error (.duplicateName p.name) := by
  cases again with
  | @create d scope _ named signature role offset kind node =>
      have taken : r.CreatesTaken r.policy d scope id p :=
        createsTaken_of_find? (distinct.find?_eq_some_iff.mpr ⟨good, named⟩)
      have answer := taken.answer
      simp only [signature, role, offset, kind, node, and_true] at answer
      show (r.create d scope).answer.map Answer.id = _
      rw [answer, named]
      split
      · rfl
      · rfl

/-! ## Runs under both policies -/

/-- Two registries start without predicates and are asked the same things.  One refuses every
name that is taken, and the other hands a predicate back that is declared once more.  They
hold the same at all times, and a declaration that describes a predicate is the only
operation that they answer differently, apart from the question which policy they have.  No
policy replaces anything. -/
theorem policy_changes_answers_only (run : Nat) (past : List Step) (s : Step) :
    let strict := (start .reject run).after past
    let lenient := (start .reuseIdentical run).after past
    (lenient.run = strict.run ∧ lenient.predicates = strict.predicates ∧
      lenient.entries = strict.entries ∧ lenient.declarations = strict.declarations) ∧
    (∀ id p, strict.get id = .ok p → s.operation.Redeclares p →
      (lenient.perform s.fresh s.operation).answer = .ok (.id id) ∧
      (lenient.lookup p.name).answer = .ok id ∧
      (strict.perform s.fresh s.operation).answer = .error (.duplicateName p.name)) ∧
    (s.operation ≠ .policy → (∀ id p, strict.get id = .ok p → ¬ s.operation.Redeclares p) →
      (lenient.perform s.fresh s.operation).answer
        = (strict.perform s.fresh s.operation).answer) ∧
    ∀ policy, let r := (start policy run).after past
      (∀ d scope, r.predicates <+: (r.create d scope).registry.predicates) ∧
      (s.operation ≠ .reset → r.Continues (r.perform s.fresh s.operation).registry) := by
  intro strict lenient
  have same : lenient = strict.withPolicy .reuseIdentical :=
    after_withPolicy .reuseIdentical (start .reject run) past
  have distinct : strict.DistinctNames := distinctNames_after .reject run past
  have strictly : strict.policy = .reject := policy_after .reject run past
  have leniently : lenient.policy = .reuseIdentical := policy_after .reuseIdentical run past
  refine ⟨?_, ?_, ?_, ?_⟩
  · rw [same]
    exact ⟨rfl, rfl, rfl, rfl⟩
  · intro id p good again
    have distinct' : lenient.DistinctNames := distinctNames_after .reuseIdentical run past
    have good' : lenient.get id = .ok p := by rwa [same]
    refine ⟨?_, distinct'.lookup_eq good', ?_⟩
    · rw [answer_of_redeclares distinct' good' again, if_pos leniently]
    · rw [answer_of_redeclares distinct good again, strictly]
      exact if_neg nofun
  · intro other new
    rw [same, perform_withPolicy other new]
    rfl
  · intro policy r
    refine ⟨predicates_prefix_create r, fun noReset => ?_⟩
    exact (perform_effect r s.fresh s.operation).continues noReset

/-- A predicate with two versions is declared once more, and then under its name with another
role. -/
theorem policy_changes_answers_only_second_version :
    let past : List Step := [⟨.createUnary "p", 2⟩, ⟨.addVersion ⟨1, 0⟩, 2⟩]
    let other : Operation := .create ⟨"p", .relation [.int], .error, .none, 0⟩ fun _ => none
    let strict := (start .reject 1).after past
    let lenient := (start .reuseIdentical 1).after past
    (lenient.perform 2 (.createUnary "p")).answer = .ok (.id ⟨1, 0⟩) ∧
      (strict.perform 2 (.createUnary "p")).answer = .error (.duplicateName "p") ∧
      (lenient.perform 2 other).answer = (strict.perform 2 other).answer ∧
      strict.Continues (strict.perform 2 other).registry := by
  intro past other strict lenient
  obtain ⟨-, again, -⟩ := policy_changes_answers_only 1 past ⟨.createUnary "p", 2⟩
  obtain ⟨-, -, new, kept⟩ := policy_changes_answers_only 1 past ⟨other, 2⟩
  obtain ⟨handedBack, -, refused⟩ := again ⟨1, 0⟩ _ rfl (.create rfl rfl rfl rfl rfl rfl)
  refine ⟨handedBack, refused, new nofun ?_, (kept .reject).2 nofun⟩
  intro id p good
  have mem : p ∈ strict.predicates := List.mem_of_getElem? (get_eq_ok_iff.mp good).2
  rw [List.mem_singleton.mp mem]
  intro again
  cases again with
  | create _ _ role => cases role

end Registry

end Hornbook
