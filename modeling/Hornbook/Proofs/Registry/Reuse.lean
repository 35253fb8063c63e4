import Hornbook.Proofs.Registry.Creation

/-!
# What reuse hands back

A creation under a taken name can hand back the predicate of that name.  The signature,
the role, the offset and the identity of the node are compared.  The state variables are
not, and the scope is not even asked.  So the predicate that is handed back need not be
what the declaration makes in an empty registry (`Declaration.Reproduces`).

Every predicate comes from a creation of the run, and its state variables are what the
scope of that creation answered.  `Registry.reuse_exact` says that a declaration
reproduces what is handed back exactly when its own scope answers the same.  A node
without state asks no scope, so it is always reproduced.
-/

namespace Hornbook

/-- Two predicates agree in name, signature, role, offset and state variables.  They may
have different numbers of versions. -/
structure Predicate.SameDesign (p q : Predicate) : Prop where
  name : q.name = p.name
  signature : q.signature = p.signature
  role : q.role = p.role
  stateOffset : q.stateOffset = p.stateOffset
  stateVariables : q.stateVariables = p.stateVariables

/-- In an empty registry, a declaration makes a predicate that agrees with a given one. -/
def Declaration.Reproduces (d : Declaration) (scope : Program.Scope) (p : Predicate) : Prop :=
  ∀ policy run, ∃ id q, ((Registry.start policy run).create d scope).answer = .ok id ∧
    ((Registry.start policy run).create d scope).registry.get id = .ok q ∧ p.SameDesign q

namespace Declaration

variable {d earlier : Declaration} {scope before : Program.Scope} {p : Predicate}

/-- Two declarations for nodes of one kind get the same state variables exactly when the
nodes have no state or the scopes answer the same. -/
theorem stateVariables_eq_iff (sameKind : earlier.node.kind = d.node.kind) :
    d.stateVariables scope = earlier.stateVariables before ↔
      (d.node.kind.hasState = true → (scope d.node).getD [] = (before earlier.node).getD []) := by
  rw [stateVariables_eq, stateVariables_eq, sameKind]
  cases d.node.kind.hasState with
  | true => simp only [if_true, Option.some.injEq, forall_const]
  | false => simp only [Bool.false_eq_true, if_false, false_implies]

/-- A declaration is built if its state variables are those of a predicate that matches it. -/
theorem build_of_matches (laidOut : p.LaidOut) (matching : p.Matches d)
    (sameVariables : d.stateVariables scope = p.stateVariables) :
    d.build scope = .ok (d.predicate scope) := by
  obtain ⟨signature, -, stateOffset, -⟩ := matching
  refine build_eq_ok_iff.mpr ⟨rfl, fun vars visible => ?_⟩
  rw [← stateOffset, ← signature]
  exact laidOut.fits vars (sameVariables.symm.trans visible)

/-- Of a predicate that matches it, a declaration can miss the state variables only. -/
theorem reproduces_iff (laidOut : p.LaidOut) (named : p.name = d.name) (matching : p.Matches d) :
    d.Reproduces scope p ↔ d.stateVariables scope = p.stateVariables := by
  constructor
  · intro reproduces
    obtain ⟨id, q, answered, good, same⟩ := reproduces .reject 0
    cases built : d.build scope with
    | error fault =>
        rw [Registry.create_of_unfit rfl built] at answered
        cases answered
    | ok made =>
        rw [Registry.create_of_fit rfl built] at answered good
        cases answered
        cases good
        rw [← same.stateVariables, build_eq_ok built]
        rfl
  · intro sameVariables policy run
    have built := build_of_matches laidOut matching sameVariables
    obtain ⟨signature, role, stateOffset, -⟩ := matching
    refine ⟨⟨run, 0⟩, d.predicate scope, ?_, ?_, ?_⟩
    · rw [Registry.create_of_fit rfl built]
      rfl
    · rw [Registry.create_of_fit rfl built]
      exact Registry.get_append _ _
    · exact ⟨named.symm, signature.symm, role.symm, stateOffset.symm, sameVariables⟩

end Declaration

namespace Registry

variable {r r' : Registry} {fresh : Nat} {op : Operation} {answer : Except Fault Answer}
  {id : PredicateId} {p : Predicate} {d : Declaration} {scope : Program.Scope}

/-- No predicate has the identity that the next one will have. -/
theorem get_idAt_size_ne : r.get (r.idAt r.size) ≠ .ok p := by
  intro good
  have position : r.predicates[r.size]? = some p := get_idAt.mp good
  exact absurd (List.getElem?_eq_some_iff.mp position).1 (Nat.lt_irrefl _)

/-- A creation that answers with the identity of a predicate that was there found it by
its name, under the policy, and compared it. -/
theorem Effect.compared (effect : Effect r fresh op answer r') (isCreation : op = .create d scope)
    (answered : answer = .ok (.id id)) (live : r.get id = .ok p) :
    r.policy = .reuseIdentical ∧ p.name = d.name ∧ p.Matches d := by
  cases effect with
  | reused found policyReuses matching =>
      cases isCreation
      cases answered
      obtain ⟨good, named⟩ := find?_eq_some found
      rw [live] at good
      cases good
      exact ⟨policyReuses, named, matching⟩
  | created =>
      cases answered
      exact absurd live get_idAt_size_ne
  | duplicate | unfit | versionRefused => cases answered
  | versionAdded | reset => cases isCreation
  | read reads =>
      cases isCreation
      exact False.elim reads

theorem compared_of_create (live : r.get id = .ok p)
    (reused : (r.create d scope).answer = .ok id) :
    r.policy = .reuseIdentical ∧ p.name = d.name ∧ p.Matches d :=
  (create_effect r r.run d scope).compared rfl (congrArg (Except.map Answer.id) reused) live

/-- A predicate that is handed back in a reachable registry agrees with the declaration in
all that is compared, and it continues what some earlier creation made.  The declaration
reproduces it exactly when its scope answers what the scope of that creation answered, or
its node has no state. -/
theorem reuse_exact (policy : DuplicatePolicy) (run : Nat) (steps : List Step) (d : Declaration)
    (scope : Program.Scope) {id : PredicateId} {p : Predicate}
    (live : ((start policy run).after steps).get id = .ok p)
    (reused : (((start policy run).after steps).create d scope).answer = .ok id) :
    (policy = .reuseIdentical ∧ p.name = d.name ∧ p.Matches d) ∧
      ∃ s ∈ steps, ∃ earlier before made, s.operation = .create earlier before ∧
        earlier.build before = .ok made ∧ made.Continues p ∧
        (d.Reproduces scope p ↔
          (d.node.kind.hasState = true →
            (scope d.node).getD [] = (before earlier.node).getD [])) := by
  obtain ⟨policyReuses, named, matching⟩ := compared_of_create live reused
  rw [policy_after] at policyReuses
  refine ⟨⟨policyReuses, named, matching⟩, ?_⟩
  obtain ⟨s, taken, earlier, before, made, created, built, continues⟩ :=
    exists_creation (List.mem_of_getElem? (get_eq_ok_iff.mp live).2)
  refine ⟨s, taken, earlier, before, made, created, built, continues, ?_⟩
  have asMade : made = earlier.predicate before := Declaration.build_eq_ok built
  have sameKind : earlier.node.kind = d.node.kind := by
    rw [← matching.2.2.2.1, continues.node, asMade]
    rfl
  have sameVariables : p.stateVariables = earlier.stateVariables before := by
    rw [continues.stateVariables, asMade]
    rfl
  rw [Declaration.reproduces_iff ((laidOut_after policy run steps).get live) named matching,
    sameVariables, Declaration.stateVariables_eq_iff sameKind]

/-- A getter is declared again while the same contract is encoded, by a scope that knows
the getter's variables only.  What is handed back has got a version, and it is
reproduced. -/
theorem reuse_exact_same_answer :
    let balance : Program.Variable := ⟨⟨2⟩, "balance", .int⟩
    let base : Program.Contract := ⟨⟨1⟩, "Base", [balance], []⟩
    let getter : Program.Function := ⟨⟨3⟩, "get", .function, some "Base", [], []⟩
    let summary : Declaration :=
      ⟨"summary_get", .relation [.int, .int], .functionSummary, .function getter, 0⟩
    let steps : List Step :=
      [⟨.create summary (.ofContract (some base)), 2⟩, ⟨.addVersion ⟨1, 0⟩, 2⟩]
    let r := (start .reuseIdentical 1).after steps
    let scope : Program.Scope := fun node =>
      if node = .function getter then some [balance] else none
    let p := (summary.predicate (.ofContract (some base))).addVersion
    r.get ⟨1, 0⟩ = .ok p ∧ (r.create summary scope).answer = .ok ⟨1, 0⟩ ∧
      summary.Reproduces scope p := by
  intro balance base getter summary steps r scope p
  have live : r.get ⟨1, 0⟩ = .ok p := rfl
  have reused : (r.create summary scope).answer = .ok ⟨1, 0⟩ := rfl
  obtain ⟨-, s, taken, earlier, before, made, created, -, -, reproduces⟩ :=
    reuse_exact .reuseIdentical 1 steps summary scope live reused
  have first : s = ⟨.create summary (.ofContract (some base)), 2⟩ := by
    rcases List.mem_cons.mp taken with first | second
    · exact first
    · rw [List.mem_singleton.mp second] at created
      cases created
  rw [first] at created
  cases created
  exact ⟨live, reused, reproduces.mpr fun _ => rfl⟩

/-- A getter of a base contract is declared while the base is encoded, and again while a
derived contract is.  The second creation hands the first predicate back, which has the
state variable of the base only.  In an empty registry, the second declaration makes a
predicate that has the variable of the derived contract too. -/
theorem reuse_not_reproduced :
    let balance : Program.Variable := ⟨⟨2⟩, "balance", .int⟩
    let fee : Program.Variable := ⟨⟨5⟩, "fee", .int⟩
    let base : Program.Contract := ⟨⟨1⟩, "Base", [balance], []⟩
    let derived : Program.Contract := ⟨⟨4⟩, "Derived", [fee], [base]⟩
    let getter : Program.Function := ⟨⟨3⟩, "get", .function, some "Base", [], []⟩
    let summary : Declaration :=
      ⟨"summary_get", .relation [.int, .int], .functionSummary, .function getter, 0⟩
    let r := (start .reuseIdentical 1).after [⟨.create summary (.ofContract (some base)), 2⟩]
    let p := summary.predicate (.ofContract (some base))
    let q := summary.predicate (.ofContract (some derived))
    r.get ⟨1, 0⟩ = .ok p ∧
      (r.create summary (.ofContract (some derived))).answer = .ok ⟨1, 0⟩ ∧
      ((start .reuseIdentical 2).create summary (.ofContract (some derived))).registry.get ⟨2, 0⟩
        = .ok q ∧
      p.stateVariables = some [balance] ∧ q.stateVariables = some [balance, fee] ∧
      ¬ summary.Reproduces (.ofContract (some derived)) p := by
  intro balance fee base derived getter summary r p q
  have live : r.get ⟨1, 0⟩ = .ok p := rfl
  have reused : (r.create summary (.ofContract (some derived))).answer = .ok ⟨1, 0⟩ := rfl
  refine ⟨live, reused, rfl, rfl, rfl, ?_⟩
  obtain ⟨-, named, matching⟩ := compared_of_create live reused
  have laidOut : p.LaidOut := (laidOut_after .reuseIdentical 1 _).get live
  rw [Declaration.reproduces_iff laidOut named matching]
  have more : some [balance, fee] ≠ some [balance] := by decide
  exact more

end Registry

end Hornbook
