import Hornbook.Proofs.Registry.Run
import Hornbook.Proofs.Smt.Application

/-!
# Growth between resets

Between two resets a registry only grows.  A predicate keeps everything but the number
of its versions, which never falls (`Predicate.Continues`).  A registry keeps its policy
and its run, and each of its predicates continues at the position where it stands
(`Registry.Continues`).  Both relations are reflexive and transitive.  Every effect but
a reset keeps the second one, and so does every run without a reset
(`Registry.continues_after`).

Nothing is in a registry that was not made in its run.  Each predicate continues one that a
creation of the run built (`Registry.exists_creation`).
-/

namespace Hornbook

namespace Predicate

/-- The second predicate is the first one at a later time.  All it can have got is more
versions. -/
structure Continues (p q : Predicate) : Prop where
  name : q.name = p.name
  signature : q.signature = p.signature
  role : q.role = p.role
  node : q.node = p.node
  stateVariables : q.stateVariables = p.stateVariables
  stateOffset : q.stateOffset = p.stateOffset
  latest : p.latest ≤ q.latest

namespace Continues

variable {p q p' : Predicate}

theorem refl (p : Predicate) : p.Continues p :=
  ⟨rfl, rfl, rfl, rfl, rfl, rfl, Nat.le_refl _⟩

theorem trans (h : p.Continues q) (h' : q.Continues p') : p.Continues p' :=
  ⟨h'.name.trans h.name, h'.signature.trans h.signature, h'.role.trans h.role,
    h'.node.trans h.node, h'.stateVariables.trans h.stateVariables,
    h'.stateOffset.trans h.stateOffset, Nat.le_trans h.latest h'.latest⟩

theorem addVersion (p : Predicate) : p.Continues p.addVersion :=
  ⟨rfl, rfl, rfl, rfl, rfl, rfl, Nat.le_succ _⟩

theorem classification (h : p.Continues q) : q.classification = p.classification := by
  rw [Predicate.classification, Predicate.classification, h.role, h.node]

/-- The function symbol of a number does not depend on the time. -/
theorem version (h : p.Continues q) (i : Nat) : q.symbol.version i = p.symbol.version i := by
  have name : q.symbol.name = p.symbol.name := h.name
  have signature : q.symbol.signature = p.symbol.signature := h.signature
  rw [VersionedSymbol.version, VersionedSymbol.version, name, signature]

end Continues

/-- A version that is there keeps its symbol. -/
theorem Continues.symbolAt {p q : Predicate} (h : p.Continues q) {i : Nat} (hi : i ≤ p.latest) :
    q.symbolAt i = p.symbolAt i := by
  rw [symbolAt_of_le hi, symbolAt_of_le (Nat.le_trans hi h.latest), h.version]

end Predicate

namespace Registry

/-- The second registry is the first one at a later time in the same run.  Each predicate
continues at its position, and more can stand behind them. -/
structure Continues (r r' : Registry) : Prop where
  policy : r'.policy = r.policy
  run : r'.run = r.run
  predicates : ∀ {i : Nat} {p : Predicate}, r.predicates[i]? = some p →
    ∃ q, r'.predicates[i]? = some q ∧ p.Continues q

variable {r r' r'' : Registry} {fresh : Nat} {op : Operation} {answer : Except Fault Answer}
  {id : PredicateId} {p : Predicate}

namespace Continues

theorem refl (r : Registry) : r.Continues r :=
  ⟨rfl, rfl, fun hp => ⟨_, hp, .refl _⟩⟩

theorem trans (h : r.Continues r') (h' : r'.Continues r'') : r.Continues r'' := by
  refine ⟨h'.policy.trans h.policy, h'.run.trans h.run, ?_⟩
  intro i p hp
  obtain ⟨q, hq, first⟩ := h.predicates hp
  obtain ⟨p', hp', second⟩ := h'.predicates hq
  exact ⟨p', hp', first.trans second⟩

theorem get (h : r.Continues r') (hp : r.get id = .ok p) :
    ∃ q, r'.get id = .ok q ∧ p.Continues q := by
  obtain ⟨hrun, hindex⟩ := get_eq_ok_iff.mp hp
  obtain ⟨q, hq, continues⟩ := h.predicates hindex
  exact ⟨q, get_eq_ok_iff.mpr ⟨hrun.trans h.run.symm, hq⟩, continues⟩

end Continues

theorem continues_append (r : Registry) (p : Predicate) :
    r.Continues { r with predicates := r.predicates ++ [p] } := by
  refine ⟨rfl, rfl, ?_⟩
  intro i q hq
  refine ⟨q, ?_, .refl q⟩
  rw [List.getElem?_append_left (List.getElem?_eq_some_iff.mp hq).1, hq]

theorem continues_set {i : Nat} (h : r.predicates[i]? = some p) :
    r.Continues { r with predicates := r.predicates.set i p.addVersion } := by
  refine ⟨rfl, rfl, ?_⟩
  intro j q hq
  by_cases same : i = j
  · subst same
    have hpq : p = q := Option.some.inj (h.symm.trans hq)
    subst hpq
    exact ⟨_, List.getElem?_set_self (List.getElem?_eq_some_iff.mp h).1, .addVersion p⟩
  · exact ⟨q, by rw [List.getElem?_set_ne same, hq], .refl q⟩

/-- Every effect but a reset lets the registry grow. -/
theorem Effect.continues (h : Effect r fresh op answer r') (noReset : op ≠ .reset) :
    r.Continues r' := by
  cases h with
  | reused | duplicate | unfit | versionRefused | read => exact .refl r
  | reset => exact absurd rfl noReset
  | created => exact continues_append r _
  | versionAdded got => exact continues_set (get_eq_ok_iff.mp got).2

/-- Every run without a reset lets the registry grow. -/
theorem continues_after (r : Registry) {steps : List Step}
    (noReset : ∀ s ∈ steps, s.operation ≠ .reset) : r.Continues (r.after steps) :=
  after_of_effect_of_ne_reset (fun effect kept grown => grown.trans (effect.continues kept))
    noReset (Continues.refl r)

/-! ## Where predicates come from -/

/-- An effect builds a predicate or has it from before. -/
theorem Effect.exists_continues_or_built (effect : Effect r fresh op answer r')
    (there : p ∈ r'.predicates) :
    (∃ q ∈ r.predicates, q.Continues p) ∨
      ∃ d scope, op = .create d scope ∧ d.build scope = .ok p := by
  cases effect with
  | reused | duplicate | unfit | versionRefused | read => exact .inl ⟨p, there, .refl p⟩
  | reset => cases there
  | @created d scope p' _ built =>
      rcases List.mem_append.mp there with old | new
      · exact .inl ⟨p, old, .refl p⟩
      · rw [List.mem_singleton.mp new]
        exact .inr ⟨d, scope, rfl, built⟩
  | @versionAdded id q good =>
      rcases List.mem_or_eq_of_mem_set there with old | new
      · exact .inl ⟨p, old, .refl p⟩
      · rw [new]
        exact .inl ⟨q, mem_of_get good, .addVersion q⟩

/-- After a run, a predicate continues one from before the run or one that was built in it. -/
theorem exists_continues_or_built_after {steps : List Step}
    (there : p ∈ (r.after steps).predicates) :
    (∃ q ∈ r.predicates, q.Continues p) ∨
      ∃ s ∈ steps, ∃ d scope q, s.operation = .create d scope ∧ d.build scope = .ok q ∧
        q.Continues p := by
  induction steps generalizing r with
  | nil => exact .inl ⟨p, there, .refl p⟩
  | cons s steps ih =>
      rcases ih there with ⟨q, behindFirst, continues⟩ | ⟨s', later, built⟩
      · rcases (perform_effect r s.fresh s.operation).exists_continues_or_built behindFirst with
          ⟨q', before, first⟩ | ⟨d, scope, created, built⟩
        · exact .inl ⟨q', before, first.trans continues⟩
        · exact .inr ⟨s, List.mem_cons_self, d, scope, q, created, built, continues⟩
      · exact .inr ⟨s', List.mem_cons_of_mem _ later, built⟩

/-- Every predicate that a run leaves was built by a creation of the run. -/
theorem exists_creation {policy : DuplicatePolicy} {run : Nat} {steps : List Step}
    (there : p ∈ ((start policy run).after steps).predicates) :
    ∃ s ∈ steps, ∃ d scope q, s.operation = .create d scope ∧ d.build scope = .ok q ∧
      q.Continues p := by
  rcases exists_continues_or_built_after there with ⟨q, nowhere, -⟩ | built
  · cases nowhere
  · exact built

end Registry

end Hornbook
