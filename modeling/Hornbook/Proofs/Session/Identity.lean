import Hornbook.Proofs.Registry.Identity
import Hornbook.Proofs.Session.Run
import Hornbook.Proofs.Text.Numbered

/-!
# Identities are never aliased

An identity says nothing about the registry that gave it out but the number of its run.
That is enough.  `issued_never_aliased` is about all identities that were ever given out
in a session.  Until its registry is reset, an identity reaches the predicate that it was
given out for, in its own registry, and every other registry refuses it.  After the reset
all registries refuse it.  Two identities are one, and print as one text, exactly when
one registry gave them out for one name and was not reset in between.

The proof forgets how an identity was given out and keeps what was true at that moment
(`Known`).
-/

namespace Hornbook

namespace Registry

variable {r : Registry} {id : PredicateId} {p : Predicate}

/-! ## Good and stale identities -/

/-- An identity reaches a predicate of a name.  It is good for that predicate, and a
version can be added to that predicate and is added to no other. -/
def Reaches (r : Registry) (id : PredicateId) (name : String) : Prop :=
  ∃ p, r.get id = .ok p ∧ p.name = name ∧
    (r.addVersion id).answer = .ok () ∧
    (r.addVersion id).registry.get id = .ok p.addVersion ∧
    ∀ other, other ≠ id → (r.addVersion id).registry.get other = r.get other

/-- An identity is stale.  It is good for no predicate, and no version is added. -/
def Refuses (r : Registry) (id : PredicateId) : Prop :=
  r.get id = .error (.stale id) ∧
    (r.addVersion id).answer = .error (.stale id) ∧ (r.addVersion id).registry = r

theorem get_set_of_ne {other : PredicateId} (good : r.get id = .ok p) (different : other ≠ id) :
    get { r with predicates := r.predicates.set id.index p.addVersion } other = r.get other := by
  obtain ⟨ours, -⟩ := get_eq_ok_iff.mp good
  by_cases sameRun : other.run = r.run
  · have apart : id.index ≠ other.index := by
      intro sameIndex
      refine different ?_
      obtain ⟨run, index⟩ := id
      obtain ⟨run', index'⟩ := other
      rw [PredicateId.mk.injEq]
      exact ⟨sameRun.trans ours.symm, sameIndex.symm⟩
    rw [get, get, List.getElem?_set_ne apart]
  · rw [get, get, if_neg sameRun, if_neg sameRun]

theorem reaches_of_get (good : r.get id = .ok p) : r.Reaches id p.name := by
  obtain ⟨ours, position⟩ := get_eq_ok_iff.mp good
  have bound : id.index < r.predicates.length := (List.getElem?_eq_some_iff.mp position).1
  refine ⟨p, good, rfl, ?_⟩
  rw [addVersion, good]
  refine ⟨rfl, ?_, fun other different => get_set_of_ne good different⟩
  exact get_eq_ok_iff.mpr ⟨ours, List.getElem?_set_self bound⟩

theorem refuses_of_run_ne (other : id.run ≠ r.run) : r.Refuses id := by
  have stale : r.get id = .error (.stale id) := by rw [get, if_neg other]
  refine ⟨stale, ?_⟩
  rw [addVersion, stale]
  exact ⟨rfl, rfl⟩

end Registry

namespace Session

/-! ## What was given out -/

/-- How often the registry of a number was reset. -/
def epoch (number : Nat) (actions : List Action) : Nat := actions.countP (·.resets number)

/-- An identity as it was given out. -/
structure Issue where
  registry : Nat
  /-- How often the registry had been reset. -/
  epoch : Nat
  id : PredicateId
  /-- The name of the predicate that it was given out for. -/
  name : String

/-- At some moment of a session an identity was given out. -/
def Issued (actions : List Action) (i : Issue) : Prop :=
  ∃ past op future outcome, actions = past ++ .ask i.registry op :: future ∧
    i.epoch = epoch i.registry past ∧
    ((empty.after past).step i.registry op).2 = some outcome ∧
    (i.id, i.name) ∈ Exchange.issued ⟨op, outcome⟩

/-- At the end of some actions an identity is good in its registry, for a predicate of
its name, and the registry was not reset since it was given out. -/
def Known (actions : List Action) (i : Issue) : Prop :=
  i.epoch = epoch i.registry actions ∧
    ∃ r p, (empty.after actions).registries[i.registry]? = some r ∧ r.get i.id = .ok p ∧
      p.name = i.name

variable {past future actions : List Action} {i j : Issue} {number : Nat} {r : Registry}

theorem epoch_append (number : Nat) (past future : List Action) :
    epoch number (past ++ future) = epoch number past + epoch number future :=
  List.countP_append

/-- The resets are as many as before exactly when none came after. -/
theorem epoch_append_eq_iff :
    epoch number (past ++ future) = epoch number past ↔ ∀ a ∈ future, a.resets number = false := by
  rw [epoch_append, Nat.add_eq_left, epoch, List.countP_eq_zero]
  simp

/-- Right after it was given out, an identity is known. -/
theorem Issued.known (h : Issued actions i) :
    ∃ past future, actions = past ++ future ∧ Known past i := by
  obtain ⟨past, op, future, outcome, rfl, begun, stepped, mem⟩ := h
  refine ⟨past ++ [.ask i.registry op], future, by simp, ?_, ?_⟩
  · -- a reset gives no identity out
    have noReset : ∀ a ∈ [Action.ask i.registry op], a.resets i.registry = false := by
      intro a ha
      rw [List.mem_singleton.mp ha, ← Bool.not_eq_true, Action.resets_iff]
      rintro ⟨⟩
      cases mem
    rw [begun, epoch_append_eq_iff.mpr noReset]
  · cases there : (empty.after past).registries[i.registry]? with
    | none =>
        rw [step_of_none there] at stepped
        cases stepped
    | some r =>
        rw [step_of_some there] at stepped
        have effect := Registry.perform_effect r (empty.after past).nextRun op
        rw [Option.some.inj stepped] at effect
        obtain ⟨p, good, named⟩ := effect.get_of_issued rfl rfl mem
        refine ⟨outcome.registry, p, ?_, good, named⟩
        rw [after_append]
        show ((empty.after past).step i.registry op).1.registries[i.registry]? = _
        rw [step_of_some there, Option.some.inj stepped]
        exact List.getElem?_set_self (List.getElem?_eq_some_iff.mp there).1

/-! ## What becomes of it -/

/-- As long as its registry is not reset, an identity reaches its predicate. -/
theorem Known.reaches (h : Known past i)
    (there : (empty.after (past ++ future)).registries[i.registry]? = some r)
    (same : epoch i.registry (past ++ future) = i.epoch) : r.Reaches i.id i.name := by
  obtain ⟨begun, r₀, p, before, good, named⟩ := h
  rw [begun, epoch_append_eq_iff] at same
  rw [after_append] at there
  obtain ⟨r', there', grown⟩ := continues_after before same
  rw [there] at there'
  obtain ⟨q, still, continues⟩ := grown.get good
  rw [Option.some.inj there', ← named, ← continues.name]
  exact Registry.reaches_of_get still

/-- All other registries refuse it, and so does its own after a reset. -/
theorem Known.refuses (h : Known past i)
    (there : (empty.after (past ++ future)).registries[number]? = some r)
    (other : ¬ (number = i.registry ∧ epoch number (past ++ future) = i.epoch)) :
    r.Refuses i.id := by
  obtain ⟨begun, r₀, p, before, good, -⟩ := h
  refine Registry.refuses_of_run_ne ?_
  rw [(Registry.get_eq_ok_iff.mp good).1]
  rw [after_append] at there
  refine ((wellNumbered_empty.after past).run_ne_after before there ?_).symm
  rintro ⟨rfl, noReset⟩
  exact other ⟨rfl, (epoch_append_eq_iff.mpr noReset).trans begun.symm⟩

/-- A later identity is the same one exactly when it was given out by the same registry
for the same name, with no reset in between. -/
theorem Known.id_eq_iff (h : Known past i) (h' : Known (past ++ future) j) :
    i.id = j.id ↔ i.registry = j.registry ∧ i.epoch = j.epoch ∧ i.name = j.name := by
  obtain ⟨begun, r, q, there, good, named⟩ := h'
  by_cases own : j.registry = i.registry ∧ epoch j.registry (past ++ future) = i.epoch
  · obtain ⟨sameRegistry, sameEpoch⟩ := own
    rw [sameRegistry] at there sameEpoch begun
    obtain ⟨p, good', named', -⟩ := h.reaches there sameEpoch
    constructor
    · intro same
      rw [same, good] at good'
      rw [← named', ← named, Except.ok.inj good']
      exact ⟨sameRegistry.symm, sameEpoch.symm.trans begun.symm, rfl⟩
    · rintro ⟨-, -, sameName⟩
      obtain ⟨policy, run, steps, rfl⟩ := ownRuns_empty.after _ _ _ there
      refine (Registry.distinctNames_after policy run steps).id_eq good' good ?_
      rw [named', named, sameName]
  · obtain ⟨stale, -⟩ := h.refuses there own
    constructor
    · intro same
      rw [same, good] at stale
      cases stale
    · rintro ⟨sameRegistry, sameEpoch, -⟩
      exact absurd ⟨sameRegistry.symm, begun.symm.trans sameEpoch.symm⟩ own

theorem Issued.id_eq_iff (h : Issued actions i) (h' : Issued actions j) :
    i.id = j.id ↔ i.registry = j.registry ∧ i.epoch = j.epoch ∧ i.name = j.name := by
  obtain ⟨past, future, rfl, known⟩ := h.known
  obtain ⟨past', future', same, known'⟩ := h'.known
  rcases List.append_eq_append_iff.mp same with ⟨between, rfl, -⟩ | ⟨between, rfl, -⟩
  · exact known.id_eq_iff known'
  · rw [eq_comm, known'.id_eq_iff known]
    constructor
    · rintro ⟨sameRegistry, sameEpoch, sameName⟩
      exact ⟨sameRegistry.symm, sameEpoch.symm, sameName.symm⟩
    · rintro ⟨sameRegistry, sameEpoch, sameName⟩
      exact ⟨sameRegistry.symm, sameEpoch.symm, sameName.symm⟩

/-- An identity that was given out in a session reaches its predicate in the registry
that gave it out, until that registry is reset, and is refused in all other cases.  Two
identities are one, and print as one, exactly when they were given out by one registry
between the same two resets for one name. -/
theorem issued_never_aliased (actions : List Action) :
    (∀ i, Issued actions i → ∀ number r, (empty.after actions).registries[number]? = some r →
      (number = i.registry ∧ epoch number actions = i.epoch → r.Reaches i.id i.name) ∧
      (¬ (number = i.registry ∧ epoch number actions = i.epoch) → r.Refuses i.id)) ∧
    (∀ i j, Issued actions i → Issued actions j →
      (i.id = j.id ↔ i.registry = j.registry ∧ i.epoch = j.epoch ∧ i.name = j.name) ∧
      (i.id.text = j.id.text ↔
        i.registry = j.registry ∧ i.epoch = j.epoch ∧ i.name = j.name)) := by
  constructor
  · intro i issued number r there
    obtain ⟨past, future, rfl, known⟩ := issued.known
    constructor
    · rintro ⟨rfl, same⟩
      exact known.reaches there same
    · intro other
      exact known.refuses there other
  · intro i j issued issued'
    rw [PredicateId.text_inj]
    exact ⟨issued.id_eq_iff issued', issued.id_eq_iff issued'⟩

/-- One name in two registries, and again in the first one after a reset. -/
theorem issued_never_aliased_after_reset :
    let actions : List Action := [.addRegistry .reuseIdentical, .addRegistry .reuseIdentical,
      .ask 0 (.createUnary "p"), .ask 0 .reset, .ask 0 (.createUnary "p"),
      .ask 1 (.createUnary "p")]
    let old : Issue := ⟨0, 0, ⟨1, 0⟩, "p"⟩
    let new : Issue := ⟨0, 1, ⟨3, 0⟩, "p"⟩
    Issued actions old ∧ Issued actions new ∧
      ∃ r, (empty.after actions).registries[0]? = some r ∧ r.Refuses old.id ∧
        r.Reaches new.id new.name ∧ old.id ≠ new.id ∧ old.id.text ≠ new.id.text := by
  intro actions old new
  have issuedOld : Issued actions old :=
    ⟨actions.take 2, .createUnary "p", actions.drop 3, _, rfl, rfl, rfl, by decide⟩
  have issuedNew : Issued actions new :=
    ⟨actions.take 4, .createUnary "p", actions.drop 5, _, rfl, rfl, rfl, by decide⟩
  obtain ⟨fates, same⟩ := issued_never_aliased actions
  obtain ⟨sameId, sameText⟩ := same old new issuedOld issuedNew
  have apart : ¬ (0 = 0 ∧ epoch 0 actions = old.epoch) := by decide
  have different : ¬ (0 = 0 ∧ old.epoch = new.epoch ∧ old.name = new.name) := by decide
  refine ⟨issuedOld, issuedNew, _, rfl, ?_, ?_, ?_, ?_⟩
  · exact (fates old issuedOld 0 _ rfl).2 apart
  · exact (fates new issuedNew 0 _ rfl).1 ⟨rfl, rfl⟩
  · rw [Ne, sameId]
    exact different
  · rw [Ne, sameText]
    exact different

end Session

end Hornbook
