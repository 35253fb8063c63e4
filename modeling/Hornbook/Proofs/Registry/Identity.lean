import Hornbook.Proofs.Registry.Growth
import Hornbook.Proofs.Registry.History

/-!
# Identities are stable

An identity is given out by a creation, by a lookup or by the list of all entries.  From
then on, and until its registry is reset, it means the predicate for which it was given
out.  `StillKnows` says in full what that is, and `stillKnows_of_issued` says that it
holds after every run without a reset, whatever else is done or fails in between.
-/

namespace Hornbook.Registry

variable {r r' : Registry} {fresh : Nat} {op : Operation} {answer : Except Fault Answer}
  {x : Exchange} {id : PredicateId} {p q : Predicate} {name : String}

/-! ## What is given out is good -/

/-- A mapped answer is a list of entries only if the map makes one. -/
theorem map_ne_entries {α : Type} {e : Except Fault α} {f : α → Answer}
    {entries : List (PredicateId × Predicate)} (h : ∀ a, f a ≠ .entries entries) :
    e.map f ≠ .ok (.entries entries) := by
  intro same
  cases e with
  | error fault => cases same
  | ok a => exact h a (Except.ok.inj same)

/-- Every list of entries that is answered lists the good identities. -/
theorem mem_entries_of_answer {entries : List (PredicateId × Predicate)}
    (h : (r.perform fresh op).answer = .ok (.entries entries))
    (good : (r.perform fresh op).registry.get id = .ok p) : (id, p) ∈ entries := by
  cases op with
  | entries =>
      cases h
      exact mem_entries_iff.mpr good
  | declarations | size | policy | reset => cases h
  | _ => exact absurd h (map_ne_entries fun _ => nofun)

/-- The identity of a new predicate is good for it. -/
theorem get_append (r : Registry) (p : Predicate) :
    get { r with predicates := r.predicates ++ [p] } (r.idAt r.size) = .ok p := by
  refine get_eq_ok_iff.mpr ⟨rfl, ?_⟩
  show (r.predicates ++ [p])[r.predicates.length]? = some p
  rw [List.getElem?_append_right (Nat.le_refl _), Nat.sub_self, List.getElem?_cons_zero]

/-- An identity that is given out is good for a predicate of the name. -/
theorem Effect.get_of_issued (effect : Effect r fresh op answer r') (hop : x.operation = op)
    (hanswer : x.outcome.answer = answer) (issued : (id, name) ∈ x.issued) :
    ∃ p, r'.get id = .ok p ∧ p.name = name := by
  cases effect with
  | @reused d scope id' p found _ _ =>
      simp only [Exchange.issued, hop, hanswer, List.mem_singleton, Prod.mk.injEq] at issued
      obtain ⟨rfl, rfl⟩ := issued
      exact ⟨p, find?_eq_some found⟩
  | duplicate | unfit => simp [Exchange.issued, hop, hanswer] at issued
  | @created d scope p free built =>
      simp only [Exchange.issued, hop, hanswer, List.mem_singleton, Prod.mk.injEq] at issued
      obtain ⟨rfl, rfl⟩ := issued
      exact ⟨p, get_append r p, Declaration.name_of_build built⟩
  | versionAdded | versionRefused | reset => simp [Exchange.issued, hop] at issued
  | read reads =>
      cases op with
      | lookup n =>
          cases found : r.find? n with
          | none =>
              have refused : x.outcome.answer = .error (.notFound n) := by
                rw [hanswer]
                simp [perform, lookup, found, Outcome.map, Except.map]
              simp [Exchange.issued, hop, refused] at issued
          | some entry =>
              have found' : x.outcome.answer = .ok (.id entry.1) := by
                rw [hanswer]
                simp [perform, lookup, found, Outcome.map, Except.map]
              simp only [Exchange.issued, hop, found', List.mem_singleton, Prod.mk.injEq] at issued
              obtain ⟨rfl, rfl⟩ := issued
              exact ⟨entry.2, find?_eq_some found⟩
      | entries =>
          have listed : x.outcome.answer = .ok (.entries r.entries) := hanswer
          simp only [Exchange.issued, hop, listed] at issued
          obtain ⟨entry, mem, same⟩ := List.mem_map.mp issued
          obtain ⟨rfl, rfl⟩ := Prod.mk.inj same
          exact ⟨entry.2, mem_entries_iff.mp mem, rfl⟩
      | create | addVersion | reset => exact False.elim reads
      | _ => simp [Exchange.issued, hop] at issued

/-! ## Stability -/

/-- All that an identity `id` means in a registry `r` with the transcript `t`.  It was
given out for `p`, and `q` is what `p` is now. -/
structure StillKnows (r : Registry) (t : Transcript) (id : PredicateId) (p q : Predicate) :
    Prop where
  /-- The identity is good. -/
  get : r.get id = .ok q
  /-- Nothing but the number of versions has changed. -/
  continues : p.Continues q
  /-- The classification is what it was. -/
  classification : q.classification = p.classification
  /-- The versions that were there have the symbols that they had. -/
  symbolAt : ∀ i ≤ p.latest, ∃ f, p.symbolAt i = .ok f ∧ q.symbolAt i = .ok f
  /-- The name finds the identity. -/
  lookup : (r.lookup p.name).answer = .ok id
  /-- The index counts the names that were created before. -/
  index : id.index = (t.createdBefore p.name).length
  /-- The list of all entries has the identity at its index. -/
  entry : r.entries[id.index]? = some (id, q)
  /-- The newest version counts the versions that were added since the creation. -/
  latest : q.latest = (t.sinceCreation p.name).versionsAdded id

/-- What an identity means, read off a registry that agrees with its transcript. -/
theorem StillKnows.of_continues {t : Transcript} (distinct : r.DistinctNames) (agrees : r.Agrees t)
    (good : r.get id = .ok q) (continues : p.Continues q) : r.StillKnows t id p q := by
  have position : r.predicates[id.index]? = some q := (get_eq_ok_iff.mp good).2
  refine ⟨good, continues, continues.classification, ?_, ?_, ?_, entries_of_get good, ?_⟩
  · intro i hi
    refine ⟨_, Predicate.symbolAt_of_le hi, ?_⟩
    rw [continues.symbolAt hi, Predicate.symbolAt_of_le hi]
  · rw [← continues.name]
    exact distinct.lookup_eq good
  · rw [← continues.name]
    exact agrees.index_eq distinct position
  · rw [← continues.name, agrees.versions position, idAt_index good]

/-- An identity that a step gives out means the predicate of that moment in every later
state of the run. -/
theorem stillKnows_of_issued (policy : DuplicatePolicy) (run : Nat) (past : List Step) (s : Step)
    (future : List Step) {id : PredicateId} {name : String}
    (issued : (id, name) ∈ (((start policy run).after past).exchange s).issued)
    (noReset : ∀ s' ∈ future, s'.operation ≠ .reset) :
    ∃ p q, p.name = name ∧
      ((start policy run).after (past ++ [s])).get id = .ok p ∧
      (∀ entries, (((start policy run).after past).exchange s).outcome.answer
        = .ok (.entries entries) → (id, p) ∈ entries) ∧
      StillKnows ((start policy run).after (past ++ s :: future))
        ((start policy run).transcript (past ++ s :: future)) id p q := by
  have effect := perform_effect ((start policy run).after past) s.fresh s.operation
  obtain ⟨p, good, named⟩ := effect.get_of_issued rfl rfl issued
  have there : ((start policy run).after (past ++ [s])).get id = .ok p := by
    rw [after_append]
    exact good
  have grown := continues_after ((start policy run).after (past ++ [s])) noReset
  rw [← after_append, List.append_assoc, List.singleton_append] at grown
  obtain ⟨q, still, continues⟩ := grown.get there
  refine ⟨p, q, named, there, fun entries answered => mem_entries_of_answer answered good, ?_⟩
  exact .of_continues (distinctNames_after policy run _) (agrees_after policy run _) still continues

/-- A creation hands a predicate back that has got a version, and more is done and fails
behind it. -/
theorem stillKnows_of_reused :
    let past : List Step :=
      [⟨.createUnary "q", 2⟩, ⟨.createUnary "p", 2⟩, ⟨.addVersion ⟨1, 1⟩, 2⟩]
    let s : Step := ⟨.createUnary "p", 2⟩
    let future : List Step := [⟨.addVersion ⟨1, 1⟩, 2⟩, ⟨.addVersion ⟨7, 1⟩, 2⟩, ⟨.lookup "r", 2⟩]
    (⟨1, 1⟩, "p") ∈ (((start .reuseIdentical 1).after past).exchange s).issued ∧
      (∀ s' ∈ future, s'.operation ≠ .reset) ∧
      ∃ p q, p.name = "p" ∧
        ((start .reuseIdentical 1).after (past ++ [s])).get ⟨1, 1⟩ = .ok p ∧
        (∀ entries, (((start .reuseIdentical 1).after past).exchange s).outcome.answer
          = .ok (.entries entries) → (⟨1, 1⟩, p) ∈ entries) ∧
        StillKnows ((start .reuseIdentical 1).after (past ++ s :: future))
          ((start .reuseIdentical 1).transcript (past ++ s :: future)) ⟨1, 1⟩ p q := by
  intro past s future
  have issued : (⟨1, 1⟩, "p") ∈ (((start .reuseIdentical 1).after past).exchange s).issued := by
    decide
  have noReset : ∀ s' ∈ future, s'.operation ≠ .reset := by simp [future]
  exact ⟨issued, noReset, stillKnows_of_issued _ _ past s future issued noReset⟩

end Hornbook.Registry
