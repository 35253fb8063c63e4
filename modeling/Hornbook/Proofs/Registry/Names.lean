import Hornbook.Proofs.Registry.Run
import Mathlib.Data.List.Nodup

/-!
# Names and identities

A registry is read in three ways: by identity (`get`), by name (`find?`, and through it
`lookup` and `predicate`) and in order (`entries`).  Identity and order agree by
definition (`mem_entries_iff`).  A name agrees with them because no operation makes a
second predicate under a taken name (`Effect.distinctNames`).  So a name finds exactly
the identity of the predicate that has it (`DistinctNames.find?_eq_some_iff`).
-/

namespace Hornbook.Registry

variable {r r' : Registry} {fresh : Nat} {op : Operation} {answer : Except Fault Answer}
  {id id' : PredicateId} {p q : Predicate} {name : String}

/-! ## Identities -/

theorem get_idAt {i : Nat} : r.get (r.idAt i) = .ok p ↔ r.predicates[i]? = some p := by
  simp [get_eq_ok_iff, idAt]

theorem idAt_index (h : r.get id = .ok p) : r.idAt id.index = id := by
  obtain ⟨hrun, -⟩ := get_eq_ok_iff.mp h
  rw [idAt, ← hrun]

theorem getElem?_entries (r : Registry) (i : Nat) :
    r.entries[i]? = r.predicates[i]?.map fun p => (r.idAt i, p) := by
  rw [entries, List.getElem?_mapIdx]

/-- A good identity stands with its predicate at the position that it names. -/
theorem entries_of_get (h : r.get id = .ok p) : r.entries[id.index]? = some (id, p) := by
  rw [getElem?_entries, (get_eq_ok_iff.mp h).2, Option.map_some, idAt_index h]

/-- The entries are the good identities, each with its predicate. -/
theorem mem_entries_iff : (id, p) ∈ r.entries ↔ r.get id = .ok p := by
  constructor
  · intro mem
    obtain ⟨i, hi⟩ := List.mem_iff_getElem?.mp mem
    rw [getElem?_entries] at hi
    obtain ⟨q, hq, same⟩ := Option.map_eq_some_iff.mp hi
    obtain ⟨rfl, rfl⟩ := Prod.mk.inj same
    exact get_idAt.mpr hq
  · intro h
    exact List.mem_of_getElem? (entries_of_get h)

/-! ## Names -/

theorem find?_eq_some (h : r.find? name = some (id, p)) : r.get id = .ok p ∧ p.name = name := by
  refine ⟨mem_entries_iff.mp (List.mem_of_find?_eq_some h), ?_⟩
  simpa using List.find?_some h

/-- No two predicates have one name. -/
def DistinctNames (r : Registry) : Prop := (r.predicates.map Predicate.name).Nodup

theorem getElem?_names {i : Nat} (h : r.predicates[i]? = some p) :
    (r.predicates.map Predicate.name)[i]? = some p.name := by
  rw [List.getElem?_map, h, Option.map_some]

/-- With distinct names, a name has one position. -/
theorem DistinctNames.position_eq (distinct : r.DistinctNames) {i j : Nat}
    (hi : (r.predicates.map Predicate.name)[i]? = some name)
    (hj : (r.predicates.map Predicate.name)[j]? = some name) : i = j := by
  obtain ⟨bound, -⟩ := List.getElem?_eq_some_iff.mp hi
  exact (List.getElem?_inj bound distinct).mp (hi.trans hj.symm)

/-- With distinct names, a name has one identity. -/
theorem DistinctNames.id_eq (distinct : r.DistinctNames) (hp : r.get id = .ok p)
    (hq : r.get id' = .ok q) (same : p.name = q.name) : id = id' := by
  have here := getElem?_names (get_eq_ok_iff.mp hp).2
  have there := getElem?_names (get_eq_ok_iff.mp hq).2
  have position : id.index = id'.index := distinct.position_eq here (same ▸ there)
  rw [← idAt_index hp, ← idAt_index hq, position]

/-- With distinct names, a name finds the identity of the predicate that has it. -/
theorem DistinctNames.find?_eq_some_iff (distinct : r.DistinctNames) :
    r.find? name = some (id, p) ↔ r.get id = .ok p ∧ p.name = name := by
  constructor
  · exact find?_eq_some
  · rintro ⟨hp, rfl⟩
    cases found : r.find? p.name with
    | none =>
        exact absurd rfl (find?_eq_none_iff.mp found p (mem_of_get hp))
    | some entry =>
        obtain ⟨hq, same⟩ := find?_eq_some found
        have hid : id = entry.1 := distinct.id_eq hp hq same.symm
        rw [← hid, hp] at hq
        rw [hid, Except.ok.inj hq]

/-- With distinct names, looking up the name of a predicate gives its identity. -/
theorem DistinctNames.lookup_eq (distinct : r.DistinctNames) (h : r.get id = .ok p) :
    (r.lookup p.name).answer = .ok id := by
  simp only [lookup, distinct.find?_eq_some_iff.mpr ⟨h, rfl⟩]

/-! ## Names stay distinct -/

theorem distinctNames_start (policy : DuplicatePolicy) (run : Nat) :
    (start policy run).DistinctNames := List.nodup_nil

theorem map_name_set {i : Nat} (h : r.predicates[i]? = some p) :
    (r.predicates.set i p.addVersion).map Predicate.name = r.predicates.map Predicate.name := by
  obtain ⟨hi, hp⟩ := List.getElem?_eq_some_iff.mp h
  have bound : i < (r.predicates.map Predicate.name).length := by rwa [List.length_map]
  have hn : (r.predicates.map Predicate.name)[i] = p.name := by rw [List.getElem_map, hp]
  rw [List.map_set, Predicate.name_addVersion, ← hn]
  exact List.set_getElem_self _

/-- No effect makes two predicates of one name. -/
theorem Effect.distinctNames (h : Effect r fresh op answer r') (distinct : r.DistinctNames) :
    r'.DistinctNames := by
  cases h with
  | reused | duplicate | unfit | versionRefused | read => exact distinct
  | reset => exact distinctNames_start _ _
  | created free built =>
      have new := find?_eq_none_iff.mp free
      rw [← Declaration.name_of_build built] at new
      rw [DistinctNames, List.map_append, List.nodup_append]
      refine ⟨distinct, List.nodup_singleton _, ?_⟩
      intro n hn m hm
      obtain ⟨q, hq, rfl⟩ := List.mem_map.mp hn
      rw [List.map_singleton, List.mem_singleton] at hm
      rw [hm]
      exact new q hq
  | versionAdded got =>
      rw [DistinctNames, map_name_set (get_eq_ok_iff.mp got).2]
      exact distinct

/-- Names are distinct in every registry that a run leads to. -/
theorem distinctNames_after (policy : DuplicatePolicy) (run : Nat) (steps : List Step) :
    ((start policy run).after steps).DistinctNames :=
  after_of_effect Effect.distinctNames steps (distinctNames_start policy run)

end Hornbook.Registry
