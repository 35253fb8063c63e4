import Hornbook.Proofs.Registry.History

/-!
# Three views of one history

A registry is read by name (`lookup` and `predicate`), by identity (`get`) and in order
(`entries`).  Nothing but its transcript is needed to say what the three should show.  The
names are those of the successful creations since the last reset, each where it was first
created.  `views_match_history` says that the views show this in every state of every run,
so they never disagree with each other either.
-/

namespace Hornbook.Registry

variable {r : Registry} {t : Transcript} {id : PredicateId} {p : Predicate} {name : String}

/-! ## By name -/

/-- A name leads to one predicate, with and without a detour over its identity. -/
structure Finds (r : Registry) (name : String) (id : PredicateId) (p : Predicate) : Prop where
  lookup : (r.lookup name).answer = .ok id
  predicate : r.predicate name = .ok p
  get : r.get id = .ok p
  name : p.name = name

/-- A name leads nowhere, and both refusals say which name it was. -/
structure Misses (r : Registry) (name : String) : Prop where
  lookup : (r.lookup name).answer = .error (.notFound name)
  predicate : r.predicate name = .error (.notFound name)

theorem finds_of_find? (found : r.find? name = some (id, p)) : r.Finds name id p := by
  obtain ⟨good, named⟩ := find?_eq_some found
  refine ⟨?_, ?_, good, named⟩
  · simp only [Registry.lookup, found]
  · simp only [Registry.predicate, found]

theorem misses_of_find? (free : r.find? name = none) : r.Misses name := by
  constructor
  · simp only [Registry.lookup, free]
  · simp only [Registry.predicate, free]

namespace Agrees

theorem finds (h : r.Agrees t) (mem : name ∈ t.created) : ∃ id p, r.Finds name id p := by
  cases found : r.find? name with
  | none => exact absurd mem (h.find?_eq_none_iff_notMem.mp found)
  | some entry => exact ⟨entry.1, entry.2, finds_of_find? found⟩

theorem misses (h : r.Agrees t) (notMem : name ∉ t.created) : r.Misses name :=
  misses_of_find? (h.find?_eq_none_iff_notMem.mpr notMem)

end Agrees

/-! ## In order -/

theorem map_snd_entries (r : Registry) : r.entries.map Prod.snd = r.predicates := by
  apply List.ext_getElem?
  intro i
  rw [List.getElem?_map, getElem?_entries, Option.map_map]
  exact Option.map_id'

theorem map_fst_entries (r : Registry) :
    r.entries.map Prod.fst = (List.range r.size).map r.idAt := by
  apply List.ext_getElem?
  intro i
  rw [List.getElem?_map, getElem?_entries, List.getElem?_map, size]
  by_cases inside : i < r.predicates.length
  · rw [List.getElem?_eq_getElem inside, List.getElem?_range inside]
    rfl
  · have outside : r.predicates.length ≤ i := Nat.le_of_not_lt inside
    rw [List.getElem?_eq_none outside, List.getElem?_eq_none (by rwa [List.length_range])]
    rfl

theorem map_name_entries (r : Registry) :
    (r.entries.map fun entry => entry.2.name) = r.predicates.map Predicate.name := by
  rw [← map_snd_entries r, List.map_map]
  rfl

theorem Agrees.size_eq_zero_iff (h : r.Agrees t) : r.size = 0 ↔ t.created = [] := by
  rw [size, List.length_eq_zero_iff, ← List.map_eq_nil_iff (f := Predicate.name), h.names]
  cases t.created with
  | nil => simp
  | cons name rest => simp [List.eraseDups_cons]

/-- In every state of every run, a name leads to a predicate exactly when a creation of the
name succeeded since the last reset.  The entries are the predicates of these names in the
order of their first creations.  They have consecutive identities, each good for the
predicate that it stands with. -/
theorem views_match_history (policy : DuplicatePolicy) (run : Nat) (steps : List Step) :
    let r := (start policy run).after steps
    let t := (start policy run).transcript steps
    (∀ name ∈ t.created, ∃ id p, r.Finds name id p) ∧
      (∀ name, name ∉ t.created → r.Misses name) ∧
      (r.entries.map fun entry => entry.2.name) = t.created.eraseDups ∧
      (r.entries.map fun entry => entry.2.name).Nodup ∧
      (r.entries.map Prod.fst) = (List.range r.size).map (fun index => ⟨r.run, index⟩) ∧
      (∀ id p, (id, p) ∈ r.entries → r.get id = .ok p) ∧
      (r.size = 0 ↔ t.created = []) := by
  intro r t
  have agrees : r.Agrees t := agrees_after policy run steps
  have distinct : r.DistinctNames := distinctNames_after policy run steps
  refine ⟨fun name mem => agrees.finds mem, fun name notMem => agrees.misses notMem, ?_, ?_,
    map_fst_entries r, fun id p mem => mem_entries_iff.mp mem, agrees.size_eq_zero_iff⟩
  · rw [map_name_entries, agrees.names]
  · rw [map_name_entries]
    exact distinct

/-- A name from before a reset, one that is created twice, and a version in between. -/
theorem views_match_history_after_reset :
    let steps : List Step :=
      [⟨.createUnary "old", 2⟩, ⟨.reset, 2⟩, ⟨.createUnary "q", 3⟩, ⟨.createUnary "p", 3⟩,
        ⟨.addVersion ⟨2, 0⟩, 3⟩, ⟨.createUnary "q", 3⟩, ⟨.get ⟨1, 0⟩, 3⟩]
    let r := (start .reuseIdentical 1).after steps
    let t := (start .reuseIdentical 1).transcript steps
    t.created = ["q", "p", "q"] ∧ (∃ id p, r.Finds "q" id p) ∧ r.Misses "old" ∧
      (r.entries.map fun entry => entry.2.name) = ["q", "p"] ∧ r.size ≠ 0 := by
  intro steps r t
  have created : t.created = ["q", "p", "q"] := by decide
  obtain ⟨finds, misses, names, -, -, -, empty⟩ := views_match_history .reuseIdentical 1 steps
  refine ⟨created, finds "q" ?_, misses "old" ?_, names, ?_⟩
  · show "q" ∈ t.created
    rw [created]
    exact List.mem_cons_self
  · show "old" ∉ t.created
    rw [created]
    decide
  · show ¬ r.size = 0
    rw [empty]
    show t.created ≠ []
    rw [created]
    exact List.cons_ne_nil _ _

end Hornbook.Registry
