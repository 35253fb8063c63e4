import Hornbook.Proofs.Registry.Names

/-!
# A registry and its transcript

What a registry holds can be told from the transcript of its run.  The names of its
predicates are the names of the successful creations since the last reset, each at its
first creation.  The newest version of a predicate is the number of versions that were
added since its creation.  `Agrees` says both, and `agrees_after` says that it holds in
every run.  Failed operations and creations that hand back a predicate stand in the
transcript as well.  They change neither side.
-/

namespace Hornbook

/-! ## First occurrences -/

section FirstOccurrences

variable {α : Type} [DecidableEq α] {l : List α} {a : α}

theorem eraseDups_concat_of_mem (h : a ∈ l) : (l ++ [a]).eraseDups = l.eraseDups := by
  rw [List.eraseDups_append, List.cons_removeAll]
  simp [h]

theorem eraseDups_concat_of_notMem (h : a ∉ l) : (l ++ [a]).eraseDups = l.eraseDups ++ [a] := by
  rw [List.eraseDups_append, List.cons_removeAll]
  simp [h, List.eraseDups_cons]

/-- Among the first occurrences, an element comes right behind those in front of it. -/
theorem eraseDups_eq_of_mem (h : a ∈ l) :
    ∃ rest, l.eraseDups = (l.takeWhile (· ≠ a)).eraseDups ++ a :: rest := by
  have notMem : a ∉ l.takeWhile (· ≠ a) := by
    intro mem
    simpa using List.mem_takeWhile_imp mem
  obtain ⟨b, rest, split⟩ : ∃ b rest, l.dropWhile (· ≠ a) = b :: rest := by
    cases dropped : l.dropWhile (· ≠ a) with
    | nil =>
        rw [List.dropWhile_eq_nil_iff] at dropped
        simpa using dropped a h
    | cons b rest => exact ⟨b, rest, rfl⟩
  have same : b = a := by
    have head := List.head?_dropWhile_not (· ≠ a) l
    rw [split] at head
    simpa using head
  subst same
  refine ⟨((rest.removeAll (l.takeWhile (· ≠ b))).filter fun c => !c == b).eraseDups, ?_⟩
  conv_lhs => rw [← List.takeWhile_append_dropWhile (p := (· ≠ b)) (l := l), split]
  have absent : (l.takeWhile (· ≠ b)).contains b = false := by simpa using notMem
  rw [List.eraseDups_append, List.cons_removeAll, if_pos absent, List.eraseDups_cons]

end FirstOccurrences

/-! ## Exchanges that make or version nothing -/

namespace Exchange

variable {x : Exchange}

theorem silent_of_error {fault : Fault} (h : x.outcome.answer = .error fault) :
    x.created? = none ∧ x.versioned? = none := by
  rw [created?, versioned?, h]
  cases x.operation with
  | _ => exact ⟨rfl, rfl⟩

theorem silent_of_reads (h : x.operation.Reads) : x.created? = none ∧ x.versioned? = none := by
  obtain ⟨op, outcome⟩ := x
  cases op with
  | create | addVersion => exact False.elim h
  | _ => exact ⟨rfl, rfl⟩

end Exchange

namespace Registry

variable {r r' : Registry} {fresh : Nat} {op : Operation} {answer : Except Fault Answer}
  {t : Transcript} {x : Exchange} {p : Predicate} {name : String} {i : Nat}

/-- A registry is what a transcript says. -/
structure Agrees (r : Registry) (t : Transcript) : Prop where
  /-- The names are those of the creations, each at its first. -/
  names : r.predicates.map Predicate.name = t.created.eraseDups
  /-- The newest version of a predicate counts the versions added since its creation. -/
  versions : ∀ {i : Nat} {p : Predicate}, r.predicates[i]? = some p →
    p.latest = (t.sinceCreation p.name).versionsAdded (r.idAt i)

/-- At the start of a run nothing was created. -/
theorem agrees_start (policy : DuplicatePolicy) (run : Nat) (none : t.created = []) :
    (start policy run).Agrees t where
  names := by rw [none, start, List.map_nil, List.eraseDups_nil]
  versions h := by
    rw [start, List.getElem?_nil] at h
    cases h

namespace Agrees

theorem mem_created_iff (h : r.Agrees t) :
    name ∈ t.created ↔ ∃ p ∈ r.predicates, p.name = name := by
  rw [← List.mem_eraseDups, ← h.names, List.mem_map]

theorem find?_eq_none_iff_notMem (h : r.Agrees t) : r.find? name = none ↔ name ∉ t.created := by
  rw [find?_eq_none_iff, h.mem_created_iff]
  simp

theorem mem_created (h : r.Agrees t) (hp : r.predicates[i]? = some p) : p.name ∈ t.created :=
  h.mem_created_iff.mpr ⟨p, List.mem_of_getElem? hp, rfl⟩

/-- A predicate stands right behind those whose names were created before its own. -/
theorem index_eq (h : r.Agrees t) (distinct : r.DistinctNames) (hp : r.predicates[i]? = some p) :
    i = (t.createdBefore p.name).length := by
  obtain ⟨rest, split⟩ := eraseDups_eq_of_mem (h.mem_created hp)
  have there :
      (r.predicates.map Predicate.name)[(t.createdBefore p.name).length]? = some p.name := by
    rw [h.names, split, Transcript.createdBefore, List.getElem?_append_right (Nat.le_refl _),
      Nat.sub_self, List.getElem?_cons_zero]
  exact distinct.position_eq (getElem?_names hp) there

/-- A predicate that was there before counts one more exchange. -/
theorem versions_concat (h : r.Agrees t) (noReset : x.operation ≠ .reset)
    (hp : r.predicates[i]? = some p) :
    (Transcript.sinceCreation (t ++ [x]) p.name).versionsAdded (r.idAt i)
      = p.latest + if x.versioned? = some (r.idAt i) then 1 else 0 := by
  rw [Transcript.sinceCreation_concat noReset (h.mem_created hp), Transcript.versionsAdded_concat,
    ← h.versions hp]

/-- An exchange that makes no predicate and adds no version is no news. -/
theorem concat_of_silent (h : r.Agrees t) (noReset : x.operation ≠ .reset)
    (known : ∀ name, x.created? = some name → name ∈ t.created) (silent : x.versioned? = none) :
    r.Agrees (t ++ [x]) where
  names := by
    rw [h.names, Transcript.created_concat noReset]
    cases made : x.created? with
    | none => rw [Option.toList_none, List.append_nil]
    | some name => exact (eraseDups_concat_of_mem (known name made)).symm
  versions hp := by
    rw [h.versions_concat noReset hp, silent, if_neg (by simp), Nat.add_zero]

/-- The first creation of a name puts it behind the others, with no version but the
first. -/
theorem concat_of_created (h : r.Agrees t) (noReset : x.operation ≠ .reset)
    (made : x.created? = some p.name) (free : r.find? p.name = none) (first : p.latest = 0)
    (silent : x.versioned? = none) :
    Agrees { r with predicates := r.predicates ++ [p] } (t ++ [x]) where
  names := by
    have new : p.name ∉ t.created := h.find?_eq_none_iff_notMem.mp free
    rw [Transcript.created_concat noReset, made, Option.toList_some,
      eraseDups_concat_of_notMem new, List.map_append, h.names, List.map_singleton]
  versions {i q} hq := by
    rw [List.getElem?_append] at hq
    split at hq
    next old =>
      show q.latest = (Transcript.sinceCreation (t ++ [x]) q.name).versionsAdded (r.idAt i)
      rw [h.versions_concat noReset hq, silent, if_neg (by simp), Nat.add_zero]
    next beyond =>
      have new : p.name ∉ t.created := h.find?_eq_none_iff_notMem.mp free
      have same : p = q := by
        rw [List.getElem?_singleton] at hq
        split at hq
        · exact Option.some.inj hq
        · cases hq
      rw [← same, Transcript.sinceCreation_concat_created noReset new made, first]
      simp [Transcript.versionsAdded, silent]

/-- An added version counts for its own predicate and for no other. -/
theorem concat_of_versionAdded (h : r.Agrees t) (noReset : x.operation ≠ .reset) {id : PredicateId}
    (got : r.get id = .ok p) (silent : x.created? = none) (added : x.versioned? = some id) :
    Agrees { r with predicates := r.predicates.set id.index p.addVersion } (t ++ [x]) where
  names := by
    rw [map_name_set (get_eq_ok_iff.mp got).2, h.names, Transcript.created_concat noReset, silent,
      Option.toList_none, List.append_nil]
  versions {i q} hq := by
    show q.latest = (Transcript.sinceCreation (t ++ [x]) q.name).versionsAdded (r.idAt i)
    have hp : r.predicates[id.index]? = some p := (get_eq_ok_iff.mp got).2
    rw [List.getElem?_set] at hq
    split at hq
    next own =>
      split at hq
      next bound =>
        subst own
        have same : p.addVersion = q := Option.some.inj hq
        rw [← same, Predicate.name_addVersion, h.versions_concat noReset hp, added,
          idAt_index got, if_pos rfl, Predicate.latest_addVersion]
      next => cases hq
    next other =>
      have foreign : some id ≠ some (r.idAt i) := by
        intro same
        rw [Option.some.inj same, idAt] at other
        exact other rfl
      rw [h.versions_concat noReset hq, added, if_neg foreign, Nat.add_zero]

end Agrees

/-- What an effect does to the registry is what its exchange says. -/
theorem Effect.agrees (effect : Effect r fresh op answer r') (h : r.Agrees t)
    (hop : x.operation = op) (hanswer : x.outcome.answer = answer) : r'.Agrees (t ++ [x]) := by
  cases effect with
  | @reused d scope id p found _ _ =>
      refine h.concat_of_silent (by simp [hop]) ?_ (by simp [Exchange.versioned?, hop])
      intro name made
      have same : d.name = name := by simpa [Exchange.created?, hop, hanswer] using made
      subst same
      rw [h.mem_created_iff]
      obtain ⟨got, named⟩ := find?_eq_some found
      exact ⟨p, mem_of_get got, named⟩
  | duplicate | unfit | versionRefused =>
      obtain ⟨nothingMade, silent⟩ := Exchange.silent_of_error hanswer
      refine h.concat_of_silent (by simp [hop]) ?_ silent
      simp [nothingMade]
  | created free built =>
      rw [← Declaration.name_of_build built] at free
      refine h.concat_of_created (by simp [hop]) ?_ free (Declaration.latest_of_build built) ?_
      · simp [Exchange.created?, hop, hanswer, Declaration.name_of_build built]
      · simp [Exchange.versioned?, hop]
  | versionAdded got =>
      refine h.concat_of_versionAdded (by simp [hop]) got ?_ ?_
      · simp [Exchange.created?, hop]
      · simp [Exchange.versioned?, hop, hanswer]
  | reset => exact agrees_start _ _ (Transcript.created_concat_reset hop)
  | read reads =>
      rw [← hop] at reads
      obtain ⟨nothingMade, silent⟩ := Exchange.silent_of_reads reads
      refine h.concat_of_silent ?_ ?_ silent
      · intro reset
        rw [reset] at reads
        exact reads
      · simp [nothingMade]

theorem Agrees.after (h : r.Agrees t) (steps : List Step) :
    (r.after steps).Agrees (t ++ r.transcript steps) := by
  induction steps generalizing r t with
  | nil => rwa [transcript, List.append_nil]
  | cons s steps ih =>
      have next := (perform_effect r s.fresh s.operation).agrees h
        (x := r.exchange s) rfl rfl
      have rest := ih next
      rwa [List.append_assoc, List.singleton_append] at rest

/-- After a run, a registry is what the transcript of the run says. -/
theorem agrees_after (policy : DuplicatePolicy) (run : Nat) (steps : List Step) :
    ((start policy run).after steps).Agrees ((start policy run).transcript steps) := by
  have initial : (start policy run).Agrees [] := agrees_start policy run rfl
  exact initial.after steps

end Registry

end Hornbook
