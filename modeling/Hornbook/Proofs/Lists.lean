import Mathlib.Data.List.Forall2

/-!
# Lists taken element by element

What reads back each element of a list reads back the list.  Lists are related element by
element exactly when their images are equal, if images are what the relation compares.

A machine that takes the elements of a list one by one takes the first, or some of them, and
then the others.

What a key finds in an association list depends on nothing but the keys there that it is equal
to.
-/

namespace Hornbook

variable {α β γ : Type}

theorem mapM_map_eq_some {write : α → β} {read : β → Option γ} {f : α → γ} {as : List α}
    (reads : ∀ a ∈ as, read (write a) = some (f a)) :
    (as.map write).mapM read = some (as.map f) := by
  induction as with
  | nil => rfl
  | cons a as ih =>
      obtain ⟨first, rest⟩ := List.forall_mem_cons.mp reads
      simp [first, ih rest]

/-- Reading undoes writing in a list if it does so everywhere. -/
theorem mapM_map_eq_self {write : α → β} {read : β → Option α}
    (undoes : ∀ a, read (write a) = some a) (as : List α) :
    (as.map write).mapM read = some as := by
  simpa using mapM_map_eq_some (f := id) fun a _ => undoes a

theorem mapM_eq_some_iff {read : α → Option β} {as : List α} {bs : List β} :
    as.mapM read = some bs ↔ List.Forall₂ (fun a b => read a = some b) as bs := by
  induction as generalizing bs with
  | nil => simp [eq_comm]
  | cons a as ih =>
      simp only [List.mapM_cons, Option.bind_eq_bind, Option.bind_eq_some_iff, Option.pure_def,
        Option.some.injEq, List.forall₂_cons_left_iff]
      constructor
      · rintro ⟨b, first, rest, reads, rfl⟩
        exact ⟨b, rest, first, ih.mp reads, rfl⟩
      · rintro ⟨b, rest, first, reads, rfl⟩
        exact ⟨b, first, rest, ih.mpr reads, rfl⟩

theorem mapM_eq_none_iff {read : α → Option β} {as : List α} :
    as.mapM read = none ↔ ∃ a ∈ as, read a = none := by
  induction as with
  | nil => simp
  | cons a as ih =>
      cases first : read a with
      | none => simp [first]
      | some b => cases rest : as.mapM read <;> simp [first, rest, ← ih]

theorem foldlM_cons_eq_some_iff {step : β → α → Option β} {a : α} {as : List α} {b last : β} :
    (a :: as).foldlM step b = some last ↔
      ∃ next, step b a = some next ∧ as.foldlM step next = some last := by
  rw [List.foldlM_cons]
  exact Option.bind_eq_some_iff

theorem foldlM_append_eq_some_iff {step : β → α → Option β} {as as' : List α} {b last : β} :
    (as ++ as').foldlM step b = some last ↔
      ∃ middle, as.foldlM step b = some middle ∧ as'.foldlM step middle = some last := by
  rw [List.foldlM_append]
  exact Option.bind_eq_some_iff

theorem forall₂_iff_map_eq {R : α → α → Prop} {f : α → β} (compares : ∀ a b, R a b ↔ f a = f b)
    (as bs : List α) : List.Forall₂ R as bs ↔ as.map f = bs.map f := by
  have images : R = fun a b => f a = f b := funext₂ fun a b => propext (compares a b)
  rw [images, ← List.forall₂_eq_eq_eq, List.forall₂_map_left_iff, List.forall₂_map_right_iff]

theorem forall₂_congr_of_mem {R S : α → β → Prop} {as : List α} {bs : List β}
    (same : ∀ a ∈ as, ∀ b ∈ bs, R a b ↔ S a b) : List.Forall₂ R as bs ↔ List.Forall₂ S as bs := by
  induction as generalizing bs with
  | nil => simp [List.forall₂_nil_left_iff]
  | cons a as ih =>
      cases bs with
      | nil => simp
      | cons b bs =>
          simp only [List.forall_mem_cons] at same
          simp [same.1.1, ih fun c mem => (same.2 c mem).2]

/-! ## Association lists -/

section Lookup

variable [BEq α] [LawfulBEq α] {entries : List (α × β)} {a b : α} {value : β}

theorem lookup_congr (same : ∀ entry ∈ entries, a = entry.1 ↔ b = entry.1) :
    entries.lookup a = entries.lookup b := by
  induction entries with
  | nil => rfl
  | cons entry entries ih =>
      obtain ⟨first, rest⟩ := List.forall_mem_cons.mp same
      have sameTest : (a == entry.1) = (b == entry.1) := by
        rw [Bool.eq_iff_iff, beq_iff_eq, beq_iff_eq, first]
      rw [List.lookup_cons, List.lookup_cons, sameTest, ih rest]

theorem lookup_eq_some_iff_mem (distinct : (entries.map Prod.fst).Nodup) :
    entries.lookup a = some value ↔ (a, value) ∈ entries := by
  rw [List.lookup_eq_some_iff]
  constructor
  · rintro ⟨before, behind, rfl, -⟩
    simp
  · intro mem
    obtain ⟨before, behind, rfl⟩ := List.append_of_mem mem
    refine ⟨before, behind, rfl, fun entry early => ?_⟩
    rw [List.map_append, List.nodup_append] at distinct
    have different := distinct.2.2 entry.1 (List.mem_map_of_mem early) a (by simp)
    simpa using different.symm

end Lookup

/-- Where no key stands twice, one entry has the key of an entry. -/
theorem filter_key_eq_singleton [DecidableEq α] {entries : List (α × β)} {entry : α × β}
    (distinct : (entries.map Prod.fst).Nodup) (mem : entry ∈ entries) :
    entries.filter (fun e => e.1 = entry.1) = [entry] := by
  induction entries with
  | nil => cases mem
  | cons e entries ih =>
      obtain ⟨other, rest⟩ := List.nodup_cons.mp distinct
      rcases List.mem_cons.mp mem with rfl | mem
      · have none : entries.filter (fun e => e.1 = entry.1) = [] := by
          rw [List.filter_eq_nil_iff]
          intro e later same
          exact other (List.mem_map.mpr ⟨e, later, by simpa using same⟩)
        simp [none]
      · have different : e.1 ≠ entry.1 := fun same => other (same ▸ List.mem_map_of_mem mem)
        simp [different, ih rest mem]

end Hornbook
