import Mathlib.Data.List.Basic

/-!
# Separated texts

Texts that are written one behind the other, with a separator between them, can be told apart
again if what begins the separator is in none of them.  A text comes apart at the first
occurrence of a character (`append_cons_inj_of_notMem_front`) and at the last one
(`append_cons_inj_of_notMem_tail`).  A text with a known number of parts comes apart at all
of them (`intercalate_inj_of_notMem`).
-/

namespace Hornbook

variable {α : Type} {front front' middle tail tail' separator : List α} {c : α}
  {pieces pieces' : List (List α)}

/-- A text that begins with a character is split there in one way, if the character does not
come before. -/
theorem split_cons_of_notMem_front (h : c ∉ middle) (same : c :: tail = middle ++ c :: tail') :
    middle = [] ∧ tail = tail' := by
  cases middle with
  | nil => exact ⟨rfl, (List.cons.inj same).2⟩
  | cons b middle =>
      rw [← (List.cons.inj same).1] at h
      exact absurd List.mem_cons_self h

/-- Two texts that agree agree in front of and behind the first occurrence of a character. -/
theorem append_cons_inj_of_notMem_front (h : c ∉ front) (h' : c ∉ front') :
    front ++ c :: tail = front' ++ c :: tail' ↔ front = front' ∧ tail = tail' := by
  constructor
  · intro same
    rcases List.append_eq_append_iff.mp same with ⟨middle, rfl, rest⟩ | ⟨middle, rfl, rest⟩
    · obtain ⟨rfl, sameTail⟩ :=
        split_cons_of_notMem_front (fun mem => h' (List.mem_append_right _ mem)) rest
      exact ⟨(List.append_nil _).symm, sameTail⟩
    · obtain ⟨rfl, sameTail⟩ :=
        split_cons_of_notMem_front (fun mem => h (List.mem_append_right _ mem)) rest
      exact ⟨List.append_nil _, sameTail.symm⟩
  · rintro ⟨rfl, rfl⟩
    rfl

/-- Two texts that agree agree in front of and behind the last occurrence of a character.  It is
the first one from the other end. -/
theorem append_cons_inj_of_notMem_tail (h : c ∉ tail) (h' : c ∉ tail') :
    front ++ c :: tail = front' ++ c :: tail' ↔ front = front' ∧ tail = tail' := by
  have mirrored (front tail : List α) :
      (front ++ c :: tail).reverse = tail.reverse ++ c :: front.reverse := by
    rw [List.reverse_append, List.reverse_cons, List.append_assoc, List.singleton_append]
  rw [← List.mem_reverse] at h h'
  rw [← List.reverse_inj, mirrored, mirrored, append_cons_inj_of_notMem_front h h',
    List.reverse_inj, List.reverse_inj, and_comm]

/-- With one more separator at the end, every piece has one behind it. -/
theorem intercalate_append_separator (nonempty : pieces ≠ []) :
    separator.intercalate pieces ++ separator = pieces.flatMap (· ++ separator) := by
  induction pieces with
  | nil => exact absurd rfl nonempty
  | cons piece pieces ih =>
      cases pieces with
      | nil => simp
      | cons next pieces =>
          have rest := ih (List.cons_ne_nil next pieces)
          rw [List.intercalate_cons_cons, List.append_assoc, rest]
          rfl

theorem notMem_intercalate (h : c ∉ separator) (none : ∀ piece ∈ pieces, c ∉ piece) :
    c ∉ separator.intercalate pieces := by
  induction pieces with
  | nil => simp
  | cons piece pieces ih =>
      obtain ⟨first, rest⟩ := List.forall_mem_cons.mp none
      cases pieces with
      | nil => simpa using first
      | cons piece' pieces =>
          rw [List.intercalate_cons_cons, List.mem_append, List.mem_append]
          rintro ((here | between) | behind)
          · exact first here
          · exact h between
          · exact ih rest behind

/-- As many pieces with the same text are the same pieces, if what begins the separator is in
none of them. -/
theorem intercalate_inj_of_notMem (sameLength : pieces'.length = pieces.length)
    (none : ∀ piece ∈ pieces, c ∉ piece) (none' : ∀ piece ∈ pieces', c ∉ piece) :
    (c :: separator).intercalate pieces' = (c :: separator).intercalate pieces ↔
      pieces' = pieces := by
  induction pieces generalizing pieces' with
  | nil => simp [List.length_eq_zero_iff.mp sameLength]
  | cons piece pieces ih =>
      obtain ⟨piece', pieces', rfl⟩ := List.exists_cons_of_length_eq_add_one sameLength
      obtain ⟨first, rest⟩ := List.forall_mem_cons.mp none
      obtain ⟨first', rest'⟩ := List.forall_mem_cons.mp none'
      have sameLength : pieces'.length = pieces.length := Nat.succ.inj sameLength
      cases pieces with
      | nil => simp [List.length_eq_zero_iff.mp sameLength]
      | cons next pieces =>
          obtain ⟨next', pieces', rfl⟩ := List.exists_cons_of_length_eq_add_one sameLength
          rw [List.intercalate_cons_cons, List.intercalate_cons_cons, List.append_assoc,
            List.append_assoc, List.cons_append, List.cons_append,
            append_cons_inj_of_notMem_front first' first, List.append_cancel_left_eq,
            ih sameLength rest rest', List.cons.injEq piece']

end Hornbook
