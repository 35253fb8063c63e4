import Hornbook.Proofs.Text.Case
import Hornbook.Text.Blank
import Mathlib.Data.List.DropRight

/-!
# Trimmed texts

A text is its trimmed form with blanks around it (`exists_trim`).  Blanks that are added in
front or behind make no difference to the trimmed form (`trim_append`), and a text without blanks
is its own.  No letter is blank, so it does not matter whether a text is first trimmed or first
put into small letters (`trim_map_toLower`).
-/

namespace Hornbook.Text

variable {cs front back : List Char}

/-! ## Blanks and letters -/

theorem isBlank_iff {c : Char} :
    isBlank c = true ↔ ∃ r ∈ blankRanges, r.1 ≤ c.toNat ∧ c.toNat ≤ r.2 := by
  simp [isBlank]

/-- The visible characters of ASCII. -/
theorem isBlank_eq_false_of_visible {c : Char} (above : 32 < c.toNat) (below : c.toNat < 128) :
    isBlank c = false := by
  rw [Bool.eq_false_iff, Ne, isBlank_iff]
  simp only [blankRanges, List.mem_cons, List.not_mem_nil, or_false, exists_eq_or_imp,
    exists_eq_left]
  omega

theorem isBlank_toLower (c : Char) : isBlank c.toLower = isBlank c := by
  by_cases capital : 65 ≤ c.toNat ∧ c.toNat ≤ 90
  · have small : c.toLower.toNat = c.toNat + 32 := by rw [toNat_toLower, if_pos capital]
    rw [isBlank_eq_false_of_visible (by omega) (by omega),
      isBlank_eq_false_of_visible (by omega) (by omega)]
  · rw [toLower_of_not_capital capital]

/-! ## Trimming -/

theorem trim_eq (cs : List Char) : trim cs = (cs.dropWhile isBlank).rdropWhile isBlank := rfl

/-- A text is its trimmed form between blanks. -/
theorem exists_trim (cs : List Char) :
    ∃ front back, cs = front ++ trim cs ++ back ∧
      (∀ c ∈ front, isBlank c = true) ∧ ∀ c ∈ back, isBlank c = true := by
  refine ⟨cs.takeWhile isBlank, (cs.dropWhile isBlank).rtakeWhile isBlank, ?_,
    fun c mem => List.mem_takeWhile_imp mem, fun c mem => List.mem_rtakeWhile_imp mem⟩
  rw [trim_eq, List.append_assoc, List.rdropWhile_append_rtakeWhile,
    List.takeWhile_append_dropWhile]

theorem rdropWhile_append_of_forall (blank : ∀ c ∈ back, isBlank c = true) :
    (cs ++ back).rdropWhile isBlank = cs.rdropWhile isBlank := by
  rw [List.rdropWhile, List.reverse_append, List.dropWhile_append_of_pos, List.rdropWhile]
  exact fun c mem => blank c (List.mem_reverse.mp mem)

/-- Blanks around a text are trimmed away with its own. -/
theorem trim_append (blankFront : ∀ c ∈ front, isBlank c = true)
    (blankBack : ∀ c ∈ back, isBlank c = true) : trim (front ++ cs ++ back) = trim cs := by
  rw [trim_eq, trim_eq, List.append_assoc, List.dropWhile_append_of_pos blankFront,
    List.dropWhile_append]
  split
  next vanished =>
    -- Nothing is left of the text, and nothing of the blanks behind it.
    rw [List.isEmpty_iff] at vanished
    rw [vanished, List.dropWhile_eq_nil_iff.mpr blankBack]
  next => exact rdropWhile_append_of_forall blankBack

theorem trim_of_forall_not (solid : ∀ c ∈ cs, isBlank c = false) : trim cs = cs := by
  have front : cs.dropWhile isBlank = cs := by
    rw [List.dropWhile_eq_self_iff]
    exact fun _ => Bool.eq_false_iff.mp (solid _ (List.getElem_mem _))
  rw [trim_eq, front, List.rdropWhile_eq_self_iff]
  exact fun _ => Bool.eq_false_iff.mp (solid _ (List.getLast_mem _))

theorem trim_map_toLower (cs : List Char) :
    trim (cs.map Char.toLower) = (trim cs).map Char.toLower := by
  have sameBlanks : isBlank ∘ Char.toLower = isBlank := funext isBlank_toLower
  rw [trim_eq, trim_eq, List.rdropWhile, List.rdropWhile, List.dropWhile_map, sameBlanks,
    ← List.map_reverse, List.dropWhile_map, sameBlanks, List.map_reverse]

end Hornbook.Text
