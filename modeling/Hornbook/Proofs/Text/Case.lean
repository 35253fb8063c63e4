import Hornbook.Text.Case
import Mathlib.Data.List.Forall2

/-!
# Lower case and ASCII words

The lower case of a text is a matter of long tables, and of the neighbours of a character as
well.  Little of this matters to a comparison with an ASCII word.  `LowerCase` lists what does.
An ASCII character goes to its small letter.  The capital I with a dot above and the Kelvin sign
have an ASCII character in their lower case, and no other character outside ASCII has.

The lower case of such an I has a dot that is outside ASCII, and the lower case of the Kelvin
sign is a `k`.  So a text whose lower case is an ASCII word without a `k` is this word up to the
case of its letters, whatever the tables say (`IsLowerCasing.eq_iff`).
-/

namespace Hornbook.Text

/-! ## Small letters -/

theorem toNat_toLower (c : Char) :
    c.toLower.toNat = if 65 ≤ c.toNat ∧ c.toNat ≤ 90 then c.toNat + 32 else c.toNat := by
  have capital : (c.val ≥ 'A'.val ∧ c.val ≤ 'Z'.val) ↔ 65 ≤ c.toNat ∧ c.toNat ≤ 90 := by
    rw [ge_iff_le, UInt32.le_iff_toNat_le, UInt32.le_iff_toNat_le]
    rfl
  unfold Char.toLower
  split
  next inside =>
    have range := capital.mp inside
    rw [if_pos range]
    show (c.val + 32).toNat = c.toNat + 32
    rw [UInt32.toNat_add]
    show (c.toNat + 32) % _ = c.toNat + 32
    omega
  next outside => rw [if_neg fun range => outside (capital.mpr range)]

theorem toLower_of_not_capital {c : Char} (h : ¬ (65 ≤ c.toNat ∧ c.toNat ≤ 90)) :
    c.toLower = c := by
  rw [← Char.toNat_inj, toNat_toLower, if_neg h]

/-! ## Lower-casings -/

/-- What the lower case of a character can be. -/
inductive LowerCase : Char → List Char → Prop where
  | ascii {c : Char} : c.toNat < 128 → LowerCase c [c.toLower]
  /-- The capital I with a dot above becomes an `i` and a dot. -/
  | dottedI : LowerCase '\u0130' ['i', '\u0307']
  /-- The Kelvin sign becomes a `k`. -/
  | kelvin : LowerCase '\u212a' ['k']
  /-- Any other character stays outside ASCII and does not vanish. -/
  | beyond {c : Char} {piece : List Char} : 128 ≤ c.toNat → c ≠ '\u0130' → c ≠ '\u212a' →
      piece ≠ [] → (∀ d ∈ piece, 128 ≤ d.toNat) → LowerCase c piece

/-- A lower-casing gives each character a lower case.  What it gives to a character may depend on
the whole text. -/
def IsLowerCasing (lowering : List Char → List Char) : Prop :=
  ∀ cs, ∃ pieces, List.Forall₂ LowerCase cs pieces ∧ lowering cs = pieces.flatten

theorem lowerChar_lowerCase (c : Char) : LowerCase c (lowerChar c) := by
  by_cases ascii : c.toNat < 128
  · rw [lowerChar_of_ascii ascii]
    exact .ascii ascii
  · unfold lowerChar
    split
    next dotted => exact dotted ▸ .dottedI
    next notDotted =>
      split
      next kelvin => exact kelvin ▸ .kelvin
      next notKelvin =>
        have same : c.toLower = c := toLower_of_not_capital (by omega)
        refine .beyond (by omega) notDotted notKelvin (List.cons_ne_nil _ _) ?_
        rw [List.forall_mem_singleton, same]
        omega

theorem lower_isLowerCasing : IsLowerCasing lower := by
  intro cs
  refine ⟨cs.map lowerChar, ?_, rfl⟩
  rw [List.forall₂_map_right_iff, List.forall₂_same]
  exact fun c _ => lowerChar_lowerCase c

/-! ## Words -/

/-- Whether a word may have a character.  It is a visible one of ASCII.  It is no `k`, because in
the place of that there could have been a Kelvin sign. -/
def isWordChar (c : Char) : Bool := 32 < c.toNat && c.toNat < 128 && c != 'k'

theorem isWordChar_iff {c : Char} :
    isWordChar c = true ↔ 32 < c.toNat ∧ c.toNat < 128 ∧ c ≠ 'k' := by
  simp [isWordChar, and_assoc]

theorem LowerCase.eq_of_ascii {c : Char} {piece : List Char} (h : LowerCase c piece)
    (ascii : c.toNat < 128) : piece = [c.toLower] := by
  cases h with
  | ascii => rfl
  | dottedI | kelvin => exact absurd ascii (by decide)
  | beyond outside => omega

/-- From a character outside ASCII comes one that no word has. -/
theorem LowerCase.exists_not_isWordChar {c : Char} {piece : List Char} (h : LowerCase c piece)
    (outside : 128 ≤ c.toNat) : ∃ d ∈ piece, isWordChar d = false := by
  cases h with
  | ascii inside => omega
  | dottedI => exact ⟨'\u0307', by simp, rfl⟩
  | kelvin => exact ⟨'k', by simp, rfl⟩
  | beyond _ _ _ nonempty far =>
      obtain ⟨d, mem⟩ := List.exists_mem_of_ne_nil _ nonempty
      refine ⟨d, mem, Bool.eq_false_iff.mpr fun wordly => ?_⟩
      exact Nat.not_lt.mpr (far d mem) (isWordChar_iff.mp wordly).2.1

theorem LowerCase.flatten_eq_iff {cs word : List Char} {pieces : List (List Char)}
    (h : List.Forall₂ LowerCase cs pieces) (wordly : ∀ c ∈ word, isWordChar c = true) :
    pieces.flatten = word ↔ cs.map Char.toLower = word := by
  induction h generalizing word with
  | nil => rfl
  | @cons c piece cs pieces lowered _ ih =>
      rw [List.flatten_cons, List.map_cons]
      by_cases ascii : c.toNat < 128
      · rw [lowered.eq_of_ascii ascii, List.singleton_append]
        cases word with
        | nil => simp
        | cons d word =>
            rw [List.cons.injEq, List.cons.injEq, ih (List.forall_mem_cons.mp wordly).2]
      · -- Neither side has a chance, because each has a character that no word has.
        have outside : 128 ≤ c.toNat := Nat.not_lt.mp ascii
        constructor
        · rintro rfl
          obtain ⟨d, mem, stray⟩ := lowered.exists_not_isWordChar outside
          exact absurd (wordly d (List.mem_append_left _ mem)) (Bool.eq_false_iff.mp stray)
        · rintro rfl
          have first := wordly _ List.mem_cons_self
          rw [toLower_of_not_capital (by omega)] at first
          exact absurd (isWordChar_iff.mp first).2.1 ascii

/-- The lower case of a text is a word exactly when the text is that word up to the case of ASCII
letters. -/
theorem IsLowerCasing.eq_iff {lowering : List Char → List Char} (lawful : IsLowerCasing lowering)
    {word : List Char} (wordly : ∀ c ∈ word, isWordChar c = true) (cs : List Char) :
    lowering cs = word ↔ cs.map Char.toLower = word := by
  obtain ⟨pieces, lowered, same⟩ := lawful cs
  rw [same]
  exact LowerCase.flatten_eq_iff lowered wordly

end Hornbook.Text
