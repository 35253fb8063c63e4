import Hornbook.Smt.Term
import Mathlib.Algebra.Group.Int.Units
import Mathlib.Algebra.Order.Ring.Int
import Mathlib.Data.Int.ModEq

/-!
# Numerals of negative bit vectors

A bit vector that stands for a negative integer should print the two's complement of the
integer, which is the one number below `2 ^ width` that is congruent to it
(`IsTwosComplement`).  `bitPattern` computes in 128 bits and adds `2 ^ width` at most
once.  A width reaches the integers from `-2 ^ width` on.  The computation goes wrong in two
ways, and in no other.

* Below the width 128, an integer that the width does not reach is still negative after the
  addition.  Its numeral is congruent to it, but has 128 bits.
* Above the width 128 nothing is added.  The numeral has few enough bits, but the bits from
  the 128th on are missing, so it is not congruent.

`text_bitVec_negative` says exactly when a numeral has few enough bits, when it is congruent,
and when it is the two's complement.  At the width 127 a signed number of 128 bits does not
hold `2 ^ width`, and the addition counts as one that wraps around.
-/

namespace Hornbook.Term

variable {value : Int} {width m n : Nat}

/-- A number has at most `width` bits and is congruent to an integer modulo `2 ^ width`. -/
structure IsTwosComplement (value : Int) (width numeral : Nat) : Prop where
  lt : numeral < 2 ^ width
  modEq : (numeral : Int) ≡ value [ZMOD 2 ^ width]

/-- An integer has one two's complement at a width. -/
theorem IsTwosComplement.unique (hm : IsTwosComplement value width m)
    (hn : IsTwosComplement value width n) : m = n := by
  have congruent : (m : Int) ≡ n [ZMOD 2 ^ width] := hm.modEq.trans hn.modEq.symm
  have below : (m : Int) < 2 ^ width := by exact_mod_cast hm.lt
  have below' : (n : Int) < 2 ^ width := by exact_mod_cast hn.lt
  rw [Int.ModEq, Int.emod_eq_of_lt (Int.natCast_nonneg m) below,
    Int.emod_eq_of_lt (Int.natCast_nonneg n) below'] at congruent
  exact Int.natCast_inj.mp congruent

/-- A numeral is the only two's complement exactly when it is one. -/
theorem isTwosComplement_iff_forall :
    IsTwosComplement value width n ↔ ∀ m, IsTwosComplement value width m ↔ m = n := by
  constructor
  · intro hn m
    constructor
    · intro hm
      exact hm.unique hn
    · rintro rfl
      exact hn
  · intro only
    exact (only n).mpr rfl

/-! ## What is computed -/

theorem natCast_patterns (width : Nat) : (patterns width : Int) = 2 ^ width := by
  rw [patterns, Nat.pow_eq, Nat.cast_pow, Nat.cast_ofNat]

/-- A bit vector prints its numeral and its width. -/
theorem text_bitVec (value : Int) (width : Nat) :
    (bitVec value width).text
      = "(_ bv" ++ toString (bitPattern value width) ++ " " ++ toString width ++ ")" := by
  rw [← String.toList_inj, text, Sexp.toList_text]
  simp [toSexp]

/-- An integer that the width reaches gets the number of patterns added to it. -/
theorem bitPattern_of_reached (narrow : width < 128) (reached : -2 ^ width ≤ value)
    (negative : value < 0) : (bitPattern value width : Int) = value + 2 ^ width := by
  have bound : (2 : Int) ^ width ≤ 2 ^ 128 := pow_le_pow_right₀ one_le_two (Nat.le_of_lt narrow)
  rw [bitPattern, if_pos ⟨negative, narrow⟩, natCast_patterns, natCast_patterns,
    Int.emod_eq_of_lt (by omega) (by omega), Int.toNat_of_nonneg (by omega), Int.add_comm]

example : bitPattern (-1) 8 = 255 := by decide

/-- An integer below the reach of the width is negative after the addition, and 128 bits hold
it as if they were meant to. -/
theorem bitPattern_of_not_reached (narrow : width < 128) (below : value < -2 ^ width)
    (lower : -2 ^ 127 ≤ value) :
    (bitPattern value width : Int) = value + 2 ^ width + 2 ^ 128 := by
  have positive : (0 : Int) < 2 ^ width := pow_pos zero_lt_two width
  rw [bitPattern, if_pos ⟨by omega, narrow⟩, natCast_patterns, natCast_patterns,
    ← Int.add_emod_right, Int.emod_eq_of_lt (by omega) (by omega),
    Int.toNat_of_nonneg (by omega), Int.add_comm (2 ^ width)]

example : bitPattern (-257) 8 = patterns 128 - 1 := by decide

/-- From the width 128 on, an integer is held by 128 bits, whatever the width is. -/
theorem bitPattern_of_wide (wide : 128 ≤ width) (lower : -2 ^ 127 ≤ value)
    (negative : value < 0) : (bitPattern value width : Int) = value + 2 ^ 128 := by
  rw [bitPattern, if_neg (by omega), natCast_patterns, ← Int.add_emod_right,
    Int.emod_eq_of_lt (by omega) (by omega), Int.toNat_of_nonneg (by omega)]

example : bitPattern (-1) 256 = patterns 128 - 1 := by decide

/-! ## What it is worth -/

/-- The numeral of a negative integer has at most `width` bits exactly when the width is one
that nothing is added for, or reaches the integer. -/
theorem bitPattern_lt_iff (lower : -2 ^ 127 ≤ value) (negative : value < 0) :
    bitPattern value width < 2 ^ width ↔ 128 ≤ width ∨ -2 ^ width ≤ value := by
  have positive : (0 : Int) < 2 ^ width := pow_pos zero_lt_two width
  rw [← Int.ofNat_lt, Nat.cast_pow, Nat.cast_ofNat]
  rcases Nat.lt_or_ge width 128 with narrow | wide
  · rcases lt_or_ge value (-2 ^ width) with below | reached
    · rw [bitPattern_of_not_reached narrow below lower]
      omega
    · rw [bitPattern_of_reached narrow reached negative]
      omega
  · have bound : (2 : Int) ^ 128 ≤ 2 ^ width := pow_le_pow_right₀ one_le_two wide
    rw [bitPattern_of_wide wide lower negative]
    omega

/-- The numeral of a negative integer is congruent to it at every width that 128 bits hold,
and at no other. -/
theorem bitPattern_modEq_iff (lower : -2 ^ 127 ≤ value) (negative : value < 0) :
    (bitPattern value width : Int) ≡ value [ZMOD 2 ^ width] ↔ width ≤ 128 := by
  rw [Int.modEq_comm, Int.modEq_iff_dvd]
  rcases Nat.lt_or_ge width 128 with narrow | wide
  · have multiple : (2 : Int) ^ width ∣ 2 ^ 128 := pow_dvd_pow 2 (Nat.le_of_lt narrow)
    refine iff_of_true ?_ (Nat.le_of_lt narrow)
    rcases lt_or_ge value (-2 ^ width) with below | reached
    · rw [bitPattern_of_not_reached narrow below lower, Int.add_assoc, add_sub_cancel_left]
      exact Int.dvd_add (Int.dvd_refl _) multiple
    · rw [bitPattern_of_reached narrow reached negative, add_sub_cancel_left]
  · rw [bitPattern_of_wide wide lower negative, add_sub_cancel_left]
    exact pow_dvd_pow_iff (by decide) (by simp [Int.isUnit_iff])

/-- The text of a negative bit vector, for every integer of 128 bits and every width.  Its
numeral has at most `width` bits exactly if the width is at least 128 or reaches the integer,
and is congruent to the integer exactly if the width is at most 128.  So it is the one two's
complement exactly if both are the case. -/
theorem text_bitVec_negative (width : Nat) (lower : -2 ^ 127 ≤ value) (negative : value < 0) :
    (bitVec value width).text
        = "(_ bv" ++ toString (bitPattern value width) ++ " " ++ toString width ++ ")" ∧
      (bitPattern value width < 2 ^ width ↔ 128 ≤ width ∨ -2 ^ width ≤ value) ∧
      ((bitPattern value width : Int) ≡ value [ZMOD 2 ^ width] ↔ width ≤ 128) ∧
      ((∀ numeral, IsTwosComplement value width numeral ↔ numeral = bitPattern value width) ↔
        width ≤ 128 ∧ -2 ^ width ≤ value) := by
  have small : bitPattern value width < 2 ^ width ↔ 128 ≤ width ∨ -2 ^ width ≤ value :=
    bitPattern_lt_iff lower negative
  have congruent : (bitPattern value width : Int) ≡ value [ZMOD 2 ^ width] ↔ width ≤ 128 :=
    bitPattern_modEq_iff lower negative
  refine ⟨text_bitVec value width, small, congruent, ?_⟩
  rw [← isTwosComplement_iff_forall]
  constructor
  · rintro ⟨few, same⟩
    have held : width ≤ 128 := congruent.mp same
    refine ⟨held, ?_⟩
    rcases small.mp few with wide | reached
    · have bound : (2 : Int) ^ 127 ≤ 2 ^ width := pow_le_pow_right₀ one_le_two (by omega)
      omega
    · exact reached
  · rintro ⟨held, reached⟩
    exact ⟨small.mpr (.inr reached), congruent.mpr held⟩

/-- The least integer of 128 bits, which the width 128 reaches. -/
theorem text_bitVec_negative_least :
    (-2 ^ 127 : Int) ≤ -2 ^ 127 ∧ (-2 ^ 127 : Int) < 0 ∧
      (bitVec (-2 ^ 127) 128).text = "(_ bv170141183460469231731687303715884105728 128)" ∧
      ∀ numeral, IsTwosComplement (-2 ^ 127) 128 numeral ↔
        numeral = 170141183460469231731687303715884105728 := by
  have lower : (-2 ^ 127 : Int) ≤ -2 ^ 127 := by decide
  have negative : (-2 ^ 127 : Int) < 0 := by decide
  obtain ⟨text, -, -, only⟩ := text_bitVec_negative 128 lower negative
  exact ⟨lower, negative, text, only.mpr ⟨by decide, by decide⟩⟩

/-- An integer that eight bits just do not reach, and a width with more than 128 bits.
Neither text has the two's complement in it. -/
theorem text_bitVec_not_twosComplement :
    (bitVec (-257) 8).text = "(_ bv340282366920938463463374607431768211455 8)" ∧
      ¬ IsTwosComplement (-257) 8 340282366920938463463374607431768211455 ∧
      IsTwosComplement (-257) 8 255 ∧
      (bitVec (-1) 256).text = "(_ bv340282366920938463463374607431768211455 256)" ∧
      ¬ IsTwosComplement (-1) 256 340282366920938463463374607431768211455 ∧
      IsTwosComplement (-1) 256 (2 ^ 256 - 1) := by
  have beyond : ¬ (340282366920938463463374607431768211455 : Nat) < 2 ^ 8 := by decide
  have other : ¬ ((340282366920938463463374607431768211455 : Nat) : Int) ≡ -1 [ZMOD 2 ^ 256] := by
    decide
  refine ⟨text_bitVec (-257) 8, fun wrapped => beyond wrapped.lt, ⟨by decide, by decide⟩,
    text_bitVec (-1) 256, fun wrapped => other wrapped.modEq, ⟨by decide, by decide⟩⟩

end Hornbook.Term
