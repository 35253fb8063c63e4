import Hornbook.Predicate.Fault
import Hornbook.Proofs.Text.Separated

/-!
# Numbered names

Function symbols and identities print as a text with numerals in it.  Nothing restricts
the text in front of a numeral: the base name of a symbol may itself end in an
underscore and digits.  It can be read back all the same, because a numeral holds
neither an underscore nor an at sign, and so the last one of the text is the one that
the printer put there (`append_cons_inj_of_notMem_tail`).

So the name of a version tells the base name and the number of the version
(`VersionedSymbol.name_version_inj`), and a printed identity tells the identity
(`PredicateId.text_inj`).
-/

namespace Hornbook

/-! ## Numerals -/

/-- A numeral holds nothing but digits. -/
theorem notMem_numeral {c : Char} (h : c.isDigit = false) (n : Nat) : c ∉ (toString n).toList := by
  rw [Nat.toString_eq_repr, Nat.toList_repr]
  intro mem
  have digit : c.isDigit = true := Nat.isDigit_of_mem_toDigits (by decide) (by decide) mem
  rw [h] at digit
  cases digit

/-- Two numerals are one only if they stand for one number. -/
theorem numeral_inj {m n : Nat} : (toString m).toList = (toString n).toList ↔ m = n := by
  constructor
  · intro same
    rw [Nat.toString_eq_repr, Nat.toString_eq_repr, Nat.toList_repr, Nat.toList_repr] at same
    have value := congrArg (Nat.ofDigitChars 10 · 0) same
    simpa using value
  · rintro rfl
    rfl

/-! ## Versions and identities -/

/-- The name of a version tells the base name and the number. -/
theorem VersionedSymbol.name_version_inj {f g : VersionedSymbol} {i j : Nat} :
    (f.version i).name = (g.version j).name ↔ f.name = g.name ∧ i = j := by
  simp only [version, ← String.toList_inj, String.toList_append, List.append_assoc]
  have numbered (s : String) (n : Nat) :
      s.toList ++ ("_".toList ++ (toString n).toList) = s.toList ++ '_' :: (toString n).toList :=
    rfl
  rw [numbered, numbered,
    append_cons_inj_of_notMem_tail (notMem_numeral rfl i) (notMem_numeral rfl j), numeral_inj]

/-- A printed identity tells the identity. -/
theorem PredicateId.text_inj {a b : PredicateId} : a.text = b.text ↔ a = b := by
  have chars (id : PredicateId) :
      id.text.toList = ('P' :: (toString id.index).toList)
        ++ '@' :: ("run".toList ++ (toString id.run).toList) := by
    simp [text]
  have noAt (n : Nat) : '@' ∉ "run".toList ++ (toString n).toList := by
    rw [List.mem_append, not_or]
    exact ⟨by decide, notMem_numeral rfl n⟩
  rw [← String.toList_inj, chars, chars, append_cons_inj_of_notMem_tail (noAt _) (noAt _),
    List.cons_inj_right, List.append_cancel_left_eq, numeral_inj, numeral_inj]
  cases a
  cases b
  simp [and_comm]

end Hornbook
