/-!
# Lower case

Lower-casing for comparison with ASCII words.  An ASCII letter goes to its small
letter.  Two characters outside ASCII have an ASCII character in their lower case, the
capital I with a dot above and the Kelvin sign, and both are listed.  Every other
character outside ASCII has a lower case wholly outside ASCII.  Such a text equals no
ASCII word whether it is lower-cased or not, so these characters are left alone.
-/

namespace Hornbook.Text

/-- The lower case of one character. -/
def lowerChar (c : Char) : List Char :=
  if c = '\u0130' then ['i', '\u0307']
  else if c = '\u212a' then ['k']
  else [c.toLower]

/-- The lower case of a text. -/
def lower (cs : List Char) : List Char := cs.flatMap lowerChar

/-- An ASCII character has one lower case, which is the core library's. -/
theorem lowerChar_of_ascii {c : Char} (h : c.toNat < 128) : lowerChar c = [c.toLower] := by
  have dotted : c ≠ '\u0130' := by rintro rfl; simp at h
  have kelvin : c ≠ '\u212a' := by rintro rfl; simp at h
  simp [lowerChar, dotted, kelvin]

example : lower "Reuse-Identical".toList = "reuse-identical".toList := by decide

example : lower "\u0130".toList = "i\u0307".toList := by decide

end Hornbook.Text
