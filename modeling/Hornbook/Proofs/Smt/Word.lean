import Hornbook.Smt.Reader
import Hornbook.Proofs.Sexp.Reader
import Hornbook.Proofs.Text.Numbered

/-!
# The words of sorts and terms

Names, numerals and the words of the printers are single words of a text: no character of a
simple symbol ends a word.  Numerals are read back, and no name is taken for a numeral or
for a word of the printer (`Head.ofWord?_of_isName`).
-/

namespace Hornbook

/-! ## Simple symbols -/

theorem not_delimiter_of_isSymbolChar {c : Char} (h : isSymbolChar c = true) :
    Sexp.isDelimiter c = false := by
  have other (d : Char) (mark : isSymbolChar d = false) : c ≠ d := by
    rintro rfl
    rw [mark] at h
    cases h
  simp only [Sexp.isDelimiter, Sexp.isBlank, Bool.or_eq_false_iff, decide_eq_false_iff_not]
  exact ⟨⟨⟨⟨⟨⟨other ' ' rfl, other '\t' rfl⟩, other '\n' rfl⟩, other '\r' rfl⟩, other '(' rfl⟩,
    other ')' rfl⟩, other ';' rfl⟩

theorem isWord_of_isSimpleSymbol {cs : List Char} (h : isSimpleSymbol cs = true) :
    Sexp.IsWord cs := by
  cases cs with
  | nil => cases h
  | cons c cs =>
      rw [isSimpleSymbol, Bool.and_eq_true, List.all_eq_true] at h
      exact ⟨List.cons_ne_nil c cs, fun d mem => not_delimiter_of_isSymbolChar (h.2 d mem)⟩

theorem isSimpleSymbol_of_mem_words :
    ∀ w ∈ termWords ++ sortWords, isSimpleSymbol w.toList = true := by decide

theorem tidy_of_mem_words {w : String} (h : w ∈ termWords ++ sortWords) :
    (Sexp.atom w).Tidy :=
  .atom (isWord_of_isSimpleSymbol (isSimpleSymbol_of_mem_words w h))

/-! ## Numerals -/

theorem all_isDigit_numeral (n : Nat) : ∀ c ∈ (toString n).toList, c.isDigit = true := by
  intro c mem
  rw [Nat.toString_eq_repr, Nat.toList_repr] at mem
  exact Nat.isDigit_of_mem_toDigits (by decide) (by decide) mem

theorem numeral_ne_nil (n : Nat) : (toString n).toList ≠ [] := by
  rw [Nat.toString_eq_repr, Nat.toList_repr]
  exact Nat.toDigits_ne_nil

/-- A numeral is read back. -/
theorem numeral?_toString (n : Nat) : numeral? (toString n).toList = some n := by
  have digits : (toString n).toList.all Char.isDigit = true :=
    List.all_eq_true.mpr (all_isDigit_numeral n)
  rw [numeral?, if_pos ⟨numeral_ne_nil n, digits⟩, Nat.toString_eq_repr, Nat.toList_repr,
    Nat.ofDigitChars_ten_toDigits]

theorem isSymbolChar_of_isDigit {c : Char} (h : c.isDigit = true) : isSymbolChar c = true := by
  rw [isSymbolChar, h, Bool.or_true, Bool.true_or]

theorem isWord_numeral (n : Nat) : Sexp.IsWord (toString n).toList :=
  ⟨numeral_ne_nil n, fun c mem =>
    not_delimiter_of_isSymbolChar (isSymbolChar_of_isDigit (all_isDigit_numeral n c mem))⟩

theorem toList_pattern (n : Nat) :
    ("bv" ++ toString n).toList = 'b' :: 'v' :: (toString n).toList := by
  rw [String.toList_append]
  rfl

theorem isWord_pattern (n : Nat) : Sexp.IsWord ("bv" ++ toString n).toList := by
  rw [toList_pattern]
  exact ⟨List.cons_ne_nil _ _,
    List.forall_mem_cons.mpr ⟨rfl, List.forall_mem_cons.mpr ⟨rfl, (isWord_numeral n).2⟩⟩⟩

/-- A numeral is not a name. -/
theorem not_isName_numeral (n : Nat) : ¬ IsName (toString n) := by
  intro name
  have digits := all_isDigit_numeral n
  have simple := name.1
  cases chars : (toString n).toList with
  | nil => exact numeral_ne_nil n chars
  | cons c cs =>
      rw [chars] at simple digits
      rw [isSimpleSymbol, digits c List.mem_cons_self] at simple
      cases simple

/-! ## Heads -/

namespace Head

theorem ofWord?_connective (c : Connective) : ofWord? c.word = some (connective c) := by
  cases c <;> rfl

theorem ofWord?_binary (op : BinaryOp) : ofWord? op.word = some (binary op) := by
  cases op <;> rfl

theorem ofWord?_quantifier (q : Quantifier) : ofWord? q.word = some (quantifier q) := by
  cases q <;> rfl

theorem mem_termWords_of_mem_words : ∀ p ∈ words, p.1 ∈ termWords := by decide

/-- A name has no head. -/
theorem ofWord?_of_isName {name : String} (h : IsName name) : ofWord? name = none := by
  rw [ofWord?, List.lookup_eq_none_iff]
  intro p mem
  rw [bne_iff_ne]
  rintro rfl
  exact h.2 (mem_termWords_of_mem_words p mem)

theorem tidy_of_ofWord? {w : String} {head : Head} (h : ofWord? w = some head) :
    (Sexp.atom w).Tidy := by
  obtain ⟨front, behind, split, -⟩ := List.lookup_eq_some_iff.mp h
  have mem : (w, head) ∈ words := split ▸ List.mem_append_right front List.mem_cons_self
  exact tidy_of_mem_words (List.mem_append_left _ (mem_termWords_of_mem_words _ mem))

end Head

end Hornbook
