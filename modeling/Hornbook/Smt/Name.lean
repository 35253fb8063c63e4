/-!
# Names

A printer of this library quotes nothing, so a name can be told from the text around it
only if it is a simple symbol: ASCII letters and digits and a few other characters, with no
digit in front.  Some simple symbols are words of the printers themselves.  A name in a term
is a simple symbol that is none of `termWords`.  A sort is never printed where a term is
expected, so the name of a sort has to avoid `sortWords` only.
-/

namespace Hornbook

/-- The characters of simple symbols that are neither letters nor digits. -/
def symbolMarks : List Char :=
  ['~', '!', '@', '$', '%', '^', '&', '*', '_', '-', '+', '=', '<', '>', '.', '?', '/']

/-- Whether a character may stand in a simple symbol. -/
def isSymbolChar (c : Char) : Bool := c.isAlpha || c.isDigit || symbolMarks.contains c

/-- Whether a list of characters is a simple symbol. -/
def isSimpleSymbol : List Char → Bool
  | [] => false
  | c :: cs => !c.isDigit && (c :: cs).all isSymbolChar

/-- The words that terms are printed with. -/
def termWords : List String :=
  ["true", "false", "not", "and", "or", "=>", "=", "ite", "+", "-", "*", "<", "<=", ">", ">=",
   "select", "store", "forall", "exists", "_"]

/-- The words that stand for sorts, and the two that make sorts of others. -/
def sortWords : List String := ["Bool", "Int", "Real", "Array", "BitVec"]

/-- A name in a term. -/
def IsName (s : String) : Prop := isSimpleSymbol s.toList = true ∧ s ∉ termWords

/-- The name of a sort. -/
def IsSortName (s : String) : Prop := isSimpleSymbol s.toList = true ∧ s ∉ sortWords

instance (s : String) : Decidable (IsName s) := inferInstanceAs (Decidable (_ ∧ _))

instance (s : String) : Decidable (IsSortName s) := inferInstanceAs (Decidable (_ ∧ _))

end Hornbook
