import Hornbook.Json.Basic
import Hornbook.Json.Lexer

/-!
# Reading JSON

Tokens become a value by a machine with a stack.  The stack holds the arrays and objects
that are still open, the innermost first.  The state says what may come next.  There is
no bound on depth.

Running the machine is a fold over the tokens.  The tokens of a value take a state that
wants a value to the state in which that value is complete, whatever is open around it.
-/

namespace Hornbook.Json

/-- An array or an object that is still open. -/
inductive Frame where
  /-- An array, with its elements so far, last first. -/
  | array (before : List Json)
  /-- An object that waits for the value of a name, with its members so far, last first. -/
  | object (before : List (Option (List Char) × Json)) (name : Option (List Char))

/-- What may come next. -/
inductive Reader where
  | value (outer : List Frame)
  /-- The first element of an array, or its end. -/
  | arrayStart (outer : List Frame)
  /-- The first member of an object, or its end. -/
  | objectStart (outer : List Frame)
  /-- The name of a member. -/
  | name (before : List (Option (List Char) × Json)) (outer : List Frame)
  /-- The colon behind a name. -/
  | colon (before : List (Option (List Char) × Json)) (name : Option (List Char))
      (outer : List Frame)
  /-- What follows a complete value. -/
  | after (value : Json) (outer : List Frame)

namespace Reader

/-- The machine before a text. -/
def start : Reader := value []

/-- One token where a value has to come. -/
def takeValue (outer : List Frame) : Token → Option Reader
  | .null => some (after .null outer)
  | .bool b => some (after (.bool b) outer)
  | .number literal => some (after (.number literal) outer)
  | .string text => some (after (.string text) outer)
  | .openArray => some (arrayStart outer)
  | .openObject => some (objectStart outer)
  | _ => none

/-- One token. -/
def step : Reader → Token → Option Reader
  | value outer, token => takeValue outer token
  | arrayStart outer, .closeArray => some (after (.array []) outer)
  | arrayStart outer, token => takeValue (.array [] :: outer) token
  | objectStart outer, .closeObject => some (after (.object []) outer)
  | objectStart outer, .string text => some (colon [] text outer)
  | objectStart _, _ => none
  | name before outer, .string text => some (colon before text outer)
  | name _ _, _ => none
  | colon before text outer, .colon => some (value (.object before text :: outer))
  | colon _ _ _, _ => none
  | after j (.array before :: outer), .comma => some (value (.array (j :: before) :: outer))
  | after j (.array before :: outer), .closeArray =>
      some (after (.array (j :: before).reverse) outer)
  | after j (.object before text :: outer), .comma => some (name ((text, j) :: before) outer)
  | after j (.object before text :: outer), .closeObject =>
      some (after (.object ((text, j) :: before).reverse) outer)
  | after _ _, _ => none

/-- The value of a text that ends here. -/
def finish : Reader → Option Json
  | after j [] => some j
  | _ => none

/-- The value of a list of tokens. -/
def value? (tokens : List Token) : Option Json := tokens.foldlM step start >>= finish

end Reader

/-- The value that a text denotes. -/
def ofChars? (cs : List Char) : Option Json := Lexer.tokens? cs >>= Reader.value?

/-- The value that a text denotes. -/
def ofText? (s : String) : Option Json := ofChars? s.toList

/-- What a text describes, by a reading of the value that it denotes. -/
def decode? {α : Type} (ofJson? : Json → Option α) (s : String) : Option α :=
  ofText? s >>= ofJson?

end Hornbook.Json
