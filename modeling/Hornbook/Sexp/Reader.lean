import Hornbook.Sexp

/-!
# Reading S-expressions

A text is read by a machine that takes one character at a time.  Its state holds the word
and the row that are being read, and the rows around that one.  A blank, a parenthesis or
a semicolon ends a word.  A semicolon also begins a comment, which lasts until the line
ends.  Nothing is quoted, because no printer of this library quotes.

A line ends at a line feed and nowhere else.  A carriage return is one more blank.  SMT-LIB
2.6 lets it end a comment as well, so a reader that follows it may find more in a text with
carriage returns in its comments.

Running the machine over a text is a fold, so what it does to `xs ++ ys` is what it does
to `xs` and then to `ys`.
-/

namespace Hornbook.Sexp

/-- White space between words. -/
def isBlank (c : Char) : Bool := c = ' ' || c = '\t' || c = '\n' || c = '\r'

/-- Whether a character ends a word. -/
def isDelimiter (c : Char) : Bool := isBlank c || c = '(' || c = ')' || c = ';'

/-- The state of the machine. -/
structure Reader where
  /-- Whether what comes is passed over, up to a line feed. -/
  inComment : Bool
  /-- The word that is being read, last character first. -/
  word : List Char
  /-- The row that is being read, last expression first. -/
  row : List Sexp
  /-- The rows around it, the innermost first. -/
  outer : List (List Sexp)

namespace Reader

/-- The machine before a text. -/
def start : Reader := ⟨false, [], [], []⟩

/-- The machine behind a word.  If there was one, it is an expression of the row. -/
def endWord (r : Reader) : Reader :=
  match r.word with
  | [] => r
  | c :: cs => { r with word := [], row := .atom (String.ofList (c :: cs).reverse) :: r.row }

/-- The machine behind an opening parenthesis. -/
def openRow (r : Reader) : Reader := { r with row := [], outer := r.row :: r.outer }

/-- The machine behind a closing parenthesis, if there is something to close. -/
def closeRow? (r : Reader) : Option Reader :=
  match r.outer with
  | [] => none
  | row :: outer => some { r with row := .list r.row.reverse :: row, outer := outer }

/-- One character. -/
def step (r : Reader) (c : Char) : Option Reader :=
  if r.inComment then some { r with inComment := c ≠ '\n' }
  else if isBlank c then some r.endWord
  else if c = '(' then some r.endWord.openRow
  else if c = ')' then r.endWord.closeRow?
  else if c = ';' then some { r.endWord with inComment := true }
  else some { r with word := c :: r.word }

/-- The expressions of a text that ends here, if none of them is still open. -/
def finish (r : Reader) : Option (List Sexp) :=
  match r.outer with
  | [] => some r.endWord.row.reverse
  | _ :: _ => none

end Reader

/-- The expressions of a text, in order. -/
def ofChars? (cs : List Char) : Option (List Sexp) :=
  cs.foldlM Reader.step Reader.start >>= Reader.finish

/-- The expression that a text consists of. -/
def ofText? (s : String) : Option Sexp :=
  match ofChars? s.toList with
  | some [x] => some x
  | _ => none

end Hornbook.Sexp
