/-!
# S-expressions

Every sort, term and command that a solver reads is printed as an S-expression.
A printer in this library has two halves.  The first half maps the domain type to
`Sexp`.  The second half is `Sexp.text`, shared by all of them.

An atom is printed as it stands.  Nothing is quoted and nothing is checked, so an
atom with a blank or a parenthesis in it prints as if it were more than one.  The
printed form is a list of characters until the last moment, so that statements
about it are statements about lists.
-/

namespace Hornbook

/-- A tree of words. -/
inductive Sexp where
  /-- A word, printed as it stands. -/
  | atom (word : String)
  /-- A parenthesised row of expressions. -/
  | list (items : List Sexp)

namespace Sexp

mutual

/-- The characters of an expression. -/
def chars : Sexp → List Char
  | .atom word => word.toList
  | .list items => '(' :: (rowChars items ++ [')'])
termination_by structural x => x

/-- The characters of a row of expressions, one blank between neighbours. -/
def rowChars : List Sexp → List Char
  | [] => []
  | x :: rest => x.chars ++ tailChars rest
termination_by structural xs => xs

/-- The characters of the rest of a row, one blank in front of each expression. -/
def tailChars : List Sexp → List Char
  | [] => []
  | x :: rest => ' ' :: (x.chars ++ tailChars rest)
termination_by structural xs => xs

end

/-- The printed form of an expression. -/
def text (x : Sexp) : String := String.ofList x.chars

/-- The printed form of a row of expressions. -/
def rowText (xs : List Sexp) : String := String.ofList (rowChars xs)

/-! ## Equations -/

@[simp] theorem chars_atom (word : String) : (atom word).chars = word.toList := rfl

@[simp] theorem chars_list (items : List Sexp) :
    (list items).chars = '(' :: (rowChars items ++ [')']) := rfl

@[simp] theorem rowChars_nil : rowChars [] = [] := rfl

@[simp] theorem rowChars_cons (x : Sexp) (rest : List Sexp) :
    rowChars (x :: rest) = x.chars ++ tailChars rest := rfl

@[simp] theorem tailChars_nil : tailChars [] = [] := rfl

@[simp] theorem tailChars_cons (x : Sexp) (rest : List Sexp) :
    tailChars (x :: rest) = ' ' :: (x.chars ++ tailChars rest) := rfl

@[simp] theorem toList_text (x : Sexp) : x.text.toList = x.chars := String.toList_ofList

@[simp] theorem toList_rowText (xs : List Sexp) : (rowText xs).toList = rowChars xs :=
  String.toList_ofList

/-- An atom prints as its word. -/
@[simp] theorem text_atom (word : String) : (atom word).text = word := String.ofList_toList

example : (list [atom "f", list [], list [atom "x", atom "Int"]]).chars
    = "(f () (x Int))".toList := by decide

end Sexp

end Hornbook
