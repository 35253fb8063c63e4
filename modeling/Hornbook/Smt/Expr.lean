import Hornbook.Smt.Term.Equality

/-!
# Expressions

A term does not know its sort.  An expression is a term together with the sort that
its maker claims for it.  The claim is not checked.  What is checked is that an
argument's claimed sort is the one that a function symbol expects.
-/

namespace Hornbook

/-- A term and its sort. -/
structure Expr where
  term : Term
  /-- The sort the term is taken to have. -/
  sort : SmtSort
  deriving DecidableEq

namespace Expr

/-- A truth value. -/
def bool (value : Bool) : Expr := ⟨.bool value, .bool⟩

/-- An integer. -/
def int (value : Int) : Expr := ⟨.int value, .int⟩

/-- A bit vector. -/
def bitVec (value : Int) (width : Nat) : Expr := ⟨.bitVec value width, .bitVec width⟩

/-- A constant or variable of a given sort. -/
def const (name : String) (sort : SmtSort) : Expr := ⟨.const name, sort⟩

/-- The printed form of an expression is that of its term. -/
def text (e : Expr) : String := e.term.text

end Expr

end Hornbook
