import Hornbook.Sexp

/-!
# Sorts and signatures

A sort is the type of a value in the solver.  A signature is what a function symbol
takes and gives.  Horn systems use relations, which are signatures into `Bool`, but
nothing here depends on that.

Two sorts are equal when they are built alike.  A datatype and an uninterpreted sort
of one name are different sorts, although they print the same word.
-/

namespace Hornbook

/-- The sort of a value. -/
inductive SmtSort where
  | bool
  | int
  | real
  | bitVec (width : Nat)
  | array (index element : SmtSort)
  /-- A datatype that is declared elsewhere. -/
  | datatype (name : String)
  /-- A sort about which nothing is known. -/
  | uninterpreted (name : String)
  deriving DecidableEq

namespace SmtSort

/-- A sort as the solver reads it. -/
def toSexp : SmtSort → Sexp
  | bool => .atom "Bool"
  | int => .atom "Int"
  | real => .atom "Real"
  | bitVec width => .list [.atom "_", .atom "BitVec", .atom (toString width)]
  | array index element => .list [.atom "Array", index.toSexp, element.toSexp]
  | datatype name => .atom name
  | uninterpreted name => .atom name

/-- The printed form of a sort. -/
def text (s : SmtSort) : String := s.toSexp.text

end SmtSort

/-- What a function symbol takes, in order, and what it gives. -/
structure Signature where
  domain : List SmtSort
  codomain : SmtSort
  deriving DecidableEq

namespace Signature

/-- The signature of a relation. -/
def relation (domain : List SmtSort) : Signature := ⟨domain, .bool⟩

/-- The number of arguments. -/
def arity (sig : Signature) : Nat := sig.domain.length

/-- The two expressions of a signature: the row of argument sorts, then the result sort. -/
def toSexps (sig : Signature) : List Sexp :=
  [.list (sig.domain.map SmtSort.toSexp), sig.codomain.toSexp]

/-- The printed form of a signature, such as `(Int Bool) Bool`. -/
def text (sig : Signature) : String := Sexp.rowText sig.toSexps

@[simp] theorem arity_relation (domain : List SmtSort) :
    (relation domain).arity = domain.length := rfl

@[simp] theorem codomain_relation (domain : List SmtSort) :
    (relation domain).codomain = .bool := rfl

end Signature

end Hornbook
