import Hornbook.Smt.Sort

/-!
# Terms

A term is untyped.  The symbols that the solver knows are grouped by shape.  A
connective takes any number of terms, a binary operator takes two, and the rest have
constructors of their own.

A connective of no terms is its neutral truth value, and an application to no terms is
its bare symbol.  A negative integer is the negation of a numeral.  A bit-vector
literal is printed as a numeral and a width, and `Term.bitPattern` says which numeral.

Nothing restricts names.  A term whose names are words of its own printer has a
printed form that reads as another term.
-/

namespace Hornbook

/-- A symbol that takes any number of truth values. -/
inductive Connective where
  | and
  | or
  deriving DecidableEq

/-- The symbol of a connective. -/
def Connective.word : Connective → String
  | and => "and"
  | or => "or"

/-- What a connective of no terms prints. -/
def Connective.neutralWord : Connective → String
  | and => "true"
  | or => "false"

/-- A symbol that takes two terms. -/
inductive BinaryOp where
  | implies
  | eq
  | add
  | sub
  | mul
  | lt
  | le
  | gt
  | ge
  | select
  deriving DecidableEq

/-- The symbol of a binary operator. -/
def BinaryOp.word : BinaryOp → String
  | implies => "=>"
  | eq => "="
  | add => "+"
  | sub => "-"
  | mul => "*"
  | lt => "<"
  | le => "<="
  | gt => ">"
  | ge => ">="
  | select => "select"

/-- A binder of sorted variables. -/
inductive Quantifier where
  | universal
  | existential
  deriving DecidableEq

/-- The symbol of a quantifier. -/
def Quantifier.word : Quantifier → String
  | universal => "forall"
  | existential => "exists"

/-- A term of the solver's language. -/
inductive Term where
  | bool (value : Bool)
  | int (value : Int)
  /-- A bit vector that stands for an integer, at a width. -/
  | bitVec (value : Int) (width : Nat)
  /-- A constant or a variable. -/
  | const (name : String)
  | not (t : Term)
  | connective (c : Connective) (ts : List Term)
  | binary (op : BinaryOp) (l r : Term)
  | ite (c t e : Term)
  /-- An array with one element replaced. -/
  | store (array index value : Term)
  | quantified (q : Quantifier) (vars : List (String × SmtSort)) (body : Term)
  | app (symbol : String) (args : List Term)

namespace Term

/-- The implication from `body` to `head`, closed over `vars` when there are any. -/
def hornRule (vars : List (String × SmtSort)) (body head : Term) : Term :=
  match vars with
  | [] => binary .implies body head
  | _ :: _ => quantified .universal vars (binary .implies body head)

/-- The symbol of an application. -/
def appSymbol? : Term → Option String
  | app symbol _ => some symbol
  | _ => none

/-! ## Printing -/

/-- The number of bit patterns of a width. -/
def patterns (width : Nat) : Nat := Nat.pow 2 width

/-- The numeral of a bit-vector literal, computed in 128 bits.  A negative value of a
width below 128 has the number of patterns of that width added once.  Every other value
is its own pattern. -/
def bitPattern (value : Int) (width : Nat) : Nat :=
  if value < 0 ∧ width < 128 then ((patterns width + value) % patterns 128).toNat
  else (value % patterns 128).toNat

/-- An integer as the solver reads it. -/
def intSexp : Int → Sexp
  | .ofNat n => .atom (toString n)
  | .negSucc n => .list [.atom "-", .atom (toString (n + 1))]

/-- A sorted variable as the solver reads it. -/
def binderSexp (x : String × SmtSort) : Sexp := .list [.atom x.1, x.2.toSexp]

mutual

/-- A term as the solver reads it. -/
def toSexp : Term → Sexp
  | bool true => .atom "true"
  | bool false => .atom "false"
  | int value => intSexp value
  | bitVec value width =>
      .list [.atom "_", .atom ("bv" ++ toString (bitPattern value width)), .atom (toString width)]
  | const name => .atom name
  | not t => .list [.atom "not", t.toSexp]
  | connective c [] => .atom c.neutralWord
  | connective c (t :: ts) => .list (.atom c.word :: t.toSexp :: toSexps ts)
  | binary op l r => .list [.atom op.word, l.toSexp, r.toSexp]
  | ite c t e => .list [.atom "ite", c.toSexp, t.toSexp, e.toSexp]
  | store array index value =>
      .list [.atom "store", array.toSexp, index.toSexp, value.toSexp]
  | quantified q vars body =>
      .list [.atom q.word, .list (vars.map binderSexp), body.toSexp]
  | app symbol [] => .atom symbol
  | app symbol (t :: ts) => .list (.atom symbol :: t.toSexp :: toSexps ts)
termination_by structural t => t

/-- Terms as the solver reads them, in order. -/
def toSexps : List Term → List Sexp
  | [] => []
  | t :: ts => t.toSexp :: toSexps ts
termination_by structural ts => ts

end

/-- The printed form of a term. -/
def text (t : Term) : String := t.toSexp.text

theorem toSexps_eq_map (ts : List Term) : toSexps ts = ts.map toSexp := by
  induction ts with
  | nil => rfl
  | cons t ts ih => rw [toSexps, ih, List.map_cons]

@[simp] theorem appSymbol?_hornRule (vars : List (String × SmtSort)) (body head : Term) :
    (hornRule vars body head).appSymbol? = none := by
  cases vars <;> rfl

end Term

end Hornbook
