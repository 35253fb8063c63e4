import Hornbook.Sexp.Reader
import Hornbook.Smt.Name
import Hornbook.Smt.Term

/-!
# Reading sorts and terms

An expression that a printer made is read back by what stands at its head.  A word that
the printer uses has a `Head`, and that decides what may follow it.  Every other head is
the name of a function.

What prints alike cannot be told apart.  A bare name is read as a constant, an empty
connective as a truth value, a bit pattern as the number it shows, and the name of a sort
as a datatype.
-/

namespace Hornbook

/-- The number that a numeral stands for. -/
def numeral? (cs : List Char) : Option Nat :=
  if cs ≠ [] ∧ cs.all Char.isDigit then some (Nat.ofDigitChars 10 cs 0) else none

/-! ## Sorts -/

namespace SmtSort

/-- The sort that a word stands for. -/
def ofWord? (w : String) : Option SmtSort :=
  if w = "Bool" then some bool
  else if w = "Int" then some int
  else if w = "Real" then some real
  else if IsSortName w then some (datatype w)
  else none

/-- The sort of bit vectors, from what follows its underscore. -/
def bitVec? : Sexp → Sexp → Option SmtSort
  | .atom w, .atom width => if w = "BitVec" then (numeral? width.toList).map bitVec else none
  | _, _ => none

/-- The sort that an expression stands for. -/
def ofSexp? : Sexp → Option SmtSort
  | .atom w => ofWord? w
  | .list [.atom head, x, y] =>
      if head = "_" then bitVec? x y
      else if head = "Array" then do return array (← ofSexp? x) (← ofSexp? y)
      else none
  | _ => none
termination_by structural x => x

end SmtSort

/-! ## Terms -/

/-- What a word of the printer asks for when it stands at the head of an expression. -/
inductive Head where
  /-- A bit vector. -/
  | literal
  | quantifier (q : Quantifier)
  | connective (c : Connective)
  | binary (op : BinaryOp)
  | not
  | ite
  | store

namespace Head

/-- The words that have heads. -/
def words : List (String × Head) :=
  [("_", literal), ("not", not), ("ite", ite), ("store", store)]
    ++ [Quantifier.universal, .existential].map (fun q => (q.word, quantifier q))
    ++ [Connective.and, .or].map (fun c => (c.word, connective c))
    ++ [BinaryOp.implies, .eq, .add, .sub, .mul, .lt, .le, .gt, .ge, .select].map
        (fun op => (op.word, binary op))

/-- The head of a word. -/
def ofWord? (w : String) : Option Head := words.lookup w

/-- The term of a head and the terms behind it. -/
def term? : Head → List Term → Option Term
  | connective c, t :: ts => some (.connective c (t :: ts))
  | binary op, [l, r] => some (.binary op l r)
  | not, [t] => some (.not t)
  | ite, [c, t, e] => some (.ite c t e)
  | store, [array, index, value] => some (.store array index value)
  | _, _ => none

end Head

namespace Term

/-- The term that a word stands for. -/
def ofWord? (w : String) : Option Term :=
  if w = "true" then some (bool true)
  else if w = "false" then some (bool false)
  else if IsName w then some (const w)
  else (numeral? w.toList).map fun n => int n

/-- The bit vector of a pattern and a width. -/
def literal? (pattern width : String) : Option Term :=
  match pattern.toList with
  | 'b' :: 'v' :: digits => do return bitVec (← numeral? digits) (← numeral? width.toList)
  | _ => none

/-- The application of a name. -/
def application? (symbol : String) (args : List Term) : Option Term :=
  if IsName symbol ∧ args ≠ [] then some (app symbol args) else none

/-- The sorted variable that an expression stands for. -/
def binder? : Sexp → Option (String × SmtSort)
  | .list [.atom x, sort] => if IsName x then do return (x, ← SmtSort.ofSexp? sort) else none
  | _ => none

mutual

/-- The term that an expression stands for. -/
def ofSexp? : Sexp → Option Term
  | .atom w => ofWord? w
  | .list (.atom w :: items) =>
      match Head.ofWord? w, items with
      | some .literal, [.atom pattern, .atom width] => literal? pattern width
      | some (.quantifier q), [.list vars, body] => do
          return quantified q (← vars.mapM binder?) (← ofSexp? body)
      | some (.binary .sub), [.atom n] => (numeral? n.toList).map fun n => int (-n)
      | some head, items => ofSexps? items >>= head.term?
      | none, items => ofSexps? items >>= application? w
  | .list _ => none
termination_by structural x => x

/-- The terms that expressions stand for, in order. -/
def ofSexps? : List Sexp → Option (List Term)
  | [] => some []
  | x :: xs => do return (← ofSexp? x) :: (← ofSexps? xs)
termination_by structural xs => xs

end

/-- The term that a text denotes. -/
def ofText? (s : String) : Option Term := Sexp.ofText? s >>= ofSexp?

end Term

end Hornbook
