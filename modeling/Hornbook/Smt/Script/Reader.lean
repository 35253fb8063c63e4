import Hornbook.Smt.Reader
import Hornbook.Smt.Script

/-!
# Reading scripts

A printed script is read line by line, one command on each.  A line is a comment if it
begins as comments are printed.  Every other line has to be a single expression, and the
word at its head and the number of expressions behind that say which command it is.

The name that a line declares is found without reading the rest of the line as sorts.
-/

namespace Hornbook

/-- The lines of a text.  A line break at the end has an empty line behind it. -/
def textLines (s : String) : List String := (s.toList.splitOn '\n').map String.ofList

/-- The signature that a row of argument sorts and a result sort stand for. -/
def Signature.ofSexps? (domain : List Sexp) (codomain : Sexp) : Option Signature := do
  return ⟨← domain.mapM SmtSort.ofSexp?, ← SmtSort.ofSexp? codomain⟩

namespace Command

/-- The choice of a logic. -/
def logic? : Sexp → Option Command
  | .atom logic => some (setLogic logic)
  | .list _ => none

/-- The setting of an option, whose key is written with a colon in front. -/
def option? (key value : String) : Option Command :=
  match key.toList with
  | ':' :: cs => some (setOption (String.ofList cs) value)
  | _ => none

/-- The command that an expression stands for. -/
def ofSexp? : Sexp → Option Command
  | .list [.atom head] =>
      [("check-sat", checkSat), ("get-model", getModel), ("exit", exit)].lookup head
  | .list [.atom head, x] =>
      if head = "set-logic" then logic? x
      else if head = "assert" then (Term.ofSexp? x).map assert
      else none
  | .list [.atom head, .atom key, .atom value] =>
      if head = "set-option" then option? key value else none
  | .list [.atom head, .atom name, .list domain, codomain] =>
      if head = "declare-fun" then
        (Signature.ofSexps? domain codomain).map fun signature => declareFun ⟨name, signature⟩
      else none
  | _ => none

/-- The command that a line consists of. -/
def ofLine? (line : String) : Option Command :=
  match line.toList with
  | ';' :: ';' :: ' ' :: text => some (comment (String.ofList text))
  | _ => Sexp.ofText? line >>= ofSexp?

/-- The name that an expression declares, if it is a declaration. -/
def declaredIn? : Sexp → Option String
  | .list (.atom head :: .atom name :: _) => if head = "declare-fun" then some name else none
  | _ => none

/-- The name that a line declares, if it is a declaration. -/
def declaredName? (line : String) : Option String := Sexp.ofText? line >>= declaredIn?

end Command

end Hornbook
