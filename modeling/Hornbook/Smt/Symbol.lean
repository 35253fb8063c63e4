import Hornbook.Smt.Expr

/-!
# Function symbols and their versions

A function symbol is a name with a signature.  Applying it checks the number of
arguments first and then their sorts from left to right.  `FunSymbol.apply` either
builds the application or says which check failed.

A versioned symbol is a base name with a growing number of versions.  Version `i` is
the function symbol whose name is the base name, an underscore and the numeral of `i`.
All versions share one signature.  Version 0 is there from the start, and a version
once there stays.
-/

namespace Hornbook

/-- A function symbol. -/
structure FunSymbol where
  name : String
  signature : Signature
  deriving DecidableEq

/-- Why a function symbol does not apply to a list of arguments. -/
inductive ApplicationFault where
  | arity (expected actual : Nat)
  /-- The argument at a position has the wrong sort. -/
  | sort (position : Nat) (expected actual : SmtSort)
  deriving DecidableEq

/-- The wording of an application fault. -/
def ApplicationFault.message : ApplicationFault → String
  | arity expected actual =>
      "expected " ++ toString expected ++ " arguments, got " ++ toString actual
  | sort position expected actual =>
      "argument " ++ toString position ++ " has sort " ++ actual.text
        ++ ", expected " ++ expected.text

namespace FunSymbol

/-- The fault at the first argument without the expected sort.  Positions are counted
from `position`. -/
def mismatch? (position : Nat) : List SmtSort → List Expr → Option ApplicationFault
  | expected :: sorts, arg :: args =>
      if arg.sort = expected then mismatch? (position + 1) sorts args
      else some (.sort position expected arg.sort)
  | _, _ => none

/-- The application of a symbol to arguments, if their number and sorts are right. -/
def apply (f : FunSymbol) (args : List Expr) : Except ApplicationFault Expr :=
  if args.length = f.signature.arity then
    match mismatch? 0 f.signature.domain args with
    | some fault => .error fault
    | none => .ok ⟨.app f.name (args.map Expr.term), f.signature.codomain⟩
  else .error (.arity f.signature.arity args.length)

end FunSymbol

/-- A function symbol with versions. -/
structure VersionedSymbol where
  /-- The base name. -/
  name : String
  /-- The signature of every version. -/
  signature : Signature
  /-- The newest version. -/
  latest : Nat := 0
  deriving DecidableEq

namespace VersionedSymbol

/-- The function symbol of version `i`, whether or not that version is there. -/
def version (f : VersionedSymbol) (i : Nat) : FunSymbol :=
  ⟨f.name ++ "_" ++ toString i, f.signature⟩

/-- The function symbol of version `i`, if that version is there. -/
def version? (f : VersionedSymbol) (i : Nat) : Option FunSymbol :=
  if i ≤ f.latest then some (f.version i) else none

/-- The function symbol of the newest version. -/
def newest (f : VersionedSymbol) : FunSymbol := f.version f.latest

/-- Every version, oldest first. -/
def versions (f : VersionedSymbol) : List FunSymbol :=
  (List.range (f.latest + 1)).map f.version

/-- The symbol with one more version. -/
def addVersion (f : VersionedSymbol) : VersionedSymbol := { f with latest := f.latest + 1 }

@[simp] theorem length_versions (f : VersionedSymbol) : f.versions.length = f.latest + 1 := by
  simp [versions]

/-- Adding a version puts one symbol behind the others. -/
theorem versions_addVersion (f : VersionedSymbol) :
    f.addVersion.versions = f.versions ++ [f.version (f.latest + 1)] := by
  simp [versions, addVersion, version, List.range_succ]

end VersionedSymbol

end Hornbook
