import Hornbook.Smt.Symbol

/-!
# Identities and faults

A predicate has an identity, which is a position in a run of a registry.  A run ends
when its registry is reset, and no two runs have the same number.

Every way in which an operation on predicates can fail is a constructor of `Fault`.
The wording of each stands in `Fault.message` and nowhere else.
-/

namespace Hornbook

/-- The identity of a predicate. -/
structure PredicateId where
  /-- The run that issued the identity. -/
  run : Nat
  /-- The position of the predicate in its run, in order of creation. -/
  index : Nat
  deriving DecidableEq

/-- The printed form of an identity, such as `P0@run1`. -/
def PredicateId.text (id : PredicateId) : String :=
  "P" ++ toString id.index ++ "@run" ++ toString id.run

/-- Why an operation on predicates failed. -/
inductive Fault where
  | duplicateName (name : String)
  | notFound (name : String)
  /-- The identity belongs to another run. -/
  | stale (id : PredicateId)
  | invalidVersion (name : String) (version latest : Nat)
  | arityMismatch (name : String) (expected actual : Nat)
  /-- The argument at a position has the wrong sort. -/
  | sortMismatch (name : String) (position : Nat) (expected actual : SmtSort)
  /-- The predicate has no state variables to speak of. -/
  | noStateScope (name : String)
  /-- The state variables do not fit behind the offset. -/
  | invalidStateLayout (name : String) (offset count arity : Nat)
  deriving DecidableEq

namespace Fault

/-- A name as messages quote it. -/
def quoted (name : String) : String := "predicate `" ++ name ++ "`"

/-- The wording of a fault. -/
def message : Fault → String
  | duplicateName name => quoted name ++ " already exists in this run"
  | notFound name => "no predicate named `" ++ name ++ "`"
  | stale id => "predicate identity " ++ id.text ++ " was issued by another registry run"
  | invalidVersion name version latest =>
      quoted name ++ " has no version " ++ toString version
        ++ " (latest is " ++ toString latest ++ ")"
  | arityMismatch name expected actual =>
      "arity mismatch for " ++ quoted name ++ ": expected " ++ toString expected
        ++ ", got " ++ toString actual
  | sortMismatch name position expected actual =>
      "sort mismatch for " ++ quoted name ++ " at argument " ++ toString position
        ++ ": expected " ++ expected.text ++ ", got " ++ actual.text
  | noStateScope name => quoted name ++ " has no state-variable scope"
  | invalidStateLayout name offset count arity =>
      quoted name ++ ": " ++ toString count ++ " state variables at offset "
        ++ toString offset ++ " do not fit in arity " ++ toString arity

/-- The fault of a predicate whose symbol did not apply. -/
def ofApplication (name : String) : ApplicationFault → Fault
  | .arity expected actual => arityMismatch name expected actual
  | .sort position expected actual => sortMismatch name position expected actual

end Fault

end Hornbook
