import Hornbook.Predicate.Classification

/-!
# Calls and states

A solver reports a counterexample as predicates applied to values, and each value is a
text.  The position of a value is all that connects it to the program.  A summary reads
as a call of what it summarises.  Its state is the block of values that starts at its
state offset, one value for each of its state variables.

Each of these operations checks the number of arguments before anything else.
-/

namespace Hornbook

/-- A state variable and its value. -/
structure Assignment where
  name : String
  value : String
  deriving DecidableEq

namespace Predicate

/-- What an application of a predicate seems to call. -/
def callTarget (p : Predicate) : String :=
  match p.node with
  | .function f =>
      match f.contract with
      | some contract => contract ++ "." ++ f.displayName
      | none => f.displayName
  | .contract c =>
      if p.role = .constructorSummary then c.name ++ ".constructor"
      else c.name ++ "." ++ p.role.word
  | .other site => site.label
  | .none => p.name

/-- The fault of a predicate that is given the wrong number of arguments. -/
def arityFault (p : Predicate) (args : List String) : Fault :=
  .arityMismatch p.name p.arity args.length

/-- An application of a predicate, written as a call. -/
def call (p : Predicate) (args : List String) : Except Fault String :=
  if args.length = p.arity then .ok (p.callTarget ++ "(" ++ ", ".intercalate args ++ ")")
  else .error (p.arityFault args)

/-- The values of the state variables in an application of a predicate. -/
def stateValues (p : Predicate) (args : List String) : Except Fault (List String) :=
  if args.length = p.arity then
    match p.stateVariables with
    | none => .error (.noStateScope p.name)
    | some vars =>
        if blockFits p.stateOffset vars.length args.length then
          .ok ((args.drop p.stateOffset).take vars.length)
        else .error (.invalidStateLayout p.name p.stateOffset vars.length p.arity)
  else .error (p.arityFault args)

/-- The state variables in an application of a predicate, with their values. -/
def state (p : Predicate) (args : List String) : Except Fault (List Assignment) := do
  let values ← p.stateValues args
  return List.zipWith (fun x value => ⟨x.name, value⟩) (p.stateVariables.getD []) values

end Predicate

end Hornbook
