import Hornbook.Counterexample.Path
import Hornbook.Registry.Declarations

/-!
# Operations

Everything that can be asked of a registry, as data.  A run of a registry is then a
list of operations, and a statement about all runs is a statement about all lists.

A reset needs the number of the run that it begins.  `Registry.perform` is told that
number for every operation, and `Operation.runsBegun` says whether it is used up.
-/

namespace Hornbook

/-- Something to ask of a registry. -/
inductive Operation where
  | create (d : Declaration) (scope : Program.Scope)
  | lookup (name : String)
  | predicate (name : String)
  | get (id : PredicateId)
  | addVersion (id : PredicateId)
  | symbolAt (id : PredicateId) (version : Nat)
  /-- The newest version, applied. -/
  | apply (id : PredicateId) (args : List Expr)
  | applyAt (id : PredicateId) (version : Nat) (args : List Expr)
  /-- An application as a call. -/
  | call (id : PredicateId) (args : List String)
  /-- The values of the state variables in an application. -/
  | stateValues (id : PredicateId) (args : List String)
  /-- The state variables in an application, with their values. -/
  | state (id : PredicateId) (args : List String)
  | trace (path : List PathEntry)
  | entries
  | declarations
  | size
  | policy
  | reset

/-- What an operation answers. -/
inductive Answer where
  /-- Nothing but that it is done. -/
  | done
  | id (id : PredicateId)
  | predicate (p : Predicate)
  | symbol (f : FunSymbol)
  | expr (e : Expr)
  | text (s : String)
  | values (values : List String)
  | state (state : List Assignment)
  | trace (t : Trace)
  | entries (entries : List (PredicateId × Predicate))
  | script (s : Script)
  | size (n : Nat)
  | policy (policy : DuplicatePolicy)
  deriving DecidableEq

/-- How many runs an operation begins. -/
def Operation.runsBegun : Operation → Nat
  | reset => 1
  | _ => 0

namespace Registry

/-- Ask something of the predicate of an identity. -/
def asking {α : Type} (r : Registry) (id : PredicateId) (f : Predicate → Except Fault α) :
    Outcome α :=
  r.answering (r.get id >>= f)

/-- Carry out an operation.  A reset begins the run `fresh`. -/
def perform (r : Registry) (fresh : Nat) : Operation → Outcome Answer
  | .create d scope => (r.create d scope).map .id
  | .lookup name => (r.lookup name).map .id
  | .predicate name => (r.answering (r.predicate name)).map .predicate
  | .get id => (r.answering (r.get id)).map .predicate
  | .addVersion id => (r.addVersion id).map fun _ => .done
  | .symbolAt id version => (r.asking id (·.symbolAt version)).map .symbol
  | .apply id args => (r.asking id (·.apply args)).map .expr
  | .applyAt id version args => (r.asking id (·.applyAt version args)).map .expr
  | .call id args => (r.asking id (·.call args)).map .text
  | .stateValues id args => (r.asking id (·.stateValues args)).map .values
  | .state id args => (r.asking id (·.state args)).map .state
  | .trace path => (r.traceOf path).map .trace
  | .entries => r.answering (.ok (.entries r.entries))
  | .declarations => r.answering (.ok (.script r.declarations))
  | .size => r.answering (.ok (.size r.size))
  | .policy => r.answering (.ok (.policy r.policy))
  | .reset => (r.reset fresh).map fun _ => .done

end Registry

end Hornbook
