import Hornbook.Predicate.Basic

/-!
# Classification

A predicate's role and the kind of its node decide what it is: a summary of one call,
the interface of a contract, or neither.  The name of a predicate plays no part.

A role that speaks of contracts or functions on a node of another kind is a mistake
that does no harm.  The predicate stays unclassified, and `Predicate.RoleMismatch` says
that this happened.  The nondeterministic interface of a contract is unclassified too,
but it is no mistake.
-/

namespace Hornbook

/-- What a summary summarises. -/
inductive SummarySubject where
  /-- A function of the program, constructors included. -/
  | function (f : Program.Function)
  /-- The constructor of a contract that declares none. -/
  | implicitConstructor (c : Program.Contract)
  deriving DecidableEq

/-- What a predicate is. -/
inductive Classification where
  /-- A summary of one call. -/
  | summary (subject : SummarySubject)
  /-- The interface of a contract. -/
  | interface (c : Program.Contract)
  /-- Neither. -/
  | unclassified
  deriving DecidableEq

/-- What a predicate of a given role and node is. -/
def Classification.of : Role → Program.Node → Classification
  | .functionSummary, .function f => .summary (.function f)
  | .constructorSummary, .function f => .summary (.function f)
  | .constructorSummary, .contract c => .summary (.implicitConstructor c)
  | .interface, .contract c => .interface c
  | _, _ => .unclassified

/-- Whether a role speaks of contracts or functions. -/
def Role.expectsNode : Role → Bool
  | interface => true
  | nondetInterface => true
  | constructorSummary => true
  | functionSummary => true
  | functionBlock => false
  | error => false
  | custom => false

namespace Predicate

/-- What a predicate is. -/
def classification (p : Predicate) : Classification := .of p.role p.node

/-- The contract that a predicate stands for. -/
def contract? (p : Predicate) : Option Program.Contract :=
  match p.node with
  | .contract c => some c
  | _ => none

/-- The function that a predicate stands for. -/
def function? (p : Predicate) : Option Program.Function :=
  match p.node with
  | .function f => some f
  | _ => none

/-- Whether a predicate is a summary. -/
def isSummary (p : Predicate) : Bool :=
  match p.classification with
  | .summary _ => true
  | _ => false

/-- Whether a predicate is the interface of a contract. -/
def isInterface (p : Predicate) : Bool :=
  match p.classification with
  | .interface _ => true
  | _ => false

/-- Whether a predicate is the nondeterministic interface of a contract. -/
def isNondetInterface (p : Predicate) : Bool :=
  p.role = .nondetInterface ∧ p.node.kind = .contract

/-- Whether a predicate is the summary of a constructor. -/
def isConstructorSummary (p : Predicate) : Bool :=
  match p.classification with
  | .summary (.implicitConstructor _) => true
  | .summary (.function f) => f.isConstructor
  | _ => false

/-- The role of a predicate speaks of another kind of node than it has. -/
def RoleMismatch (p : Predicate) : Prop :=
  p.role.expectsNode ∧ ¬ p.isNondetInterface ∧ p.classification = .unclassified

instance (p : Predicate) : Decidable p.RoleMismatch := inferInstanceAs (Decidable (_ ∧ _))

end Predicate

end Hornbook
