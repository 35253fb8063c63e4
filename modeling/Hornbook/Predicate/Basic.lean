import Hornbook.Predicate.Fault
import Hornbook.Program.Node

/-!
# Predicates

A predicate is a versioned symbol that stands for a program node in some role.  It
remembers the state variables that were visible at its node when it was made, and the
position of the first of them among its arguments.

A declaration asks for a predicate.  Its node decides whether there is a question to
the scope at all.  There is at most one (`Declaration.askVariables`), and the check of the
layout and the predicate are both made from the one answer (`Declaration.buildWith`).  A
scope that does not know counts as one that sees no variable.  A declaration is refused
only when its state variables, laid out from its offset, reach past its arity.

Positions are counted in 64 bits.  A block of arguments whose end cannot be counted is
too long for any arity (`blockFits`).
-/

namespace Hornbook

/-- The part that a predicate plays in an encoding. -/
inductive Role where
  /-- The states of a contract between transactions. -/
  | interface
  /-- The states of a contract under calls that nobody controls. -/
  | nondetInterface
  /-- What a constructor does. -/
  | constructorSummary
  /-- What a function does. -/
  | functionSummary
  /-- A junction inside a function body. -/
  | functionBlock
  /-- The target that a property check reaches. -/
  | error
  /-- Any other part. -/
  | custom
  deriving DecidableEq

/-- The word for a role. -/
def Role.word : Role → String
  | interface => "interface"
  | nondetInterface => "nondet_interface"
  | constructorSummary => "constructor_summary"
  | functionSummary => "function_summary"
  | functionBlock => "block"
  | error => "error"
  | custom => "custom"

/-- What is needed to make a predicate. -/
structure Declaration where
  name : String
  signature : Signature
  role : Role
  node : Program.Node
  /-- The position of the first state variable among its arguments. -/
  stateOffset : Nat

/-- A predicate. -/
structure Predicate where
  /-- Its symbol, with all versions. -/
  symbol : VersionedSymbol
  role : Role
  node : Program.Node
  /-- The state variables that were visible at its node, if its node has state. -/
  stateVariables : Option (List Program.Variable)
  /-- The position of the first state variable among its arguments. -/
  stateOffset : Nat
  deriving DecidableEq

/-! ## Blocks of arguments -/

/-- The position behind `count` arguments that start at `offset`, if 64 bits can hold it. -/
def blockEnd? (offset count : Nat) : Option Nat :=
  if offset + count < UInt64.size then some (offset + count) else none

/-- Whether `count` arguments that start at `offset` end among `arity` ones. -/
def blockFits (offset count arity : Nat) : Bool := (blockEnd? offset count).any (· ≤ arity)

theorem blockFits_iff {offset count arity : Nat} :
    blockFits offset count arity = true ↔
      offset + count < UInt64.size ∧ offset + count ≤ arity := by
  unfold blockFits blockEnd?
  split
  next counted => simp [counted]
  next uncounted => simp [uncounted]

/-- With an arity of 64 bits, a block fits exactly when its end does. -/
theorem blockFits_iff_le {offset count arity : Nat} (bound : arity < UInt64.size) :
    blockFits offset count arity = true ↔ offset + count ≤ arity := by
  rw [blockFits_iff]
  omega

/-! ## What a predicate tells -/

namespace Predicate

/-- The name of a predicate, without a version. -/
def name (p : Predicate) : String := p.symbol.name

/-- The signature of every version of a predicate. -/
def signature (p : Predicate) : Signature := p.symbol.signature

/-- The number of arguments of a predicate. -/
def arity (p : Predicate) : Nat := p.signature.arity

/-- The newest version of a predicate. -/
def latest (p : Predicate) : Nat := p.symbol.latest

/-- The printed form of a predicate. -/
def text (p : Predicate) : String := p.name ++ " " ++ p.signature.text

/-- A predicate with one more version. -/
def addVersion (p : Predicate) : Predicate := { p with symbol := p.symbol.addVersion }

/-- The function symbol of one version of a predicate. -/
def symbolAt (p : Predicate) (version : Nat) : Except Fault FunSymbol :=
  match p.symbol.version? version with
  | some f => .ok f
  | none => .error (.invalidVersion p.name version p.latest)

/-- A symbol of a predicate, applied.  A fault names the predicate. -/
def applySymbol (p : Predicate) (f : FunSymbol) (args : List Expr) : Except Fault Expr :=
  (f.apply args).mapError (Fault.ofApplication p.name)

/-- The newest version of a predicate, applied. -/
def apply (p : Predicate) (args : List Expr) : Except Fault Expr :=
  p.applySymbol p.symbol.newest args

/-- One version of a predicate, applied. -/
def applyAt (p : Predicate) (version : Nat) (args : List Expr) : Except Fault Expr := do
  p.applySymbol (← p.symbolAt version) args

/-- Whether a predicate is what a declaration asks for, names aside.  Nodes count as
equal when they are the same node. -/
def Matches (p : Predicate) (d : Declaration) : Prop :=
  p.signature = d.signature ∧ p.role = d.role ∧ p.stateOffset = d.stateOffset ∧ p.node.Same d.node

instance (p : Predicate) (d : Declaration) : Decidable (p.Matches d) :=
  inferInstanceAs (Decidable (_ ∧ _))

@[simp] theorem name_addVersion (p : Predicate) : p.addVersion.name = p.name := rfl

@[simp] theorem signature_addVersion (p : Predicate) : p.addVersion.signature = p.signature := rfl

@[simp] theorem latest_addVersion (p : Predicate) : p.addVersion.latest = p.latest + 1 := rfl

end Predicate

/-! ## From a declaration to a predicate -/

namespace Declaration

/-- The predicate that a declaration describes with these state variables, fit or not. -/
def predicateWith (d : Declaration) (vars : Option (List Program.Variable)) : Predicate where
  symbol := ⟨d.name, d.signature, 0⟩
  role := d.role
  node := d.node
  stateVariables := vars
  stateOffset := d.stateOffset

/-- The predicate that a declaration describes, if these state variables fit. -/
def buildWith (d : Declaration) : Option (List Program.Variable) → Except Fault Predicate
  | some vars =>
      if blockFits d.stateOffset vars.length d.signature.arity then
        .ok (d.predicateWith (some vars))
      else .error (.invalidStateLayout d.name d.stateOffset vars.length d.signature.arity)
  | none => .ok (d.predicateWith none)

/-- The state variables that a declaration gets from a scope. -/
def askVariables (d : Declaration) (scope : Program.Scope) :
    Program.Asked (Option (List Program.Variable)) :=
  if d.node.kind.hasState then (scope.ask d.node).map fun vars => some (vars.getD [])
  else .unasked none

/-- The predicate that a declaration asks for, if its state variables fit. -/
def askPredicate (d : Declaration) (scope : Program.Scope) :
    Program.Asked (Except Fault Predicate) :=
  (d.askVariables scope).map d.buildWith

/-- The state variables of a declaration in a scope, whatever was asked. -/
def stateVariables (d : Declaration) (scope : Program.Scope) : Option (List Program.Variable) :=
  (d.askVariables scope).value

/-- The predicate that a declaration describes in a scope, fit or not. -/
def predicate (d : Declaration) (scope : Program.Scope) : Predicate :=
  d.predicateWith (d.stateVariables scope)

/-- The predicate of a declaration in a scope, whatever was asked. -/
def build (d : Declaration) (scope : Program.Scope) : Except Fault Predicate :=
  (d.askPredicate scope).value

theorem build_eq_buildWith (d : Declaration) (scope : Program.Scope) :
    d.build scope = d.buildWith (d.stateVariables scope) := rfl

end Declaration

end Hornbook
