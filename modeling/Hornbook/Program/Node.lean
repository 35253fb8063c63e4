import Hornbook.Program.Contract

/-!
# Program nodes and scopes

A program node is what a predicate stands for: a contract, a function, some other site
in the program, or nothing in particular.  Two nodes are the same node when they are of
one kind and have one identity.  Their contents are not compared.

A scope answers which state variables are visible at a node, or that it does not know.
Only contracts and functions have state, so a scope is only ever asked about them.  What
is computed from its answers comes with the questions that were asked for it (`Asked`).
-/

namespace Hornbook.Program

/-- A site in a program that is neither a contract nor a function. -/
structure Site where
  id : NodeId
  /-- What a reader sees. -/
  label : String
  deriving DecidableEq

/-- What a predicate stands for. -/
inductive Node where
  /-- Nothing in particular. -/
  | none
  | contract (c : Contract)
  | function (f : Function)
  /-- Some other site. -/
  | other (s : Site)
  deriving DecidableEq

/-- The kind of a node. -/
inductive NodeKind where
  | none
  | contract
  | function
  | other
  deriving DecidableEq

/-- The word for a kind of node. -/
def NodeKind.word : NodeKind → String
  | none => "None"
  | contract => "Contract"
  | function => "Function"
  | other => "Other"

/-- Whether nodes of a kind have state variables. -/
def NodeKind.hasState : NodeKind → Bool
  | contract => true
  | function => true
  | none => false
  | other => false

namespace Node

/-- The kind of a node. -/
def kind : Node → NodeKind
  | .none => .none
  | .contract _ => .contract
  | .function _ => .function
  | .other _ => .other

/-- The identity of a node. -/
def id? : Node → Option NodeId
  | .none => .none
  | .contract c => some c.id
  | .function f => some f.id
  | .other s => some s.id

/-- The name of a node. -/
def name? : Node → Option String
  | .none => .none
  | .contract c => some c.name
  | .function f => some f.displayName
  | .other s => some s.label

/-- Same kind and same identity. -/
def Same (a b : Node) : Prop := a.kind = b.kind ∧ a.id? = b.id?

instance (a b : Node) : Decidable (a.Same b) := inferInstanceAs (Decidable (_ ∧ _))

theorem Same.refl (a : Node) : a.Same a := ⟨rfl, rfl⟩

theorem Same.symm {a b : Node} (h : a.Same b) : b.Same a := ⟨h.1.symm, h.2.symm⟩

theorem Same.trans {a b c : Node} (h : a.Same b) (h' : b.Same c) : a.Same c :=
  ⟨h.1.trans h'.1, h.2.trans h'.2⟩

end Node

/-- Which state variables are visible at a node. -/
abbrev Scope := Node → Option (List Variable)

/-- A value, and the nodes that a scope was asked about for it, in order. -/
structure Asked (α : Type) where
  value : α
  questions : List Node

namespace Asked

variable {α β : Type}

/-- A value for which nothing was asked. -/
def unasked (a : α) : Asked α := ⟨a, []⟩

/-- What is computed from a value without another question. -/
def map (f : α → β) (asked : Asked α) : Asked β := { asked with value := f asked.value }

end Asked

/-- Ask a scope about a node. -/
def Scope.ask (scope : Scope) (node : Node) : Asked (Option (List Variable)) :=
  ⟨scope node, [node]⟩

/-- The scope while a contract is being encoded, or before any is.  A contract sees its
own state.  A function sees the state of the contract being encoded, whichever contract
defines it. -/
def Scope.ofContract (current : Option Contract) : Scope
  | .contract c => some c.allVariables
  | .function _ => some ((current.map Contract.allVariables).getD [])
  | .other _ => none
  | .none => none

end Hornbook.Program
