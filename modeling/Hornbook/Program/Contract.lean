import Hornbook.Smt.Sort

/-!
# Contracts and functions

The part of a program that predicates speak about.  A declaration has an identity
that the front end gave it, and nothing here gives out identities.

A contract lists its base contracts.  It inherits the variables that its bases declare
themselves.  What a base inherits in turn is not looked up, because the list of bases
is complete when it is made.
-/

namespace Hornbook.Program

/-- The identity of a declaration. -/
structure NodeId where
  /-- The number that the front end gave. -/
  number : Nat
  deriving DecidableEq

/-- The printed form of an identity, such as `#7`. -/
def NodeId.text (id : NodeId) : String := "#" ++ toString id.number

/-- A declared variable. -/
structure Variable where
  id : NodeId
  name : String
  sort : SmtSort
  deriving DecidableEq

/-- A contract. -/
structure Contract where
  id : NodeId
  name : String
  /-- The state variables it declares itself, in order. -/
  ownVariables : List Variable
  /-- Its base contracts, the most basic first. -/
  bases : List Contract

/-- The state variables of a contract, those of its bases first. -/
def Contract.allVariables (c : Contract) : List Variable :=
  c.bases.flatMap (fun base => base.ownVariables) ++ c.ownVariables

/-- What sort of function a function is. -/
inductive FunctionKind where
  | function
  | constructor
  /-- The function that takes calls no other takes. -/
  | fallback
  /-- The function that takes plain transfers. -/
  | receive
  deriving DecidableEq

/-- A function. -/
structure Function where
  id : NodeId
  name : String
  kind : FunctionKind
  /-- The name of the contract that defines it.  A free function has none. -/
  contract : Option String
  parameters : List Variable
  returns : List Variable
  deriving DecidableEq

/-- The name a reader sees: its own name for a function, and the word for its kind
otherwise. -/
def Function.displayName (f : Function) : String :=
  match f.kind with
  | .function => f.name
  | .constructor => "constructor"
  | .fallback => "fallback"
  | .receive => "receive"

/-- Whether a function is a constructor. -/
def Function.isConstructor (f : Function) : Bool := f.kind = .constructor

/-! ## Equality of contracts -/

namespace Contract

mutual

/-- Whether two contracts are the same in every part, bases included. -/
def same : Contract → Contract → Bool
  | ⟨i, n, vs, bs⟩, ⟨j, m, ws, cs⟩ => i == j && n == m && vs == ws && sames bs cs
termination_by structural c => c

/-- Whether two lists of contracts are the same in every part. -/
def sames : List Contract → List Contract → Bool
  | [], [] => true
  | b :: bs, c :: cs => b.same c && sames bs cs
  | _, _ => false
termination_by structural bs => bs

end

mutual

theorem same_iff : ∀ b c : Contract, b.same c = true ↔ b = c
  | ⟨_, _, _, bs⟩, ⟨_, _, _, cs⟩ => by simp [same, sames_iff bs cs, and_assoc]

theorem sames_iff : ∀ bs cs : List Contract, sames bs cs = true ↔ bs = cs
  | [], cs => by cases cs <;> simp [sames]
  | b :: bs, cs => by cases cs <;> simp [sames, same_iff b, sames_iff bs]

end

instance : DecidableEq Contract := fun b c => decidable_of_iff _ (same_iff b c)

end Contract

end Hornbook.Program
