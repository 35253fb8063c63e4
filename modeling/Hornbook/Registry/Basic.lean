import Hornbook.Event

/-!
# Registries

A registry holds predicates in the order in which they were made.  The position of a
predicate is its identity within the run, and no operation but `reset` removes or moves
one.  Each operation gives an `Outcome`, which is the answer, the registry afterwards,
what was logged and what the scope was asked.

The names in a registry are distinct.  That is not written into the type.  It holds
because `create` adds a predicate only under a name that `find?` does not know.
-/

namespace Hornbook

/-- The predicates of one run. -/
structure Registry where
  /-- What to do with a name that is taken. -/
  policy : DuplicatePolicy
  run : Nat
  /-- The predicates, oldest first. -/
  predicates : List Predicate
  deriving DecidableEq

/-- What an operation on a registry comes to. -/
structure Outcome (α : Type) where
  /-- The answer, or the reason why there is none. -/
  answer : Except Fault α
  /-- The registry afterwards. -/
  registry : Registry
  /-- What was logged, oldest first. -/
  events : List Event := []
  /-- The nodes that the scope was asked about, in order. -/
  questions : List Program.Node := []

/-- The outcome with its answer seen as something else. -/
def Outcome.map {α β : Type} (f : α → β) (o : Outcome α) : Outcome β :=
  { o with answer := o.answer.map f }

namespace Registry

/-- A registry at the start of a run. -/
def start (policy : DuplicatePolicy) (run : Nat) : Registry := ⟨policy, run, []⟩

/-- The number of predicates. -/
def size (r : Registry) : Nat := r.predicates.length

/-- The identity of the predicate at a position. -/
def idAt (r : Registry) (index : Nat) : PredicateId := ⟨r.run, index⟩

/-- The predicates with their identities, oldest first. -/
def entries (r : Registry) : List (PredicateId × Predicate) :=
  r.predicates.mapIdx fun index p => (r.idAt index, p)

/-- The entry of a name. -/
def find? (r : Registry) (name : String) : Option (PredicateId × Predicate) :=
  r.entries.find? fun entry => entry.2.name = name

/-- A registry that only answers a question, and stays as it is. -/
def answering {α : Type} (r : Registry) (answer : Except Fault α) : Outcome α :=
  { answer := answer, registry := r }

/-! ## Reading -/

/-- The predicate of an identity. -/
def get (r : Registry) (id : PredicateId) : Except Fault Predicate :=
  if id.run = r.run then
    match r.predicates[id.index]? with
    | some p => .ok p
    | none => .error (.stale id)
  else .error (.stale id)

/-- An identity is good for a predicate exactly when it is of this run and the predicate
stands at its position. -/
theorem get_eq_ok_iff {r : Registry} {id : PredicateId} {p : Predicate} :
    r.get id = .ok p ↔ id.run = r.run ∧ r.predicates[id.index]? = some p := by
  unfold get
  by_cases hrun : id.run = r.run
  · cases hp : r.predicates[id.index]? with
    | none => simp [hrun]
    | some q => simp [hrun]
  · simp [hrun]

theorem mem_of_get {r : Registry} {id : PredicateId} {p : Predicate} (h : r.get id = .ok p) :
    p ∈ r.predicates :=
  List.mem_of_getElem? (get_eq_ok_iff.mp h).2

/-- A name is free exactly when no predicate has it. -/
theorem find?_eq_none_iff {r : Registry} {name : String} :
    r.find? name = none ↔ ∀ p ∈ r.predicates, p.name ≠ name := by
  simp only [find?, entries, List.find?_eq_none, List.mem_mapIdx, decide_eq_true_eq]
  constructor
  · intro h p hp
    obtain ⟨i, hi, rfl⟩ := List.getElem_of_mem hp
    exact h _ ⟨i, hi, rfl⟩
  · rintro h _ ⟨i, hi, rfl⟩
    exact h _ (List.getElem_mem hi)

/-- The predicate of a name. -/
def predicate (r : Registry) (name : String) : Except Fault Predicate :=
  match r.find? name with
  | some entry => .ok entry.2
  | none => .error (.notFound name)

/-- The identity of a name.  The attempt is logged. -/
def lookup (r : Registry) (name : String) : Outcome PredicateId where
  answer := match r.find? name with
    | some entry => .ok entry.1
    | none => .error (.notFound name)
  registry := r
  events := [.lookedUp name]

/-! ## Writing -/

/-- What is logged about a predicate that was just made. -/
def creationEvents (p : Predicate) : List Event :=
  (if p.RoleMismatch then [.roleMismatch p.name p.role p.node.kind] else [])
    ++ [.created p.name p.role p.arity p.node.kind]

/-- Make the predicate that a declaration asks for.  Under a name that is taken, the
policy decides and the scope is not asked. -/
def create (r : Registry) (d : Declaration) (scope : Program.Scope) : Outcome PredicateId :=
  match r.find? d.name with
  | some (id, p) =>
      if r.policy = .reuseIdentical ∧ p.Matches d then
        { answer := .ok id, registry := r, events := [.reused d.name] }
      else { answer := .error (.duplicateName d.name), registry := r }
  | none =>
      match d.askPredicate scope with
      | ⟨.error fault, questions⟩ =>
          { answer := .error fault, registry := r, questions := questions }
      | ⟨.ok p, questions⟩ =>
          { answer := .ok (r.idAt r.size)
            registry := { r with predicates := r.predicates ++ [p] }
            events := creationEvents p
            questions := questions }

/-- Give the predicate of an identity one more version. -/
def addVersion (r : Registry) (id : PredicateId) : Outcome Unit :=
  match r.get id with
  | .error fault => { answer := .error fault, registry := r }
  | .ok p =>
      { answer := .ok ()
        registry := { r with predicates := r.predicates.set id.index p.addVersion }
        events := [.versionAdded p.name p.addVersion.latest] }

/-- Drop every predicate and begin another run.  The policy stays. -/
def reset (r : Registry) (run : Nat) : Outcome Unit where
  answer := .ok ()
  registry := start r.policy run
  events := [.reset r.size]

end Registry

end Hornbook
