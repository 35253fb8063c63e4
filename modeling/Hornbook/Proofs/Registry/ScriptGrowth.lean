import Hornbook.Proofs.Registry.Growth
import Hornbook.Proofs.Registry.History
import Mathlib.Algebra.GroupWithZero.Nat

/-!
# How the declarations grow

The declarations of a registry choose a logic and then declare every version of every
predicate, predicates in the order in which they were made and versions oldest first
(`ListsVersions`).

They can be kept up to date without being made again.  A new predicate puts one command at
the end.  A new version puts one command right behind the declarations of its own predicate.
A reset leaves the choice of the logic, and nothing else that can be done or fail changes a
command (`Revises`).  So no command is taken away between two resets, and none changes its
place among the others: earlier declarations are a sublist of later ones.
-/

namespace Hornbook

/-! ## The declarations of one predicate -/

namespace Predicate

variable {p : Predicate}

theorem declarations_eq (p : Predicate) :
    p.declarations = (List.range (p.latest + 1)).map fun i =>
      .declareFun ⟨p.name ++ "_" ++ toString i, p.signature⟩ := by
  rw [declarations, VersionedSymbol.versions, List.map_map]
  rfl

theorem length_declarations (p : Predicate) : p.declarations.length = p.latest + 1 := by
  rw [declarations, List.length_map, VersionedSymbol.length_versions, latest]

theorem declarations_addVersion (p : Predicate) :
    p.addVersion.declarations
      = p.declarations ++ [.declareFun (p.symbol.version (p.latest + 1))] := by
  rw [declarations, addVersion, VersionedSymbol.versions_addVersion, List.map_append]
  rfl

/-- A predicate that was just built has one declaration. -/
theorem declarations_of_build {d : Declaration} {scope : Program.Scope}
    (built : d.build scope = .ok p) :
    p.declarations = [.declareFun ⟨d.name ++ "_0", d.signature⟩] := by
  have first : d.name ++ "_" ++ toString 0 = d.name ++ "_0" := String.append_assoc
  rw [declarations_eq, Declaration.latest_of_build built, Declaration.build_eq_ok built, ← first]
  rfl

end Predicate

namespace Registry

variable {r r' : Registry} {t : Transcript} {fresh : Nat} {op : Operation}
  {answer : Except Fault Answer} {id : PredicateId} {p : Predicate}

/-! ## The declarations of a registry -/

theorem commands_declarations (r : Registry) :
    r.declarations.commands = .setLogic "HORN" :: r.predicates.flatMap Predicate.declarations :=
  rfl

/-- The declarations list every version of every predicate, in the order in which a
transcript says that they were made. -/
structure ListsVersions (r : Registry) (t : Transcript) : Prop where
  commands : r.declarations.commands = .setLogic "HORN" :: r.predicates.flatMap fun p =>
    (List.range (p.latest + 1)).map fun i =>
      .declareFun ⟨p.name ++ "_" ++ toString i, p.signature⟩
  order : r.predicates.map Predicate.name = t.created.eraseDups
  length : r.declarations.length = 1 + (r.predicates.map fun p => p.latest + 1).sum
  bare : r.declarations = Script.horn ↔ r.size = 0

theorem length_declarations (r : Registry) :
    r.declarations.length = 1 + (r.predicates.map fun p => p.latest + 1).sum := by
  rw [Script.length, commands_declarations, List.length_cons, List.length_flatMap, Nat.add_comm]
  simp only [Predicate.length_declarations]

/-- Every predicate has a declaration, so only a registry without predicates has none. -/
theorem declarations_eq_horn_iff (r : Registry) : r.declarations = Script.horn ↔ r.size = 0 := by
  constructor
  · intro bare
    have lengths : 1 + (r.predicates.map fun p => p.latest + 1).sum = 1 := by
      rw [← length_declarations, bare]
      rfl
    rw [size, List.length_eq_zero_iff]
    cases predicates : r.predicates with
    | nil => rfl
    | cons p rest =>
        rw [predicates, List.map_cons, List.sum_cons] at lengths
        omega
  · intro empty
    rw [size, List.length_eq_zero_iff] at empty
    rw [declarations, empty]
    rfl

theorem Agrees.listsVersions (h : r.Agrees t) : r.ListsVersions t where
  commands := by
    rw [commands_declarations, funext Predicate.declarations_eq]
  order := h.names
  length := length_declarations r
  bare := declarations_eq_horn_iff r

/-! ## One step -/

/-- The commands in front of the declarations of the predicate at a position. -/
def commandsBefore (r : Registry) (index : Nat) : List Command :=
  .setLogic "HORN" :: (r.predicates.take index).flatMap Predicate.declarations

/-- The commands behind the declarations of the predicate at a position. -/
def commandsBehind (r : Registry) (index : Nat) : List Command :=
  (r.predicates.drop (index + 1)).flatMap Predicate.declarations

theorem commands_of_getElem? {index : Nat} (there : r.predicates[index]? = some p) :
    r.declarations.commands
      = r.commandsBefore index ++ p.declarations ++ r.commandsBehind index := by
  obtain ⟨inside, rfl⟩ := List.getElem?_eq_some_iff.mp there
  have split : r.predicates
      = r.predicates.take index ++ r.predicates[index] :: r.predicates.drop (index + 1) := by
    rw [← List.drop_eq_getElem_cons inside, List.take_append_drop]
  rw [commands_declarations, commandsBefore, commandsBehind]
  conv_lhs => rw [split]
  rw [List.flatMap_append, List.flatMap_cons, List.cons_append, List.cons_append,
    List.append_assoc]

theorem commands_set {index : Nat} (there : r.predicates[index]? = some p) :
    (declarations { r with predicates := r.predicates.set index p.addVersion }).commands
      = r.commandsBefore index ++ p.declarations ++
        .declareFun (p.symbol.version (p.latest + 1)) :: r.commandsBehind index := by
  obtain ⟨inside, -⟩ := List.getElem?_eq_some_iff.mp there
  rw [commands_declarations, List.set_eq_take_append_cons_drop, if_pos inside,
    List.flatMap_append, List.flatMap_cons, Predicate.declarations_addVersion, commandsBefore,
    commandsBehind]
  simp

/-- What an operation and its answer make of the commands that declare a registry. -/
inductive Revises (r : Registry) :
    Operation → Except Fault Answer → List Command → Prop where
  /-- A predicate was made.  Its first version is declared at the end. -/
  | appended {d : Declaration} {scope : Program.Scope} {id : PredicateId} :
      (∀ p ∈ r.predicates, p.name ≠ d.name) →
      Revises r (.create d scope) (.ok (.id id))
        (r.declarations.commands ++ [.declareFun ⟨d.name ++ "_0", d.signature⟩])
  /-- A version was added.  It is declared right behind the others of its predicate. -/
  | inserted {id : PredicateId} {p : Predicate} :
      r.get id = .ok p →
      r.declarations.commands
        = r.commandsBefore id.index ++ p.declarations ++ r.commandsBehind id.index →
      Revises r (.addVersion id) (.ok .done)
        (r.commandsBefore id.index ++ p.declarations ++
          .declareFun (p.symbol.version (p.latest + 1)) :: r.commandsBehind id.index)
  /-- Everything was dropped. -/
  | emptied : Revises r .reset (.ok .done) Script.horn.commands
  /-- A predicate was handed back. -/
  | reused {d : Declaration} {scope : Program.Scope} {id : PredicateId} {p : Predicate} :
      p ∈ r.predicates → p.name = d.name →
      Revises r (.create d scope) (.ok (.id id)) r.declarations.commands
  /-- The operation failed. -/
  | refused {op : Operation} {fault : Fault} :
      Revises r op (.error fault) r.declarations.commands
  /-- Something was asked. -/
  | read {op : Operation} {answer : Except Fault Answer} :
      op.Reads → Revises r op answer r.declarations.commands

theorem Effect.revises (effect : Effect r fresh op answer r') :
    r.Revises op answer r'.declarations.commands := by
  cases effect with
  | reused found =>
      obtain ⟨good, named⟩ := find?_eq_some found
      exact .reused (mem_of_get good) named
  | duplicate | unfit | versionRefused => exact .refused
  | created free built =>
      rw [commands_declarations, List.flatMap_append, List.flatMap_singleton,
        Predicate.declarations_of_build built]
      exact .appended (find?_eq_none_iff.mp free)
  | versionAdded good =>
      have there := (get_eq_ok_iff.mp good).2
      rw [commands_set there]
      exact .inserted good (commands_of_getElem? there)
  | reset => exact .emptied
  | read reads => exact .read reads

/-! ## A run -/

/-- No step but a reset takes a command away. -/
theorem Revises.sublist {commands : List Command} (h : r.Revises op answer commands)
    (noReset : op ≠ .reset) : r.declarations.commands.Sublist commands := by
  cases h with
  | appended => exact List.sublist_append_left _ _
  | inserted _ split =>
      rw [split]
      exact (List.sublist_cons_self _ _).append_left _
  | emptied => exact absurd rfl noReset
  | reused | refused | read => exact List.Sublist.refl _

theorem sublist_after (r : Registry) {steps : List Step}
    (noReset : ∀ s ∈ steps, s.operation ≠ .reset) :
    r.declarations.commands.Sublist (r.after steps).declarations.commands :=
  after_of_effect_of_ne_reset
    (P := fun r' => r.declarations.commands.Sublist r'.declarations.commands)
    (fun effect kept grown => grown.trans (effect.revises.sublist kept)) noReset
    (List.Sublist.refl _)

/-- In every state of every run, the declarations list the versions of the predicates.  Every
operation revises them as its answer says, and until the next reset they are a sublist of all
later ones. -/
theorem declarations_grow (policy : DuplicatePolicy) (run : Nat) (steps : List Step) :
    let r := (start policy run).after steps
    r.ListsVersions ((start policy run).transcript steps) ∧
      (∀ fresh op, r.Revises op (r.perform fresh op).answer
        (r.perform fresh op).registry.declarations.commands) ∧
      ∀ future, (∀ s ∈ future, s.operation ≠ .reset) →
        r.declarations.commands.Sublist
          ((start policy run).after (steps ++ future)).declarations.commands := by
  intro r
  refine ⟨(agrees_after policy run steps).listsVersions, ?_, ?_⟩
  · intro fresh op
    exact (perform_effect r fresh op).revises
  · intro future noReset
    rw [after_append]
    exact sublist_after r noReset

/-- A version of the first of two predicates, a creation that is refused, and an identity from
elsewhere. -/
theorem declarations_grow_in_the_middle :
    let steps : List Step := [⟨.createUnary "p", 2⟩, ⟨.createUnary "q", 2⟩]
    let future : List Step :=
      [⟨.addVersion ⟨1, 0⟩, 2⟩, ⟨.createUnary "p", 2⟩, ⟨.addVersion ⟨2, 0⟩, 2⟩]
    let early := ((start .reject 1).after steps).declarations
    let late := ((start .reject 1).after (steps ++ future)).declarations
    (∀ s ∈ future, s.operation ≠ .reset) ∧ early.declaredSymbols = ["p_0", "q_0"] ∧
      late.declaredSymbols = ["p_0", "p_1", "q_0"] ∧ early.commands.Sublist late.commands := by
  intro steps future early late
  have noReset : ∀ s ∈ future, s.operation ≠ .reset := by simp [future, Operation.createUnary]
  obtain ⟨-, -, grown⟩ := declarations_grow .reject 1 steps
  exact ⟨noReset, rfl, rfl, grown future noReset⟩

end Registry

end Hornbook
