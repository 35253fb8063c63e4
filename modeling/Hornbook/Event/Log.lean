import Hornbook.Event

/-!
# Reading a log

A log is a list of lines, and a line has a level, a message and fields of text.  Its
`DEBUG` lines tell what happened to the predicates of a registry, so a table of the
predicates can be kept by reading the log alone.  A line about a new predicate adds a row,
a line about a new version changes one, and a line about a reset takes all of them away.
Every other line is passed over.

The table holds what the fields say, word for word.  Nothing here knows of registries.
-/

namespace Hornbook

/-- A line of a log. -/
structure LogLine where
  level : Level
  message : String
  /-- Names with their texts, in order. -/
  fields : List (String × String)

namespace LogLine

/-- The text of a field.  A field that is not there has no text. -/
def field (l : LogLine) (name : String) : String := (l.fields.lookup name).getD ""

/-- The line tells of a new predicate. -/
def TellsCreated (l : LogLine) : Prop := l.level = .debug ∧ l.message = "created predicate"

/-- The line tells of a new version of a predicate. -/
def TellsVersion (l : LogLine) : Prop := l.level = .debug ∧ l.message = "new functor"

/-- The line tells of a reset. -/
def TellsReset (l : LogLine) : Prop := l.level = .debug ∧ l.message = "predicate registry reset"

instance (l : LogLine) : Decidable l.TellsCreated := inferInstanceAs (Decidable (_ ∧ _))

instance (l : LogLine) : Decidable l.TellsVersion := inferInstanceAs (Decidable (_ ∧ _))

instance (l : LogLine) : Decidable l.TellsReset := inferInstanceAs (Decidable (_ ∧ _))

end LogLine

namespace Event

/-- The line that an event writes. -/
def line (e : Event) : LogLine := ⟨e.level, e.message, e.fields⟩

variable {predicate : String} {role : Role} {arity version dropped steps path : Nat}
  {node : Program.NodeKind}

@[simp] theorem message_created :
    (created predicate role arity node).message = "created predicate" := rfl

@[simp] theorem message_versionAdded :
    (versionAdded predicate version).message = "new functor" := rfl

@[simp] theorem message_reset : (reset dropped).message = "predicate registry reset" := rfl

@[simp] theorem message_traceBuilt :
    (traceBuilt steps path).message = "built counterexample trace" := rfl

end Event

/-- What a log tells of one predicate. -/
structure LogRow where
  predicate : String
  role : String
  arity : String
  node : String
  /-- The newest version. -/
  version : String
  deriving DecidableEq

namespace LogRow

/-- The row that a line about a new predicate adds.  Its version is the first one. -/
def ofLine (l : LogLine) : LogRow :=
  ⟨l.field "predicate", l.field "role", l.field "arity", l.field "node", "0"⟩

/-- The row behind a line about a new version, which may be of another predicate. -/
def update (l : LogLine) (row : LogRow) : LogRow :=
  if row.predicate = l.field "predicate" then { row with version := l.field "version" } else row

end LogRow

namespace LogLine

/-- The table behind one more line. -/
def enter (table : List LogRow) (l : LogLine) : List LogRow :=
  if l.TellsCreated then table ++ [.ofLine l]
  else if l.TellsVersion then table.map (.update l)
  else if l.TellsReset then []
  else table

/-- The table that a log makes. -/
def replay (log : List LogLine) : List LogRow := log.foldl enter []

variable {table : List LogRow} {e : Event}

/-! ## Which events tell what -/

theorem tellsCreated_line : e.line.TellsCreated ↔
    ∃ predicate role arity node, e = .created predicate role arity node := by
  cases e with
  | _ => simp [TellsCreated, Event.line, Event.level]

theorem tellsVersion_line :
    e.line.TellsVersion ↔ ∃ predicate version, e = .versionAdded predicate version := by
  cases e with
  | _ => simp [TellsVersion, Event.line, Event.level]

theorem tellsReset_line : e.line.TellsReset ↔ ∃ dropped, e = .reset dropped := by
  cases e with
  | _ => simp [TellsReset, Event.line, Event.level]

/-! ## What they do to the table -/

theorem enter_created (predicate : String) (role : Role) (arity : Nat) (node : Program.NodeKind) :
    enter table (Event.created predicate role arity node).line
      = table ++ [⟨predicate, role.word, toString arity, node.word, "0"⟩] := by
  rw [enter, if_pos (tellsCreated_line.mpr ⟨_, _, _, _, rfl⟩)]
  rfl

theorem enter_versionAdded (predicate : String) (version : Nat) :
    enter table (Event.versionAdded predicate version).line
      = table.map fun row =>
          if row.predicate = predicate then { row with version := toString version } else row := by
  have telling : (Event.versionAdded predicate version).line.TellsVersion :=
    tellsVersion_line.mpr ⟨_, _, rfl⟩
  rw [enter, if_neg (by simp [tellsCreated_line]), if_pos telling]
  rfl

theorem enter_reset (dropped : Nat) : enter table (Event.reset dropped).line = [] := by
  rw [enter, if_neg (by simp [tellsCreated_line]), if_neg (by simp [tellsVersion_line]),
    if_pos (tellsReset_line.mpr ⟨dropped, rfl⟩)]

theorem enter_other {l : LogLine} (notCreated : ¬ l.TellsCreated) (notVersion : ¬ l.TellsVersion)
    (notReset : ¬ l.TellsReset) : enter table l = table := by
  rw [enter, if_neg notCreated, if_neg notVersion, if_neg notReset]

end LogLine

end Hornbook
