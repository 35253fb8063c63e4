import Hornbook.Smt.Symbol

/-!
# Commands and scripts

A script is a list of commands for the solver.  It prints one command after another
with a line break between neighbours and none at the end.

A comment is the one command that is not an S-expression.  It prints two semicolons, a
blank and its text.  A line break in the text is not escaped.
-/

namespace Hornbook

/-- A command for the solver. -/
inductive Command where
  | setLogic (logic : String)
  /-- Set an option, named without its colon. -/
  | setOption (key value : String)
  | declareFun (symbol : FunSymbol)
  | assert (term : Term)
  | checkSat
  | getModel
  /-- A note for the reader. -/
  | comment (text : String)
  /-- End the session with the solver. -/
  | exit
  deriving DecidableEq

namespace Command

/-- The characters of a command. -/
def chars : Command → List Char
  | setLogic logic => (Sexp.list [.atom "set-logic", .atom logic]).chars
  | setOption key value =>
      (Sexp.list [.atom "set-option", .atom (":" ++ key), .atom value]).chars
  | declareFun symbol =>
      (Sexp.list (.atom "declare-fun" :: .atom symbol.name :: symbol.signature.toSexps)).chars
  | assert term => (Sexp.list [.atom "assert", term.toSexp]).chars
  | checkSat => (Sexp.list [.atom "check-sat"]).chars
  | getModel => (Sexp.list [.atom "get-model"]).chars
  | comment text => ";; ".toList ++ text.toList
  | exit => (Sexp.list [.atom "exit"]).chars

/-- The printed form of a command. -/
def text (c : Command) : String := String.ofList c.chars

/-- The name that a command declares. -/
def declared? : Command → Option String
  | declareFun symbol => some symbol.name
  | _ => none

end Command

/-- A list of commands, first to last. -/
structure Script where
  commands : List Command
  deriving DecidableEq

namespace Script

/-- The script without commands. -/
def empty : Script := ⟨[]⟩

/-- The script that chooses the logic of Horn clauses and does nothing else. -/
def horn : Script := ⟨[.setLogic "HORN"]⟩

/-- The number of commands. -/
def length (s : Script) : Nat := s.commands.length

/-- A script with one more command behind the others. -/
def push (s : Script) (c : Command) : Script := ⟨s.commands ++ [c]⟩

/-- A script with more commands behind the others. -/
def extend (s : Script) (cs : List Command) : Script := ⟨s.commands ++ cs⟩

/-- The names that the script declares, in order. -/
def declaredSymbols (s : Script) : List String := s.commands.filterMap Command.declared?

/-- The characters of a script. -/
def chars (s : Script) : List Char := ['\n'].intercalate (s.commands.map Command.chars)

/-- The printed form of a script. -/
def text (s : Script) : String := String.ofList s.chars

@[simp] theorem commands_push (s : Script) (c : Command) :
    (s.push c).commands = s.commands ++ [c] := rfl

@[simp] theorem commands_extend (s : Script) (cs : List Command) :
    (s.extend cs).commands = s.commands ++ cs := rfl

@[simp] theorem toList_text (s : Script) : s.text.toList = s.chars := String.toList_ofList

end Script

end Hornbook
