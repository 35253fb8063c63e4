import Hornbook.Json.Basic
import Hornbook.Json.Quoted

/-!
# Printing JSON

One printer serves every layout.  A layout says what stands where a line may break and
what stands behind a colon.  Both are white space, so all layouts of a value read back
as that value.  An empty array or object is never broken.
-/

namespace Hornbook.Json

/-- The white space of a printed value. -/
structure Layout where
  /-- What stands at a possible line break, at a nesting depth. -/
  lineBreak : Nat → List Char
  /-- What stands behind a colon. -/
  afterColon : List Char

/-- No white space at all. -/
def Layout.compact : Layout := ⟨fun _ => [], []⟩

/-- A line for each element and member, indented by two blanks for each level. -/
def Layout.indented : Layout := ⟨fun depth => '\n' :: List.replicate (2 * depth) ' ', [' ']⟩

/-- A string literal.  A string that denotes no text is written as half a surrogate
pair. -/
def printString : Option (List Char) → List Char
  | some cs => Quoted.encode cs
  | none => "\"\\ud800\"".toList

mutual

/-- The characters of a value at a nesting depth. -/
def print (l : Layout) (depth : Nat) : Json → List Char
  | null => "null".toList
  | bool true => "true".toList
  | bool false => "false".toList
  | number literal => literal
  | string text => printString text
  | array [] => ['[', ']']
  | array (e :: es) =>
      '[' :: (l.lineBreak (depth + 1) ++ print l (depth + 1) e ++ printElements l (depth + 1) es
        ++ l.lineBreak depth ++ [']'])
  | object [] => ['\x7b', '\x7d']
  | object ((name, value) :: ms) =>
      '\x7b' :: (l.lineBreak (depth + 1) ++ printString name ++ ':' :: l.afterColon
        ++ print l (depth + 1) value ++ printMembers l (depth + 1) ms
        ++ l.lineBreak depth ++ ['\x7d'])
termination_by structural j => j

/-- The characters of the elements behind the first. -/
def printElements (l : Layout) (depth : Nat) : List Json → List Char
  | [] => []
  | e :: es => ',' :: (l.lineBreak depth ++ print l depth e ++ printElements l depth es)
termination_by structural es => es

/-- The characters of the members behind the first. -/
def printMembers (l : Layout) (depth : Nat) : List (Option (List Char) × Json) → List Char
  | [] => []
  | (name, value) :: ms =>
      ',' :: (l.lineBreak depth ++ printString name ++ ':' :: l.afterColon
        ++ print l depth value ++ printMembers l depth ms)
termination_by structural ms => ms

end

/-- The printed form of a value in a layout. -/
def text (l : Layout) (j : Json) : String := String.ofList (print l 0 j)

example : print .indented 0 (array [null, array [], number ['1']])
    = "[\n  null,\n  [],\n  1\n]".toList := by decide

end Hornbook.Json
