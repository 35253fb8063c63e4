/-!
# JSON values

A value keeps what its text says and no more.  A number is the literal it was written
as.  An object is the list of its members in order, and one name may stand there
twice.

A string literal can denote no text at all, because `\u` can write half of a surrogate
pair without the other half.  Such a literal is well formed and can be skipped, but it
cannot be read.  It is kept as `none`.
-/

namespace Hornbook

/-- A JSON value. -/
inductive Json where
  | null
  | bool (value : Bool)
  /-- A number, by its literal. -/
  | number (literal : List Char)
  /-- A string, by the text it denotes. -/
  | string (text : Option (List Char))
  | array (elements : List Json)
  | object (members : List (Option (List Char) × Json))

namespace Json

/-- The text of a string that denotes one. -/
def text? : Json → Option (List Char)
  | string text => text
  | _ => none

/-- The elements of an array. -/
def elements? : Json → Option (List Json)
  | array elements => some elements
  | _ => none

/-- The one value of a name among members, unless there is none or more than one. -/
def member? (members : List (Option (List Char) × Json)) (name : List Char) : Option Json :=
  match members.filter (fun m => m.1 = some name) with
  | [m] => some m.2
  | _ => none

/-- The fields of a record, in the order of their names.  A record is an array with an
element for each field, or an object with a member for each field and any others.  The
names of an object have to be readable, those of other members included. -/
def record? (names : List (List Char)) : Json → Option (List Json)
  | array elements => if elements.length = names.length then some elements else none
  | object members =>
      if members.all (fun m => m.1.isSome) then names.mapM (member? members) else none
  | _ => none

end Json

end Hornbook
