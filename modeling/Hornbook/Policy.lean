import Hornbook.Text.Blank
import Hornbook.Text.Case

/-!
# Duplicate policies

What a registry does with a declaration whose name is taken.  A policy can be read from
a text.  Blanks around the text and the case of its letters do not matter.
-/

namespace Hornbook

/-- What to do when a name is taken. -/
inductive DuplicatePolicy where
  /-- Refuse the declaration. -/
  | reject
  /-- Hand back the predicate that has the name, if the declaration describes it. -/
  | reuseIdentical
  deriving DecidableEq

/-- A text that names no policy. -/
structure UnknownPolicy where
  /-- The text as it was given. -/
  given : String
  deriving DecidableEq

/-- The wording for a text that names no policy. -/
def UnknownPolicy.message (u : UnknownPolicy) : String :=
  "Unknown duplicate policy: " ++ u.given ++ ". Valid options: reject, reuse-identical"

namespace DuplicatePolicy

/-- The policy of a registry that was given none. -/
def standard : DuplicatePolicy := reject

/-- The name of a policy. -/
def text : DuplicatePolicy → String
  | reject => "reject"
  | reuseIdentical => "reuse-identical"

/-- The words that name a policy, in lower case. -/
def words : List (List Char × DuplicatePolicy) :=
  [("reject".toList, reject), ("reuse-identical".toList, reuseIdentical),
   ("reuse_identical".toList, reuseIdentical), ("reuse".toList, reuseIdentical)]

/-- The policy that a text names. -/
def ofText (s : String) : Except UnknownPolicy DuplicatePolicy :=
  match words.lookup (Text.lower (Text.trim s.toList)) with
  | some policy => .ok policy
  | none => .error ⟨s⟩

end DuplicatePolicy

end Hornbook
