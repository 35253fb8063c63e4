import Hornbook.Registry.Basic
import Hornbook.Smt.Script

/-!
# The declarations of a registry

A solver has to be told every function symbol before a rule uses it.  The declarations
of a registry choose the logic of Horn clauses and then declare every version of every
predicate.  Predicates come in the order in which they were made, and versions oldest
first.
-/

namespace Hornbook

/-- The commands that declare a predicate. -/
def Predicate.declarations (p : Predicate) : List Command :=
  p.symbol.versions.map Command.declareFun

namespace Registry

/-- The script that declares every predicate. -/
def declarations (r : Registry) : Script :=
  Script.horn.extend (r.predicates.flatMap Predicate.declarations)

/-- The declarations, one rule, and the question whether they can hold together. -/
def query (r : Registry) (rule : Term) : Script :=
  (r.declarations.push (.assert rule)).push .checkSat

end Registry

end Hornbook
