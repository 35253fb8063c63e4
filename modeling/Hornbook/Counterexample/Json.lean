import Hornbook.Counterexample.Trace
import Hornbook.Json.Printer
import Hornbook.Json.Reader

/-!
# Traces as JSON

A trace, a step and an assignment are each written as an object with all fields in
order.  Each is read from such an object in any order of members, with any other members
beside them, and also from an array of the fields in order.  A field that is missing or
that stands there twice is refused.
-/

namespace Hornbook

namespace Assignment

/-- An assignment as JSON. -/
def toJson (a : Assignment) : Json :=
  .object [(some "variable".toList, .string (some a.name.toList)),
    (some "value".toList, .string (some a.value.toList))]

/-- The assignment with these values in its fields. -/
def ofFields? : List Json → Option Assignment
  | [name, value] => do
      return ⟨String.ofList (← name.text?), String.ofList (← value.text?)⟩
  | _ => none

/-- The assignment that a JSON value describes. -/
def ofJson? (j : Json) : Option Assignment :=
  j.record? ["variable".toList, "value".toList] >>= ofFields?

end Assignment

namespace TraceStep

/-- A step as JSON. -/
def toJson (s : TraceStep) : Json :=
  .object [(some "predicate".toList, .string (some s.predicate.toList)),
    (some "call".toList, .string (some s.call.toList)),
    (some "state".toList, .array (s.state.map Assignment.toJson))]

/-- The step with these values in its fields. -/
def ofFields? : List Json → Option TraceStep
  | [predicate, call, state] => do
      let state ← (← state.elements?).mapM Assignment.ofJson?
      return ⟨String.ofList (← predicate.text?), String.ofList (← call.text?), state⟩
  | _ => none

/-- The step that a JSON value describes. -/
def ofJson? (j : Json) : Option TraceStep :=
  j.record? ["predicate".toList, "call".toList, "state".toList] >>= ofFields?

end TraceStep

namespace Trace

/-- A trace as JSON. -/
def toJson (t : Trace) : Json :=
  .object [(some "steps".toList, .array (t.steps.map TraceStep.toJson))]

/-- The trace with this value in its field. -/
def ofFields? : List Json → Option Trace
  | [steps] => do return ⟨← (← steps.elements?).mapM TraceStep.ofJson?⟩
  | _ => none

/-- The trace that a JSON value describes. -/
def ofJson? (j : Json) : Option Trace := j.record? ["steps".toList] >>= ofFields?

/-- A trace as JSON text in a layout. -/
def jsonText (l : Json.Layout) (t : Trace) : String := t.toJson.text l

end Trace

end Hornbook
