import Hornbook.Counterexample.Call

/-!
# Traces

A trace is the list of calls that leads to a failure.  Each step has the state that the
call left behind.  The printed form has a heading and then two lines for each step.
Texts are printed as they stand.
-/

namespace Hornbook

/-- One call of a trace. -/
structure TraceStep where
  /-- The name of the summary that the step comes from. -/
  predicate : String
  call : String
  /-- The state after the call. -/
  state : List Assignment
  deriving DecidableEq

/-- A list of calls, first to last. -/
structure Trace where
  steps : List TraceStep
  deriving DecidableEq

/-- The printed form of an assignment. -/
def Assignment.text (a : Assignment) : String := a.name ++ " = " ++ a.value

/-- The printed form of a state. -/
def Assignment.listText : List Assignment → String
  | [] => "<none>"
  | state => ", ".intercalate (state.map Assignment.text)

/-- The printed form of a step, with the line break in front of each of its lines. -/
def TraceStep.text (s : TraceStep) : String :=
  "\n" ++ s.call ++ "\nState: " ++ Assignment.listText s.state

/-- The printed form of a trace. -/
def Trace.text (t : Trace) : String :=
  "Transaction trace:" ++ String.join (t.steps.map TraceStep.text)

end Hornbook
