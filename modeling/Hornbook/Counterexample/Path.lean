import Hornbook.Counterexample.Trace
import Hornbook.Registry.Basic

/-!
# Traces of paths

A path is what a solver reports: identities of predicates, each with its arguments.
Only summaries are calls, so only they become steps.  Every identity on the path has to
be known to the registry all the same.  The first entry at fault decides the answer.
-/

namespace Hornbook

/-- An application of a predicate in a solver's report. -/
abbrev PathEntry := PredicateId × List String

namespace Registry

/-- The step that an entry of a path becomes, if it becomes one. -/
def stepOf (r : Registry) (entry : PathEntry) : Except Fault (Option TraceStep) := do
  let p ← r.get entry.1
  if p.isSummary then
    let call ← p.call entry.2
    let state ← p.state entry.2
    return some ⟨p.name, call, state⟩
  else return none

/-- The steps that a path becomes, in its order. -/
def stepsOf (r : Registry) : List PathEntry → Except Fault (List TraceStep)
  | [] => .ok []
  | entry :: rest => do
      let step ← r.stepOf entry
      let steps ← r.stepsOf rest
      return step.toList ++ steps

/-- The trace that a path becomes. -/
def traceOf (r : Registry) (path : List PathEntry) : Outcome Trace where
  answer := (r.stepsOf path).map Trace.mk
  registry := r
  events := match r.stepsOf path with
    | .ok steps => [.traceBuilt steps.length path.length]
    | .error _ => []

end Registry

end Hornbook
