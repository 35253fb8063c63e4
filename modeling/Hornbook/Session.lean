import Hornbook.Registry.Operation

/-!
# Sessions

A session has several registries, numbered in the order in which they were opened.
They share one counter of runs and nothing else, so no two runs of a session have the
same number, whichever registries they belong to.
-/

namespace Hornbook

/-- Several registries. -/
structure Session where
  /-- The number of the next run. -/
  nextRun : Nat
  /-- The registries, in the order in which they were opened. -/
  registries : List Registry
  deriving DecidableEq

namespace Session

/-- The session without registries. -/
def empty : Session := ⟨1, []⟩

/-- Open one more registry. -/
def addRegistry (s : Session) (policy : DuplicatePolicy) : Session :=
  ⟨s.nextRun + 1, s.registries ++ [.start policy s.nextRun]⟩

/-- Carry out an operation on the registry of a number.  Without such a registry nothing
happens. -/
def step (s : Session) (number : Nat) (op : Operation) : Session × Option (Outcome Answer) :=
  match s.registries[number]? with
  | none => (s, none)
  | some r =>
      let outcome := r.perform s.nextRun op
      (⟨s.nextRun + op.runsBegun, s.registries.set number outcome.registry⟩, some outcome)

end Session

end Hornbook
