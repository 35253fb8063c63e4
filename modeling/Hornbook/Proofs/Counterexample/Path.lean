import Hornbook.Counterexample.Path
import Hornbook.Proofs.Counterexample.Call

/-!
# What a path becomes

`Registry.Traces` relates a path to the steps that it should become, without a word on how
they are found.  An entry of a summary is one step, and an entry of another predicate is
none.  `Registry.Offends` says which entries are at fault.  There are two ways: the
identity is stale, or a summary has the wrong number of arguments.

In a registry whose predicates are laid out, every path either becomes such steps or is
answered with the fault of the first entry that offends (`stepsOf_outcome`).  A trace
depends on the registry through its predicates and not through their versions, so it is the
same at a later time (`stepOf_of_continues`).
-/

namespace Hornbook

/-- The step that shows an application of a summary. -/
structure Predicate.Renders (p : Predicate) (args : List String) (s : TraceStep) : Prop where
  predicate : s.predicate = p.name
  call : p.call args = .ok s.call
  state : ∃ vars, p.stateVariables = some vars ∧ Assigns vars p.stateOffset args s.state

namespace Registry

/-- The steps that a path should become. -/
inductive Traces (r : Registry) : List PathEntry → List TraceStep → Prop where
  | nil : Traces r [] []
  /-- A predicate that is no summary is passed over, whatever its arguments are. -/
  | skip {id : PredicateId} {args : List String} {p : Predicate} {path : List PathEntry}
      {steps : List TraceStep} :
      r.get id = .ok p → p.isSummary = false → Traces r path steps →
      Traces r ((id, args) :: path) steps
  /-- A summary is one step. -/
  | step {id : PredicateId} {args : List String} {p : Predicate} {s : TraceStep}
      {path : List PathEntry} {steps : List TraceStep} :
      r.get id = .ok p → p.isSummary = true → p.Renders args s → Traces r path steps →
      Traces r ((id, args) :: path) (s :: steps)

/-- An entry with a good identity, and with as many arguments as the predicate has if that
is a summary. -/
def Accepts (r : Registry) (entry : PathEntry) : Prop :=
  ∃ p, r.get entry.1 = .ok p ∧ (p.isSummary = true → entry.2.length = p.arity)

/-- An entry at fault, with the fault. -/
inductive Offends (r : Registry) : PathEntry → Fault → Prop where
  | stale {id : PredicateId} {args : List String} :
      (∀ p, r.get id ≠ .ok p) → Offends r (id, args) (.stale id)
  | arity {id : PredicateId} {args : List String} {p : Predicate} :
      r.get id = .ok p → p.isSummary = true → args.length ≠ p.arity →
      Offends r (id, args) (.arityMismatch p.name p.arity args.length)

variable {r r' : Registry} {id : PredicateId} {args : List String} {p : Predicate}
  {entry : PathEntry} {path : List PathEntry} {fault : Fault}

theorem Offends.not_accepts (h : r.Offends entry fault) : ¬ r.Accepts entry := by
  rintro ⟨p, good, full⟩
  cases h with
  | stale bad => exact bad p good
  | arity good' summary wrong =>
      rw [good] at good'
      cases Except.ok.inj good'
      exact wrong (full summary)

/-! ## One entry -/

/-- An identity that is not good is stale. -/
theorem get_eq_stale (bad : ∀ p, r.get id ≠ .ok p) : r.get id = .error (.stale id) := by
  unfold get at bad ⊢
  split
  next sameRun =>
    cases there : r.predicates[id.index]? with
    | none => rfl
    | some p => exact absurd (by simp [sameRun, there]) (bad p)
  next => rfl

theorem stepOf_of_stale (bad : ∀ p, r.get id ≠ .ok p) :
    r.stepOf (id, args) = .error (.stale id) := by
  rw [stepOf, get_eq_stale bad]
  rfl

theorem stepOf_of_get (good : r.get id = .ok p) :
    r.stepOf (id, args) =
      if p.isSummary then do
        let call ← p.call args
        let state ← p.state args
        return some ⟨p.name, call, state⟩
      else .ok none := by
  rw [stepOf, good]
  rfl

theorem stepOf_of_skip (good : r.get id = .ok p) (other : p.isSummary = false) :
    r.stepOf (id, args) = .ok none := by
  rw [stepOf_of_get good, other]
  rfl

theorem stepOf_of_offends (h : r.Offends entry fault) : r.stepOf entry = .error fault := by
  cases h with
  | stale bad => exact stepOf_of_stale bad
  | arity good summary wrong =>
      rw [stepOf_of_get good, if_pos summary, Predicate.call_of_length_ne wrong]
      rfl

theorem stepOf_of_summary (laid : p.LaidOut) (good : r.get id = .ok p)
    (summary : p.isSummary = true) (full : args.length = p.arity) :
    ∃ s, p.Renders args s ∧ r.stepOf (id, args) = .ok (some s) := by
  obtain ⟨vars, known⟩ := laid.exists_stateVariables summary
  obtain ⟨state, shown, assigns⟩ := Predicate.state_of_laidOut laid known full
  refine ⟨⟨p.name, _, state⟩, ⟨rfl, Predicate.call_of_length full, vars, known, assigns⟩, ?_⟩
  rw [stepOf_of_get good, if_pos summary, Predicate.call_of_length full, shown]
  rfl

theorem accepts_or_offends (r : Registry) (entry : PathEntry) :
    r.Accepts entry ∨ ∃ fault, r.Offends entry fault := by
  obtain ⟨id, args⟩ := entry
  by_cases good : ∃ p, r.get id = .ok p
  · obtain ⟨p, good⟩ := good
    by_cases wrong : p.isSummary = true ∧ args.length ≠ p.arity
    · exact .inr ⟨_, .arity good wrong.1 wrong.2⟩
    · refine .inl ⟨p, good, fun summary => ?_⟩
      exact Decidable.byContradiction fun other => wrong ⟨summary, other⟩
  · exact .inr ⟨_, .stale fun p hp => good ⟨p, hp⟩⟩

/-- An accepted entry becomes at most one step, and that one belongs in front of the steps
of what follows. -/
theorem stepOf_of_accepts (laid : r.LaidOut) (accepts : r.Accepts entry) :
    ∃ step, r.stepOf entry = .ok step ∧
      ∀ path steps, r.Traces path steps → r.Traces (entry :: path) (step.toList ++ steps) := by
  obtain ⟨id, args⟩ := entry
  obtain ⟨p, good, full⟩ := accepts
  cases summary : p.isSummary with
  | false => exact ⟨none, stepOf_of_skip good summary, fun _ _ rest => .skip good summary rest⟩
  | true =>
      obtain ⟨s, renders, shown⟩ := stepOf_of_summary (laid.get good) good summary (full summary)
      exact ⟨some s, shown, fun _ _ rest => .step good summary renders rest⟩

/-! ## Paths -/

theorem stepsOf_cons_of_error (failed : r.stepOf entry = .error fault) :
    r.stepsOf (entry :: path) = .error fault := by
  rw [stepsOf, failed]
  rfl

theorem stepsOf_cons_of_ok {step : Option TraceStep} (done : r.stepOf entry = .ok step) :
    r.stepsOf (entry :: path) = (r.stepsOf path).map (step.toList ++ ·) := by
  rw [stepsOf, done]
  cases r.stepsOf path with
  | error fault => rfl
  | ok steps => rfl

/-- A predicate that is no summary contributes nothing. -/
theorem stepsOf_cons_of_skip (good : r.get id = .ok p) (other : p.isSummary = false) :
    r.stepsOf ((id, args) :: path) = r.stepsOf path := by
  rw [stepsOf_cons_of_ok (stepOf_of_skip good other)]
  cases r.stepsOf path with
  | error fault => rfl
  | ok steps => rfl

/-- Paths are worked off in order, so their steps stand in order. -/
theorem stepsOf_append (r : Registry) (path path' : List PathEntry) :
    r.stepsOf (path ++ path')
      = (r.stepsOf path).bind fun steps => (r.stepsOf path').map (steps ++ ·) := by
  induction path with
  | nil =>
      rw [List.nil_append, stepsOf]
      cases r.stepsOf path' with
      | error fault => rfl
      | ok steps => rfl
  | cons entry path ih =>
      rw [List.cons_append]
      cases done : r.stepOf entry with
      | error fault => rw [stepsOf_cons_of_error done, stepsOf_cons_of_error done]; rfl
      | ok step =>
          rw [stepsOf_cons_of_ok done, stepsOf_cons_of_ok done, ih]
          cases r.stepsOf path with
          | error fault => rfl
          | ok steps =>
              cases r.stepsOf path' with
              | error fault => rfl
              | ok steps' => exact congrArg Except.ok (List.append_assoc ..).symm

/-- A path becomes its steps, or the first entry that offends decides. -/
theorem stepsOf_outcome (laid : r.LaidOut) (path : List PathEntry) :
    (∃ steps, r.stepsOf path = .ok steps ∧ r.Traces path steps ∧
      ∀ entry ∈ path, r.Accepts entry) ∨
    (∃ before entry behind fault, r.stepsOf path = .error fault ∧
      path = before ++ entry :: behind ∧ (∀ e ∈ before, r.Accepts e) ∧
      r.Offends entry fault) := by
  induction path with
  | nil => exact .inl ⟨[], rfl, .nil, by simp⟩
  | cons entry path ih =>
      rcases r.accepts_or_offends entry with accepts | ⟨fault, offends⟩
      · obtain ⟨step, done, extend⟩ := stepOf_of_accepts laid accepts
        rcases ih with ⟨steps, rest, traces, all⟩ |
          ⟨before, bad, behind, fault, rest, split, all, offends⟩
        · refine .inl ⟨step.toList ++ steps, ?_, extend path steps traces, ?_⟩
          · rw [stepsOf_cons_of_ok done, rest]
            rfl
          · exact List.forall_mem_cons.mpr ⟨accepts, all⟩
        · refine .inr ⟨entry :: before, bad, behind, fault, ?_, ?_, ?_, offends⟩
          · rw [stepsOf_cons_of_ok done, rest]
            rfl
          · rw [split, List.cons_append]
          · exact List.forall_mem_cons.mpr ⟨accepts, all⟩
      · exact .inr ⟨[], entry, path, fault, stepsOf_cons_of_error (stepOf_of_offends offends),
          rfl, by simp, offends⟩

/-! ## Traces -/

/-- All that there is to say about the trace of a path. -/
structure AnswersPath (r : Registry) (path : List PathEntry) : Prop where
  /-- There is one exactly when all entries are accepted. -/
  succeeds : (∃ trace, (r.traceOf path).answer = .ok trace) ↔ ∀ entry ∈ path, r.Accepts entry
  /-- Its steps are those that the path should become. -/
  steps : ∀ trace, (r.traceOf path).answer = .ok trace → r.Traces path trace.steps
  /-- If there is none, the first entry that offends says why. -/
  fault : ∀ fault, (r.traceOf path).answer = .error fault →
    ∃ before entry behind, path = before ++ entry :: behind ∧
      (∀ e ∈ before, r.Accepts e) ∧ r.Offends entry fault

theorem answersPath (laid : r.LaidOut) (path : List PathEntry) : r.AnswersPath path := by
  rcases stepsOf_outcome laid path with ⟨steps, done, traces, all⟩ |
    ⟨before, bad, behind, fault, done, split, all, offends⟩
  · have answer : (r.traceOf path).answer = .ok ⟨steps⟩ := by
      rw [traceOf, done]
      rfl
    refine ⟨⟨fun _ => all, fun _ => ⟨_, answer⟩⟩, ?_, ?_⟩
    · intro trace same
      rw [answer] at same
      rwa [← Except.ok.inj same]
    · intro fault same
      rw [answer] at same
      cases same
  · have answer : (r.traceOf path).answer = .error fault := by
      rw [traceOf, done]
      rfl
    refine ⟨⟨?_, ?_⟩, ?_, ?_⟩
    · rintro ⟨trace, same⟩
      rw [answer] at same
      cases same
    · intro accepts
      refine absurd (accepts bad ?_) offends.not_accepts
      rw [split]
      exact List.mem_append_right _ List.mem_cons_self
    · intro trace same
      rw [answer] at same
      cases same
    · intro fault' same
      rw [answer] at same
      rw [← Except.error.inj same]
      exact ⟨before, bad, behind, split, all, offends⟩

theorem traceOf_append {path' : List PathEntry} {trace trace' : Trace}
    (done : (r.traceOf path).answer = .ok trace) (done' : (r.traceOf path').answer = .ok trace') :
    (r.traceOf (path ++ path')).answer = .ok ⟨trace.steps ++ trace'.steps⟩ := by
  simp only [traceOf] at done done' ⊢
  rw [stepsOf_append]
  cases first : r.stepsOf path with
  | error fault => rw [first] at done; cases done
  | ok steps =>
      cases second : r.stepsOf path' with
      | error fault => rw [second] at done'; cases done'
      | ok steps' =>
          rw [first] at done
          rw [second] at done'
          cases done
          cases done'
          rfl

theorem traceOf_of_skip (good : r.get id = .ok p) (other : p.isSummary = false)
    (before behind : List PathEntry) :
    (r.traceOf (before ++ (id, args) :: behind)).answer = (r.traceOf (before ++ behind)).answer := by
  simp only [traceOf, stepsOf_append, stepsOf_cons_of_skip good other]

/-! ## Later traces -/

theorem stepOf_of_continues {q : Predicate} (good : r.get id = .ok p) (still : r'.get id = .ok q)
    (continues : p.Continues q) : r'.stepOf (id, args) = r.stepOf (id, args) := by
  rw [stepOf_of_get good, stepOf_of_get still, continues.isSummary, continues.call,
    continues.state, continues.name]

theorem traceOf_congr (same : ∀ entry ∈ path, r'.stepOf entry = r.stepOf entry) :
    (r'.traceOf path).answer = (r.traceOf path).answer := by
  have steps : r'.stepsOf path = r.stepsOf path := by
    induction path with
    | nil => rfl
    | cons entry path ih =>
        rw [stepsOf, stepsOf, same entry List.mem_cons_self,
          ih fun e he => same e (List.mem_cons_of_mem _ he)]
  simp only [traceOf, steps]

end Registry

end Hornbook
