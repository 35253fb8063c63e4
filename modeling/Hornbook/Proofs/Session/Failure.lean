import Hornbook.Proofs.Session.Run

/-!
# Failures leave no trace

An operation that is answered with a fault does nothing else.  Its registry stays as it is,
and no run is begun (`Effect.eq_of_error`), so the whole session stays as it is
(`act_of_failed`).

A failure can then be struck from a session as if it had never been tried.  Nothing that
comes behind it notices: not an answer, not the number of a run in one, not the final state
(`failures_leave_no_trace`).
-/

namespace Hornbook

/-- Whether an outcome is a fault. -/
def Outcome.failed {α : Type} (o : Outcome α) : Bool :=
  match o.answer with
  | .error _ => true
  | .ok _ => false

/-- Whether an action was answered with a fault. -/
def Turn.failed (t : Turn) : Bool := t.outcome?.any Outcome.failed

theorem Outcome.failed_iff {α : Type} {o : Outcome α} :
    o.failed = true ↔ ∃ fault, o.answer = .error fault := by
  unfold failed
  cases o.answer with
  | error fault => simp
  | ok a => simp

theorem Turn.failed_iff {t : Turn} :
    t.failed = true ↔
      ∃ outcome fault, t.outcome? = some outcome ∧ outcome.answer = .error fault := by
  simp only [failed, Option.any_eq_true, Outcome.failed_iff, exists_and_left]

/-- An effect with a fault is no effect, and it is not a reset. -/
theorem Registry.Effect.eq_of_error {r r' : Registry} {fresh : Nat} {op : Operation}
    {answer : Except Fault Answer} {fault : Fault} (effect : Effect r fresh op answer r')
    (failed : answer = .error fault) : r' = r ∧ op ≠ .reset := by
  cases effect with
  | reused | created | versionAdded | reset => cases failed
  | duplicate | unfit | versionRefused => exact ⟨rfl, nofun⟩
  | read reads =>
      refine ⟨rfl, ?_⟩
      rintro rfl
      exact reads

namespace Session

variable {s : Session} {a : Action} {outcome : Outcome Answer} {fault : Fault}

/-- An action that is answered with a fault changes no registry and begins no run. -/
theorem act_of_failed (answered : s.outcome? a = some outcome)
    (failed : outcome.answer = .error fault) : s.act a = s := by
  cases a with
  | addRegistry policy => cases answered
  | ask number op =>
      have answered : (s.step number op).2 = some outcome := answered
      show (s.step number op).1 = s
      cases there : s.registries[number]? with
      | none => rw [step_of_none there]
      | some r =>
          rw [step_of_some there] at answered ⊢
          rw [← Option.some.inj answered] at failed
          obtain ⟨same, noReset⟩ :=
            (Registry.perform_effect r s.nextRun op).eq_of_error failed
          have begun : op.runsBegun = 0 := Operation.runsBegun_eq_zero_iff.mpr noReset
          have put : s.registries.set number r = s.registries := by
            obtain ⟨bound, rfl⟩ := List.getElem?_eq_some_iff.mp there
            exact List.set_getElem_self bound
          rw [same, begun, put, Nat.add_zero]

/-! ## Without the failures -/

/-- What is done in a session and is not answered with a fault. -/
def successes (s : Session) (actions : List Action) : List Turn :=
  (s.record actions).filter fun t => !t.failed

theorem successes_cons_of_failed {actions : List Action}
    (failed : Turn.failed ⟨a, s.outcome? a⟩ = true) :
    s.successes (a :: actions) = s.successes actions := by
  obtain ⟨outcome, fault, answered, faulty⟩ := Turn.failed_iff.mp failed
  have unchanged : s.act a = s := act_of_failed answered faulty
  rw [successes, record, List.filter_cons_of_neg (by simp [failed]), unchanged, successes]

theorem successes_cons_of_not_failed {actions : List Action}
    (failed : Turn.failed ⟨a, s.outcome? a⟩ = false) :
    s.successes (a :: actions) = ⟨a, s.outcome? a⟩ :: (s.act a).successes actions := by
  rw [successes, record, List.filter_cons_of_pos (by simp [failed]), successes]

/-- Without the failures, the others are answered as they were. -/
theorem record_successes (s : Session) (actions : List Action) :
    s.record ((s.successes actions).map Turn.action) = s.successes actions := by
  induction actions generalizing s with
  | nil => rfl
  | cons a actions ih =>
      cases failed : Turn.failed ⟨a, s.outcome? a⟩ with
      | true => rw [successes_cons_of_failed failed, ih]
      | false => rw [successes_cons_of_not_failed failed, List.map_cons, record, ih]

/-- Without the failures, the session ends in the same state. -/
theorem after_successes (s : Session) (actions : List Action) :
    s.after ((s.successes actions).map Turn.action) = s.after actions := by
  induction actions generalizing s with
  | nil => rfl
  | cons a actions ih =>
      cases failed : Turn.failed ⟨a, s.outcome? a⟩ with
      | true =>
          obtain ⟨outcome, fault, answered, faulty⟩ := Turn.failed_iff.mp failed
          rw [successes_cons_of_failed failed, ih, after, act_of_failed answered faulty]
      | false => rw [successes_cons_of_not_failed failed, List.map_cons, after, ih, after]

/-- A step that is answered with a fault leaves the session as it was, whatever was done
before.  All such steps can be struck from a session together.  The others are answered
word for word as they were, numbers of runs included, and the session ends in the same
state. -/
theorem failures_leave_no_trace (s : Session) (actions : List Action) :
    (∀ past a future outcome fault, actions = past ++ a :: future →
      (s.after past).outcome? a = some outcome → outcome.answer = .error fault →
      s.after (past ++ [a]) = s.after past) ∧
    s.record ((s.successes actions).map Turn.action) = s.successes actions ∧
    s.after ((s.successes actions).map Turn.action) = s.after actions := by
  refine ⟨?_, s.record_successes actions, s.after_successes actions⟩
  intro past a future outcome fault _ answered failed
  rw [after_append]
  exact act_of_failed answered failed

/-- A taken name, a stale identity, a version that is not there, and an identity from before
a reset.  The runs have the numbers that they had. -/
theorem failures_leave_no_trace_around_reset :
    let actions : List Action := [.addRegistry .reject, .ask 0 (.createUnary "p"),
      .ask 0 (.createUnary "p"), .ask 0 (.addVersion ⟨7, 0⟩), .ask 0 (.symbolAt ⟨1, 0⟩ 3),
      .ask 0 .reset, .ask 0 (.get ⟨1, 0⟩), .ask 0 (.createUnary "q")]
    let kept : List Action := [.addRegistry .reject, .ask 0 (.createUnary "p"), .ask 0 .reset,
      .ask 0 (.createUnary "q")]
    (empty.record kept).map (fun t => t.outcome?.map Outcome.answer)
      = [none, some (.ok (.id ⟨1, 0⟩)), some (.ok .done), some (.ok (.id ⟨2, 0⟩))] ∧
    empty.record kept = empty.successes actions ∧ empty.after kept = empty.after actions := by
  intro actions kept
  obtain ⟨-, sameRecord, sameState⟩ := failures_leave_no_trace empty actions
  exact ⟨rfl, sameRecord, sameState⟩

end Session

end Hornbook
