import Hornbook.Proofs.Counterexample.Path
import Hornbook.Proofs.Session.Identity

/-!
# Traces in a session

The identities on a path were given out at some time, by the registry that is asked or by
another one.  The registry knows or refuses each of them, and it keeps to that until it is
reset.  So the trace of a path is the same whenever it is asked for in between
(`Issued.stepOf_after`).

`traceOf_exact` puts together what is known about traces in a session.
-/

namespace Hornbook

theorem Registry.Refuses.get_ne_ok {r : Registry} {id : PredicateId} (h : r.Refuses id)
    (p : Predicate) : r.get id ≠ .ok p := by
  rw [h.1]
  nofun

namespace Session

variable {actions future : List Action} {i : Issue} {number : Nat} {r r' : Registry}

/-- What an identity that was given out stands for, it stands for until the next reset.  If
it is refused, it is refused until then. -/
theorem Issued.known_or_refused (issued : Issued actions i)
    (there : (empty.after actions).registries[number]? = some r)
    (there' : (empty.after (actions ++ future)).registries[number]? = some r')
    (noReset : ∀ a ∈ future, a.resets number = false) :
    (∃ p q, r.get i.id = .ok p ∧ r'.get i.id = .ok q ∧ p.Continues q) ∨
      (r.Refuses i.id ∧ r'.Refuses i.id) := by
  obtain ⟨past, between, rfl, known⟩ := issued.known
  by_cases own : number = i.registry ∧ epoch number (past ++ between) = i.epoch
  · obtain ⟨p, good, -⟩ := known.reaches (own.1 ▸ there) (own.1 ▸ own.2)
    obtain ⟨grown, same, continues⟩ := continues_after there noReset
    rw [← after_append, there'] at same
    obtain ⟨q, still, later⟩ := continues.get good
    rw [← Option.some.inj same] at still
    exact .inl ⟨p, q, good, still, later⟩
  · refine .inr ⟨known.refuses there own, ?_⟩
    rw [List.append_assoc] at there'
    refine known.refuses there' ?_
    rwa [← List.append_assoc, epoch_append_eq_iff.mpr noReset]

theorem Issued.stepOf_after (issued : Issued actions i)
    (there : (empty.after actions).registries[number]? = some r)
    (there' : (empty.after (actions ++ future)).registries[number]? = some r')
    (noReset : ∀ a ∈ future, a.resets number = false) (args : List String) :
    r'.stepOf (i.id, args) = r.stepOf (i.id, args) := by
  rcases issued.known_or_refused there there' noReset with
    ⟨p, q, good, still, continues⟩ | ⟨refused, refused'⟩
  · exact Registry.stepOf_of_continues good still continues
  · rw [Registry.stepOf_of_stale refused.get_ne_ok, Registry.stepOf_of_stale refused'.get_ne_ok]

theorem laidOut_of_getElem? (there : (empty.after actions).registries[number]? = some r) :
    r.LaidOut := by
  obtain ⟨policy, run, steps, rfl⟩ := ownRuns_empty.after actions number r there
  exact Registry.laidOut_after policy run steps

/-- In every registry of every session, the trace of a path is fixed by the path and the
predicates that its identities stand for.  The only faults are stale identities and
summaries with the wrong number of arguments.  Traces of paths add up, entries of other
predicates do not matter, and until the next reset a path of identities that were given
out keeps its trace. -/
theorem traceOf_exact (actions : List Action) (number : Nat) (r : Registry)
    (there : (empty.after actions).registries[number]? = some r) :
    (∀ path, r.AnswersPath path ∧
      (∀ name, (r.traceOf path).answer ≠ .error (.noStateScope name)) ∧
      (∀ name offset count arity,
        (r.traceOf path).answer ≠ .error (.invalidStateLayout name offset count arity))) ∧
    (∀ path path' trace trace', (r.traceOf path).answer = .ok trace →
      (r.traceOf path').answer = .ok trace' →
      (r.traceOf (path ++ path')).answer = .ok ⟨trace.steps ++ trace'.steps⟩) ∧
    (∀ before id args behind p, r.get id = .ok p → p.isSummary = false →
      (r.traceOf (before ++ (id, args) :: behind)).answer
        = (r.traceOf (before ++ behind)).answer) ∧
    (∀ path : List PathEntry, (∀ entry ∈ path, ∃ i, Issued actions i ∧ i.id = entry.1) →
      ∀ future r', (∀ a ∈ future, a.resets number = false) →
        (empty.after (actions ++ future)).registries[number]? = some r' →
        (r'.traceOf path).answer = (r.traceOf path).answer) := by
  refine ⟨?_, ?_, ?_, ?_⟩
  · intro path
    have answers := Registry.answersPath (laidOut_of_getElem? there) path
    refine ⟨answers, ?_, ?_⟩
    · intro name same
      obtain ⟨-, entry, -, -, -, offends⟩ := answers.fault _ same
      cases offends
    · intro name offset count arity same
      obtain ⟨-, entry, -, -, -, offends⟩ := answers.fault _ same
      cases offends
  · intro path path' trace trace' done done'
    exact Registry.traceOf_append done done'
  · intro before id args behind p good other
    exact Registry.traceOf_of_skip good other before behind
  · intro path issued future r' noReset there'
    refine Registry.traceOf_congr ?_
    rintro ⟨id, args⟩ mem
    obtain ⟨i, given, rfl⟩ := issued _ mem
    exact given.stepOf_after there there' noReset args

/-- A block with no arguments at all, then a deposit.  A version is added in between, and a
registry that did not give the identities out refuses the path. -/
theorem traceOf_exact_deposit :
    let vault : Program.Contract := ⟨⟨1⟩, "Vault", [⟨⟨2⟩, "balance", .int⟩], []⟩
    let deposit : Program.Function := ⟨⟨3⟩, "deposit", .function, some "Vault", [], []⟩
    let summary : Declaration :=
      ⟨"summary", .relation [.int, .int], .functionSummary, .function deposit, 1⟩
    let actions : List Action := [.addRegistry .reject, .addRegistry .reject,
      .ask 0 (.create summary (.ofContract (some vault))), .ask 0 (.createUnary "block")]
    let path : List PathEntry := [(⟨1, 1⟩, []), (⟨1, 0⟩, ["5", "7"])]
    let trace : Trace := ⟨[⟨"summary", "Vault.deposit(5, 7)", [⟨"balance", "7"⟩]⟩]⟩
    ∃ r s r', (empty.after actions).registries[0]? = some r ∧
      (empty.after actions).registries[1]? = some s ∧
      (empty.after (actions ++ [.ask 0 (.addVersion ⟨1, 0⟩)])).registries[0]? = some r' ∧
      (r.traceOf path).answer = .ok trace ∧ r.Traces path trace.steps ∧
      (r'.traceOf path).answer = .ok trace ∧ ¬ ∃ t, (s.traceOf path).answer = .ok t := by
  intro vault deposit summary actions path trace
  refine ⟨_, _, _, rfl, rfl, rfl, ?_⟩
  obtain ⟨answers, -, -, later⟩ := traceOf_exact actions 0 _ rfl
  obtain ⟨foreign, -⟩ := traceOf_exact actions 1 _ rfl
  have given : ∀ entry ∈ path, ∃ i, Issued actions i ∧ i.id = entry.1 := by
    intro entry mem
    rcases List.mem_pair.mp mem with rfl | rfl
    · exact ⟨⟨0, 0, ⟨1, 1⟩, "block"⟩,
        ⟨actions.take 3, .createUnary "block", [], _, rfl, rfl, rfl, by decide⟩, rfl⟩
    · exact ⟨⟨0, 0, ⟨1, 0⟩, "summary"⟩,
        ⟨actions.take 2, .create summary (.ofContract (some vault)), actions.drop 3, _, rfl, rfl,
          rfl, by decide⟩, rfl⟩
  have unreset : ∀ a ∈ [Action.ask 0 (.addVersion ⟨1, 0⟩)], a.resets 0 = false := by
    intro a mem
    rw [List.mem_singleton.mp mem]
    rfl
  have shown := later path given [.ask 0 (.addVersion ⟨1, 0⟩)] _ unreset rfl
  refine ⟨rfl, (answers path).1.steps trace rfl, shown, ?_⟩
  rw [(foreign path).1.succeeds]
  intro accepts
  obtain ⟨p, good, -⟩ := accepts _ List.mem_cons_self
  cases good

end Session

end Hornbook
