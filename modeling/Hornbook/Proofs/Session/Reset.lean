import Hornbook.Proofs.Registry.Creation
import Hornbook.Proofs.Registry.Renaming
import Hornbook.Proofs.Registry.Views
import Hornbook.Proofs.Session.Identity
import Hornbook.Proofs.Smt.Application

/-!
# A reset registry and a new one

A reset leaves a registry that differs from a newly opened one in the number of its run
and in nothing else.  Numbers of runs can be renamed (`Registry.transcript_rename`), so no
sequence of operations tells the two apart (`AnswerAlike`).  `reset_like_new` puts this
together with what else is lost in a reset.

The renaming is a shift.  It leaves the numbers alone that were in use before, and moves
the ones that the reset registry will use to the ones that the new registry will use
(`shift`).  Identities from before the reset keep their meaning, which is none: both
registries refuse them as long as they live.
-/

namespace Hornbook

/-! ## Nothing in a registry -/

/-- A predicate that was just built has the version 0 and no other. -/
theorem Declaration.symbolAt_of_build {d : Declaration} {scope : Program.Scope} {p : Predicate}
    (built : d.build scope = .ok p) (version : Nat) :
    (∃ symbol, p.symbolAt version = .ok symbol) ↔ version = 0 := by
  rw [Predicate.symbolAt_eq, latest_of_build built]
  constructor
  · rintro ⟨symbol, same⟩
    split at same
    next first => exact Nat.le_zero.mp first
    next => cases same
  · rintro rfl
    exact ⟨_, if_pos (Nat.le_refl 0)⟩

/-- No name is known.  What a declaration asks for is made under the first identity, with
the version 0 and no other. -/
structure Registry.Blank (r : Registry) : Prop where
  misses : ∀ name, r.Misses name
  creates : ∀ d scope p, d.build scope = .ok p →
    (r.create d scope).answer = .ok ⟨r.run, 0⟩ ∧
    (r.create d scope).registry.get ⟨r.run, 0⟩ = .ok p ∧ p.name = d.name ∧
    ∀ version, (∃ symbol, p.symbolAt version = .ok symbol) ↔ version = 0

theorem Registry.blank_start (policy : DuplicatePolicy) (run : Nat) : (start policy run).Blank := by
  constructor
  · intro name
    exact misses_of_find? rfl
  · intro d scope p built
    rw [create_of_fit rfl built]
    refine ⟨rfl, ?_, Declaration.name_of_build built, Declaration.symbolAt_of_build built⟩
    exact get_append (start policy run) p

/-! ## Asking one registry -/

theorem Operation.runsBegun_rename (f : Nat → Nat) (op : Operation) :
    (op.rename f).runsBegun = op.runsBegun := by
  cases op with
  | _ => rfl

namespace Session

variable {s s' : Session} {actions : List Action} {number number' m n : Nat} {r : Registry}
  {i : Issue}

/-- What is seen of a registry that is asked some operations, one after the other. -/
def dialogue (s : Session) (number : Nat) : List Operation → Transcript
  | [] => []
  | op :: ops =>
      ((s.step number op).2.map (Exchange.mk op)).toList ++ (s.step number op).1.dialogue number ops

/-- Operations as steps of a run.  The runs that they begin are counted from `next` on. -/
def numbered (next : Nat) : List Operation → List Step
  | [] => []
  | op :: ops => ⟨op, next⟩ :: numbered (next + op.runsBegun) ops

theorem dialogue_eq_transcript (there : s.registries[number]? = some r) (ops : List Operation) :
    s.dialogue number ops = r.transcript (numbered s.nextRun ops) := by
  induction ops generalizing s r with
  | nil => rfl
  | cons op ops ih =>
      rw [dialogue, ih (getElem?_step there), step_of_some there]
      rfl

/-- A registry that is there answers every operation. -/
theorem length_dialogue (there : s.registries[number]? = some r) (ops : List Operation) :
    (s.dialogue number ops).length = ops.length := by
  induction ops generalizing s r with
  | nil => rfl
  | cons op ops ih =>
      rw [dialogue, List.length_append, ih (getElem?_step there), step_of_some there,
        List.length_cons, Nat.add_comm]
      rfl

/-! ## Shifting runs -/

/-- The numbers from `m` on are moved up, and `m` comes to `n`. -/
def shift (m n run : Nat) : Nat := if run < m then run else run - m + n

theorem shift_of_lt {run : Nat} (h : run < m) : shift m n run = run := if_pos h

theorem shift_add (m n k : Nat) : shift m n (m + k) = n + k := by
  rw [shift, if_neg (by omega)]
  omega

theorem start_rename_shift (policy : DuplicatePolicy) (m n : Nat) :
    (Registry.start policy m).rename (shift m n) = .start policy n := by
  have moved : shift m n m = n := shift_add m n 0
  rw [Registry.rename, Registry.start, moved]
  rfl

theorem shift_injective (h : m ≤ n) : Function.Injective (shift m n) := by
  intro a b same
  unfold shift at same
  split at same <;> split at same <;> omega

theorem map_rename_numbered (m n k : Nat) (ops : List Operation) :
    (numbered (m + k) ops).map (Step.rename (shift m n))
      = numbered (n + k) (ops.map (Operation.rename (shift m n))) := by
  induction ops generalizing k with
  | nil => rfl
  | cons op ops ih =>
      rw [numbered, List.map_cons, List.map_cons, numbered, Operation.runsBegun_rename,
        Nat.add_assoc, ih, Nat.add_assoc, Step.rename, shift_add]

/-! ## Registries at the start of a run -/

/-- Two registries answer alike.  Some renaming of runs that leaves all identities alone
that were given out in `given` turns every dialogue with the one into a dialogue with the
other. -/
def AnswerAlike (given : List Action) (s : Session) (number : Nat) (s' : Session)
    (number' : Nat) : Prop :=
  ∃ f : Nat → Nat, Function.Injective f ∧ (∀ i, Issued given i → i.id.rename f = i.id) ∧
    ∀ ops, s'.dialogue number' (ops.map (Operation.rename f))
      = (s.dialogue number ops).map (Exchange.rename f)

/-- A registry has just begun the newest run of its session. -/
def Begins (s : Session) (number : Nat) (policy : DuplicatePolicy) (run : Nat) : Prop :=
  s.registries[number]? = some (.start policy run) ∧ s.nextRun = run + 1

theorem begins_reset (there : s.registries[number]? = some r) :
    (s.act (.ask number .reset)).Begins number r.policy s.nextRun := by
  refine ⟨getElem?_step there, ?_⟩
  rw [act, step_of_some there]
  rfl

theorem begins_addRegistry (s : Session) (policy : DuplicatePolicy) :
    (s.act (.addRegistry policy)).Begins s.registries.length policy s.nextRun := by
  refine ⟨?_, rfl⟩
  rw [act, addRegistry, List.getElem?_append_right (Nat.le_refl _), Nat.sub_self]
  rfl

theorem nextRun_le_after (s : Session) (actions : List Action) :
    s.nextRun ≤ (s.after actions).nextRun := by
  induction actions generalizing s with
  | nil => exact Nat.le_refl _
  | cons a actions ih => exact Nat.le_trans (nextRun_le_act s a) (ih _)

theorem Issued.run_lt (issued : Issued actions i) : i.id.run < (empty.after actions).nextRun := by
  obtain ⟨past, future, rfl, -, r, p, there, good, -⟩ := issued.known
  rw [(Registry.get_eq_ok_iff.mp good).1, after_append]
  exact Nat.lt_of_lt_of_le ((wellNumbered_empty.after past).below there) (nextRun_le_after _ _)

/-- Two registries that have just begun, with one policy, answer alike. -/
theorem Begins.answerAlike {policy : DuplicatePolicy} (h : s.Begins number policy m)
    (h' : s'.Begins number' policy n) (old : (empty.after actions).nextRun ≤ m) (le : m ≤ n) :
    AnswerAlike actions s number s' number' := by
  have inj : Function.Injective (shift m n) := shift_injective le
  refine ⟨shift m n, inj, ?_, ?_⟩
  · intro i issued
    rw [PredicateId.rename, shift_of_lt (Nat.lt_of_lt_of_le issued.run_lt old)]
  · intro ops
    rw [dialogue_eq_transcript h.1, dialogue_eq_transcript h'.1, h.2, h'.2,
      ← start_rename_shift policy m n, ← map_rename_numbered, Registry.transcript_rename inj]

/-- As long as a registry lives that has just begun, it refuses what was given out before. -/
theorem Begins.refuses {policy : DuplicatePolicy} (h : s.Begins number policy m)
    (old : (empty.after actions).nextRun ≤ m) (issued : Issued actions i) {later : List Action}
    (there : (s.after later).registries[number]? = some r) : r.Refuses i.id := by
  have reached : m ≤ r.run := by
    refine le_run_after ?_ ?_ there
    · rw [h.2]
      exact Nat.le_succ m
    · intro r₀ h₀
      rw [h.1] at h₀
      rw [← Option.some.inj h₀]
      exact Nat.le_refl m
  refine Registry.refuses_of_run_ne (Nat.ne_of_lt ?_)
  exact Nat.lt_of_lt_of_le issued.run_lt (Nat.le_trans old reached)

/-! ## After a reset -/

/-- A registry that was just reset has nothing in it.  It answers like itself after one more
reset, and like a registry that is opened with its policy at any later time.  What was given
out before, both refuse for good. -/
theorem reset_like_new (actions : List Action) (number : Nat) (r : Registry)
    (there : (empty.after actions).registries[number]? = some r) :
    let s := empty.after actions
    let reset := s.act (.ask number .reset)
    (∃ r', reset.registries[number]? = some r' ∧ r'.Blank) ∧
    (∀ ops, (reset.dialogue number ops).length = ops.length) ∧
    AnswerAlike actions reset number (reset.act (.ask number .reset)) number ∧
    ∀ between : List Action,
      let new := (s.after between).registries.length
      let opened := (s.after between).act (.addRegistry r.policy)
      AnswerAlike actions reset number opened new ∧
      ∀ i, Issued actions i → ∀ later r',
        (reset.after later).registries[number]? = some r' ∨
          (opened.after later).registries[new]? = some r' →
        r'.Refuses i.id := by
  intro s reset
  have begun : reset.Begins number r.policy s.nextRun := begins_reset there
  have old : s.nextRun ≤ s.nextRun := Nat.le_refl _
  refine ⟨⟨_, begun.1, Registry.blank_start _ _⟩, length_dialogue begun.1, ?_, ?_⟩
  · have again : (reset.act (.ask number .reset)).Begins number r.policy reset.nextRun :=
      begins_reset (r := .start r.policy s.nextRun) begun.1
    exact begun.answerAlike again old (nextRun_le_act s (.ask number .reset))
  · intro between new opened
    have fresh : opened.Begins new r.policy (s.after between).nextRun :=
      begins_addRegistry (s.after between) r.policy
    have le : s.nextRun ≤ (s.after between).nextRun := nextRun_le_after s between
    refine ⟨begun.answerAlike fresh old le, ?_⟩
    rintro i issued later r' (ours | theirs)
    · exact begun.refuses old issued ours
    · exact fresh.refuses le issued theirs

/-- A predicate gets a version and is forgotten.  A registry that is opened later has runs of
its own, and answers like the one that was reset. -/
theorem reset_like_new_version :
    let actions : List Action := [.addRegistry .reuseIdentical, .ask 0 (.createUnary "p"),
      .ask 0 (.addVersion ⟨1, 0⟩)]
    let reset := (empty.after actions).act (.ask 0 .reset)
    let opened := ((empty.after actions).after [.ask 0 .reset]).act (.addRegistry .reuseIdentical)
    let ops (id : PredicateId) : List Operation :=
      [.get ⟨1, 0⟩, .createUnary "p", .addVersion id, .symbolAt id 2]
    let answers (id : PredicateId) : List (Except Fault Answer) :=
      [.error (.stale ⟨1, 0⟩), .ok (.id id), .ok .done, .error (.invalidVersion "p" 2 1)]
    ∃ r, (empty.after actions).registries[0]? = some r ∧
      AnswerAlike actions reset 0 opened 1 ∧
      (reset.dialogue 0 (ops ⟨2, 0⟩)).map (·.outcome.answer) = answers ⟨2, 0⟩ ∧
      (opened.dialogue 1 (ops ⟨3, 0⟩)).map (·.outcome.answer) = answers ⟨3, 0⟩ ∧
      ∃ r', reset.registries[0]? = some r' ∧ r'.Misses "p" ∧ r'.Refuses ⟨1, 0⟩ := by
  intro actions reset opened ops answers
  refine ⟨_, rfl, ?_⟩
  obtain ⟨⟨r', there, blank⟩, -, -, alike⟩ := reset_like_new actions 0 _ rfl
  obtain ⟨same, stale⟩ := alike [.ask 0 .reset]
  have issued : Issued actions ⟨0, 0, ⟨1, 0⟩, "p"⟩ :=
    ⟨actions.take 1, .createUnary "p", actions.drop 2, _, rfl, rfl, rfl, by decide⟩
  exact ⟨same, rfl, rfl, r', there, blank.misses "p", stale _ issued [] r' (.inl there)⟩

end Session

end Hornbook
