import Hornbook.Proofs.Session.Reset

/-!
# Registries do not interfere

The registries of a session share the counter of runs and nothing else.  What is done with
the others shows in one registry only through the numbers of its runs.  So leave out of a
session all but one registry and all but what is asked of it (`alone`).  The numbers of runs
are then 1, 2 and so on, and up to that the registry answers as before.

The renaming is fixed by the session.  The runs of the registry are counted in their order,
and all other numbers are moved behind them (`renumber`).  An identity that another registry
gave out is of such another number.  It is refused in the session, and refused alone.

The proof is a simulation.  `Mirrors` relates the session and its part, `Mirrors.act` is one
step and `Mirrors.after` a whole session.
-/

namespace Hornbook

/-! ## One registry in a session -/

/-- What an action asks of the registry of a number. -/
def Action.asked? (number : Nat) : Action → Option Operation
  | .addRegistry _ => none
  | .ask asked op => if asked = number then some op else none

/-- The exchange with the registry of a number, if a turn is one. -/
def Turn.exchange? (number : Nat) (t : Turn) : Option Exchange := do
  let op ← t.action.asked? number
  let outcome ← t.outcome?
  return ⟨op, outcome⟩

theorem Action.asked?_eq_some_iff {a : Action} {number : Nat} {op : Operation} :
    a.asked? number = some op ↔ a = .ask number op := by
  cases a with
  | addRegistry policy => simp [asked?]
  | ask asked op' => simp [asked?]

theorem Action.resets_of_not_asked {a : Action} {number : Nat} (h : a.asked? number = none) :
    a.resets number = false := by
  rw [← Bool.not_eq_true, resets_iff]
  rintro rfl
  simp [asked?] at h

/-- Without a reset, the number of the next run plays no part. -/
theorem Registry.perform_eq_of_ne_reset {op : Operation} (noReset : op ≠ .reset) (r : Registry)
    (fresh fresh' : Nat) : r.perform fresh op = r.perform fresh' op := by
  cases op with
  | reset => exact absurd rfl noReset
  | _ => rfl

theorem Operation.rename_eq_reset_iff {f : Nat → Nat} {op : Operation} :
    op.rename f = .reset ↔ op = .reset := by
  cases op with
  | _ => simp [rename]

/-- A renamed operation has the renamed outcome if, in case of a reset, the runs begun
correspond. -/
theorem Registry.perform_rename_of_begun {f : Nat → Nat} (inj : Function.Injective f)
    (r : Registry) {fresh fresh' : Nat} {op : Operation}
    (begun : op = .reset → f fresh = fresh') :
    (r.rename f).perform fresh' (op.rename f)
      = (r.perform fresh op).rename f (Answer.rename f) := by
  rw [← perform_rename inj]
  by_cases reset : op = .reset
  · rw [begun reset]
  · exact perform_eq_of_ne_reset (mt Operation.rename_eq_reset_iff.mp reset) _ _ _

namespace Session

variable {f : Nat → Nat} {s s' : Session} {a : Action} {actions past future : List Action}
  {number next : Nat} {op : Operation} {r : Registry} {i : Issue}

/-- What is seen of the registry of a number. -/
def heard (s : Session) (number : Nat) (actions : List Action) : Transcript :=
  (s.record actions).filterMap (Turn.exchange? number)

/-- What the registry of a number is asked, as a session of its own.  The runs in it are
renamed. -/
def alone (f : Nat → Nat) (number : Nat) (actions : List Action) : List Action :=
  (actions.filterMap (Action.asked? number)).map fun op => .ask 0 (op.rename f)

/-- The numbers of the runs that the registry of a number begins, in order. -/
def drawn (s : Session) (number : Nat) : List Action → List Nat
  | [] => []
  | a :: actions =>
      if a.resets number then s.nextRun :: (s.act a).drawn number actions
      else (s.act a).drawn number actions

theorem alone_cons_of_not_asked (other : a.asked? number = none) :
    alone f number (a :: actions) = alone f number actions := by
  rw [alone, List.filterMap_cons_none other, alone]

theorem heard_cons_of_not_asked (other : a.asked? number = none) :
    s.heard number (a :: actions) = (s.act a).heard number actions := by
  rw [heard, record, List.filterMap_cons_none (by simp [Turn.exchange?, other]), heard]

theorem alone_cons_ask :
    alone f number (.ask number op :: actions)
      = .ask 0 (op.rename f) :: alone f number actions := by
  rw [alone, List.filterMap_cons_some (Action.asked?_eq_some_iff.mpr rfl), List.map_cons, alone]

/-- A registry that is there answers. -/
theorem heard_cons_ask (there : s.registries[number]? = some r) :
    s.heard number (.ask number op :: actions)
      = ⟨op, r.perform s.nextRun op⟩ :: (s.act (.ask number op)).heard number actions := by
  rw [heard, record, List.filterMap_cons_some, heard]
  simp [Turn.exchange?, Action.asked?, outcome?, step_of_some there]

/-- A registry that is there answers all that it is asked. -/
theorem map_operation_heard (there : s.registries[number]? = some r) (actions : List Action) :
    (s.heard number actions).map Exchange.operation
      = actions.filterMap (Action.asked? number) := by
  induction actions generalizing s r with
  | nil => rfl
  | cons a actions ih =>
      obtain ⟨r', there'⟩ := exists_act there a
      cases asked : a.asked? number with
      | none => rw [heard_cons_of_not_asked asked, List.filterMap_cons_none asked, ih there']
      | some op =>
          obtain rfl := Action.asked?_eq_some_iff.mp asked
          rw [List.filterMap_cons_some asked, heard_cons_ask there, List.map_cons, ih there']

/-! ## Runs that a registry begins -/

theorem drawn_append (s : Session) (number : Nat) (past future : List Action) :
    s.drawn number (past ++ future)
      = s.drawn number past ++ (s.after past).drawn number future := by
  induction past generalizing s with
  | nil => rfl
  | cons a past ih =>
      rw [List.cons_append, drawn, drawn, ih, after]
      split
      · rfl
      · rfl

theorem nextRun_le_of_mem_drawn {run : Nat} (mem : run ∈ s.drawn number actions) :
    s.nextRun ≤ run := by
  induction actions generalizing s with
  | nil => cases mem
  | cons a actions ih =>
      rw [drawn] at mem
      split at mem
      · rcases List.mem_cons.mp mem with rfl | later
        · exact Nat.le_refl _
        · exact Nat.le_trans (nextRun_le_act s a) (ih later)
      · exact Nat.le_trans (nextRun_le_act s a) (ih mem)

/-- A registry that is there begins runs of higher and higher numbers. -/
theorem nodup_drawn (there : s.registries[number]? = some r) (actions : List Action) :
    (s.drawn number actions).Nodup := by
  induction actions generalizing s r with
  | nil => exact List.nodup_nil
  | cons a actions ih =>
      obtain ⟨r', there'⟩ := exists_act there a
      rw [drawn]
      split
      next resets =>
        refine List.nodup_cons.mpr ⟨?_, ih there'⟩
        intro mem
        have later := nextRun_le_of_mem_drawn mem
        rw [Action.resets_iff.mp resets, act, step_of_some there] at later
        exact Nat.not_succ_le_self _ later
      next => exact ih there'

/-! ## Counting runs -/

/-- The runs of a list are counted from 1 on, and all others are moved behind them. -/
def renumber (runs : List Nat) (run : Nat) : Nat :=
  if run ∈ runs then runs.idxOf run + 1 else run + runs.length + 1

theorem renumber_injective (runs : List Nat) : Function.Injective (renumber runs) := by
  intro m n same
  unfold renumber at same
  split at same
  next mem =>
    have first := List.idxOf_lt_length_of_mem mem
    split at same
    next => exact (List.idxOf_inj mem).mp (Nat.succ.inj same)
    next => omega
  next =>
    split at same
    next mem =>
      have first := List.idxOf_lt_length_of_mem mem
      omega
    next => omega

theorem map_renumber {runs : List Nat} (nodup : runs.Nodup) :
    runs.map (renumber runs) = List.range' 1 runs.length := by
  apply List.ext_getElem
  · rw [List.length_map, List.length_range']
  · intro k inside inside'
    rw [List.length_map] at inside
    rw [List.getElem_map, renumber, if_pos (List.getElem_mem inside), nodup.idxOf_getElem,
      List.getElem_range', Nat.one_mul, Nat.add_comm]

/-! ## The simulation -/

/-- The first registry of one session is the registry of a number of another session, with
its runs renamed. -/
def Mirrors (f : Nat → Nat) (s : Session) (number : Nat) (s' : Session) : Prop :=
  ∃ r, s.registries[number]? = some r ∧ s'.registries[0]? = some (r.rename f)

/-- The runs that a registry will begin are renamed into those from `next` on. -/
def InOrder (f : Nat → Nat) (s : Session) (number : Nat) (actions : List Action) (next : Nat) :
    Prop :=
  (s.drawn number actions).map f = List.range' next (s.drawn number actions).length

theorem InOrder.of_append (h : InOrder f s number (past ++ future) next) :
    InOrder f s number past next := by
  rw [InOrder, drawn_append, List.map_append, List.length_append, ← List.range'_append] at h
  refine (List.append_inj h ?_).1
  rw [List.length_map, List.length_range']

theorem getElem?_act_of_not_asked (there : s.registries[number]? = some r)
    (other : a.asked? number = none) : (s.act a).registries[number]? = some r := by
  obtain ⟨r', there'⟩ := exists_act there a
  rw [there']
  cases origin there' with
  | kept before => rw [← before, there]
  | asked before => simp [Action.asked?] at other
  | added =>
      have bound := (List.getElem?_eq_some_iff.mp there).1
      exact absurd bound (Nat.lt_irrefl _)

/-- Other registries do not show. -/
theorem Mirrors.act_of_not_asked (h : Mirrors f s number s') (other : a.asked? number = none) :
    Mirrors f (s.act a) number s' := by
  obtain ⟨r, there, mirrored⟩ := h
  exact ⟨r, getElem?_act_of_not_asked there other, mirrored⟩

theorem InOrder.act_of_not_resets (h : InOrder f s number (a :: actions) next)
    (noReset : a.resets number = false) : InOrder f (s.act a) number actions next := by
  rwa [InOrder, drawn, noReset, if_neg Bool.false_ne_true] at h

theorem InOrder.begun (h : InOrder f s number (.ask number .reset :: actions) next) :
    f s.nextRun = next ∧ InOrder f (s.act (.ask number .reset)) number actions (next + 1) := by
  rw [InOrder, drawn, if_pos (Action.resets_iff.mpr rfl), List.map_cons, List.length_cons,
    List.range'_succ] at h
  exact List.cons.inj h

/-- An operation begins as many runs under either name. -/
theorem InOrder.ask (h : InOrder f s number (.ask number op :: actions) next) :
    (op = .reset → f s.nextRun = next) ∧
      InOrder f (s.act (.ask number op)) number actions (next + (op.rename f).runsBegun) := by
  by_cases reset : op = .reset
  · subst reset
    exact ⟨fun _ => h.begun.1, h.begun.2⟩
  · have noReset : Action.resets number (.ask number op) = false := by
      rw [← Bool.not_eq_true, Action.resets_iff]
      rintro ⟨⟩
      exact reset rfl
    have none : (op.rename f).runsBegun = 0 :=
      Operation.runsBegun_eq_zero_iff.mpr (mt Operation.rename_eq_reset_iff.mp reset)
    rw [none]
    exact ⟨fun isReset => absurd isReset reset, h.act_of_not_resets noReset⟩

theorem nextRun_act_ask (there : s.registries[number]? = some r) :
    (s.act (.ask number op)).nextRun = s.nextRun + op.runsBegun := by
  rw [act, step_of_some there]

/-- An operation of the registry is done in both sessions, with the renamed outcome. -/
theorem Mirrors.ask (inj : Function.Injective f) (h : Mirrors f s number s')
    (begun : op = .reset → f s.nextRun = s'.nextRun) :
    Mirrors f (s.act (.ask number op)) number (s'.act (.ask 0 (op.rename f))) := by
  obtain ⟨r, there, mirrored⟩ := h
  refine ⟨(r.perform s.nextRun op).registry, getElem?_step there, ?_⟩
  rw [act, getElem?_step mirrored, Registry.perform_rename_of_begun inj r begun]
  rfl

/-- A session and its part stay in step, and what is seen of the registry is the same. -/
theorem Mirrors.after (inj : Function.Injective f) (h : Mirrors f s number s')
    (order : InOrder f s number actions s'.nextRun) :
    s'.heard 0 (alone f number actions) = (s.heard number actions).map (Exchange.rename f) ∧
      Mirrors f (s.after actions) number (s'.after (alone f number actions)) := by
  induction actions generalizing s s' with
  | nil => exact ⟨rfl, h⟩
  | cons a actions ih =>
      cases asked : a.asked? number with
      | none =>
          rw [alone_cons_of_not_asked asked, heard_cons_of_not_asked asked]
          exact ih (h.act_of_not_asked asked)
            (order.act_of_not_resets (Action.resets_of_not_asked asked))
      | some op =>
          obtain rfl := Action.asked?_eq_some_iff.mp asked
          obtain ⟨r, there, mirrored⟩ := h
          obtain ⟨begun, rest⟩ := order.ask
          rw [← nextRun_act_ask mirrored] at rest
          have next : Mirrors f (s.act (.ask number op)) number (s'.act (.ask 0 (op.rename f))) :=
            Mirrors.ask inj ⟨r, there, mirrored⟩ begun
          obtain ⟨same, mirrors⟩ := ih next rest
          refine ⟨?_, by rw [alone_cons_ask]; exact mirrors⟩
          rw [alone_cons_ask, heard_cons_ask mirrored, heard_cons_ask there, same, List.map_cons,
            Registry.perform_rename_of_begun inj r begun]
          rfl

/-- The runs of a registry that has just begun can be counted from 1 on. -/
theorem Begins.exists_inOrder {policy : DuplicatePolicy} {run : Nat}
    (h : s.Begins number policy run) (actions : List Action) :
    ∃ f : Nat → Nat, Function.Injective f ∧ f run = 1 ∧ InOrder f s number actions 2 := by
  have fresh : run ∉ s.drawn number actions := by
    intro mem
    have later := nextRun_le_of_mem_drawn mem
    rw [h.2] at later
    exact Nat.not_succ_le_self _ later
  have counted := map_renumber (List.nodup_cons.mpr ⟨fresh, nodup_drawn h.1 actions⟩)
  rw [List.map_cons, List.length_cons, List.range'_succ] at counted
  exact ⟨_, renumber_injective _, List.cons.inj counted⟩

/-- A registry that has just begun is mirrored by the only registry of a session. -/
theorem Begins.mirrors {policy : DuplicatePolicy} {run : Nat} (h : s.Begins number policy run)
    (first : f run = 1) : Mirrors f s number (empty.act (.addRegistry policy)) := by
  refine ⟨_, h.1, ?_⟩
  rw [Registry.rename, Registry.start, first]
  rfl

/-! ## Identities of other registries -/

/-- A registry is at no moment in the run of an identity that another registry gives out,
now or later. -/
theorem Issued.run_ne (issued : Issued (past ++ future) i) (foreign : i.registry ≠ number)
    (there : (empty.after past).registries[number]? = some r) : i.id.run ≠ r.run := by
  obtain ⟨known, rest, same, -, q, p, issuer, good, -⟩ := issued.known
  rw [(Registry.get_eq_ok_iff.mp good).1]
  rcases List.append_eq_append_iff.mp same with ⟨between, rfl, -⟩ | ⟨between, rfl, -⟩
  · rw [after_append] at issuer
    exact (wellNumbered_empty.after past).run_ne_after there issuer fun own => foreign own.1
  · rw [after_append] at there
    refine ((wellNumbered_empty.after known).run_ne_after issuer there ?_).symm
    exact fun own => foreign own.1.symm

/-! ## Independence -/

/-- In every session, a registry answers what it would answer alone, up to a renaming of
runs.  All that it is asked is answered, in either session.  At every moment it refuses the
identities of other registries, and so it does alone. -/
theorem answers_as_alone (before : List Action) (policy : DuplicatePolicy)
    (behind : List Action) :
    let number := (empty.after before).registries.length
    let opened := (empty.after before).act (.addRegistry policy)
    let own := empty.act (.addRegistry policy)
    ∃ f : Nat → Nat, Function.Injective f ∧
      own.heard 0 (alone f number behind)
        = (opened.heard number behind).map (Exchange.rename f) ∧
      (opened.heard number behind).map Exchange.operation
        = behind.filterMap (Action.asked? number) ∧
      ∀ i, Issued (before ++ .addRegistry policy :: behind) i → i.registry ≠ number →
        ∀ past future, behind = past ++ future →
          (∃ r, (opened.after past).registries[number]? = some r ∧ r.Refuses i.id) ∧
          (∃ r, (own.after (alone f number past)).registries[0]? = some r ∧
            r.Refuses (i.id.rename f)) := by
  intro number opened own
  have begins : opened.Begins number policy (empty.after before).nextRun :=
    begins_addRegistry (empty.after before) policy
  obtain ⟨f, inj, first, order⟩ := begins.exists_inOrder behind
  have mirrors : Mirrors f opened number own := begins.mirrors first
  refine ⟨f, inj, (mirrors.after inj order).1, map_operation_heard begins.1 behind, ?_⟩
  rintro i issued foreign past future rfl
  obtain ⟨-, r, there, mirrored⟩ := mirrors.after inj order.of_append
  have different : i.id.run ≠ r.run := by
    rw [← List.cons_append, ← List.append_assoc] at issued
    refine issued.run_ne foreign ?_
    rw [after_append]
    exact there
  refine ⟨⟨r, there, Registry.refuses_of_run_ne different⟩, _, mirrored, ?_⟩
  exact Registry.refuses_of_run_ne (inj.ne different)

/-- Two registries are reset in turn, and one is asked about an identity of the other.  Its
runs 2 and 4 are the runs 1 and 2 that it has alone. -/
theorem answers_as_alone_after_resets :
    let behind : List Action := [.ask 0 (.createUnary "p"), .ask 1 (.createUnary "p"),
      .ask 0 .reset, .ask 1 (.get ⟨1, 0⟩), .ask 1 .reset, .ask 1 (.createUnary "q")]
    let opened := (empty.act (.addRegistry .reject)).act (.addRegistry .reject)
    let own := empty.act (.addRegistry .reject)
    let answers (first foreign second : Nat) : List (Except Fault Answer) :=
      [.ok (.id ⟨first, 0⟩), .error (.stale ⟨foreign, 0⟩), .ok .done, .ok (.id ⟨second, 0⟩)]
    (opened.heard 1 behind).map (·.outcome.answer) = answers 2 1 4 ∧
    ∃ f : Nat → Nat, f 2 = 1 ∧ f 4 = 2 ∧
      (own.heard 0 (alone f 1 behind)).map (·.outcome.answer) = answers 1 (f 1) 2 := by
  intro behind opened own answers
  refine ⟨rfl, ?_⟩
  obtain ⟨f, inj, same, -⟩ := answers_as_alone [.addRegistry .reject] .reject behind
  have renamed : (own.heard 0 (alone f 1 behind)).map (·.outcome.answer)
      = answers (f 2) (f 1) (f 4) := congrArg (List.map (·.outcome.answer)) same
  have head : some (Except.ok (ε := Fault) (Answer.id ⟨1, 0⟩)) = some (.ok (.id ⟨f 2, 0⟩)) :=
    congrArg (·[0]?) renamed
  have last : some (Except.ok (ε := Fault) (Answer.id ⟨2, 0⟩)) = some (.ok (.id ⟨f 4, 0⟩)) :=
    congrArg (·[3]?) renamed
  have first : f 2 = 1 := by simpa using head.symm
  have second : f 4 = 2 := by simpa using last.symm
  rw [first, second] at renamed
  exact ⟨f, first, second, renamed⟩

end Session

end Hornbook
