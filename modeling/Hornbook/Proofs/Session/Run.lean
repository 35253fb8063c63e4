import Hornbook.Session
import Hornbook.Proofs.Registry.Growth

/-!
# Runs of sessions

In a session, registries are added and asked in any order.  `Session.act` is one such
action and `Session.after` is a list of them.  `Origin` lists where a registry of the
next state comes from: it was not asked, or it was asked, or it was just added.

Two things follow for every session.  Seen alone, each registry went through a run of
its own (`OwnRuns`).  And the numbers of runs are never used twice: those in use are
distinct and below the counter (`WellNumbered`), and a registry that was reset or added
later has a number that no registry had before (`nextRun_le_run`).
-/

namespace Hornbook

/-- Something that is done in a session. -/
inductive Action where
  | addRegistry (policy : DuplicatePolicy)
  | ask (number : Nat) (op : Operation)

/-- Whether an action resets the registry of a number. -/
def Action.resets (number : Nat) : Action → Bool
  | .ask asked .reset => asked = number
  | _ => false

theorem Action.resets_iff {a : Action} {number : Nat} :
    a.resets number = true ↔ a = .ask number .reset := by
  cases a with
  | addRegistry policy => simp [resets]
  | ask asked op => cases op <;> simp [resets]

/-- An action that was done, and what it was answered if it asked a registry. -/
structure Turn where
  action : Action
  outcome? : Option (Outcome Answer)

namespace Session

/-- The session after an action. -/
def act (s : Session) : Action → Session
  | .addRegistry policy => s.addRegistry policy
  | .ask number op => (s.step number op).1

/-- The session after a list of actions. -/
def after (s : Session) : List Action → Session
  | [] => s
  | a :: actions => (s.act a).after actions

variable {s : Session} {a : Action} {actions : List Action} {number : Nat} {r r' : Registry}

theorem after_append (s : Session) (past future : List Action) :
    s.after (past ++ future) = (s.after past).after future := by
  induction past generalizing s with
  | nil => rfl
  | cons a past ih => exact ih _

/-- What no action breaks holds after every list of actions. -/
theorem after_of_act {P : Session → Prop} (kept : ∀ {s : Session} (a : Action), P s → P (s.act a))
    (h : P s) (actions : List Action) : P (s.after actions) := by
  induction actions generalizing s with
  | nil => exact h
  | cons a actions ih => exact ih (kept a h)

/-! ## Where registries come from -/

/-- Where the registry of a number comes from, after an action. -/
inductive Origin (s : Session) : Nat → Action → Registry → Prop where
  /-- It was there and was not asked. -/
  | kept {number : Nat} {a : Action} {r : Registry} :
      s.registries[number]? = some r → (∀ op, a ≠ .ask number op) → Origin s number a r
  /-- It was there and was asked. -/
  | asked {number : Nat} {op : Operation} {r : Registry} :
      s.registries[number]? = some r →
      Origin s number (.ask number op) (r.perform s.nextRun op).registry
  /-- It is new. -/
  | added {policy : DuplicatePolicy} :
      Origin s s.registries.length (.addRegistry policy) (.start policy s.nextRun)

theorem step_of_some {op : Operation} (h : s.registries[number]? = some r) :
    s.step number op
      = (⟨s.nextRun + op.runsBegun, s.registries.set number (r.perform s.nextRun op).registry⟩,
          some (r.perform s.nextRun op)) := by
  simp only [step, h]

theorem getElem?_step {op : Operation} (h : s.registries[number]? = some r) :
    (s.step number op).1.registries[number]? = some (r.perform s.nextRun op).registry := by
  rw [step_of_some h]
  exact List.getElem?_set_self (List.getElem?_eq_some_iff.mp h).1

theorem step_of_none {op : Operation} (h : s.registries[number]? = none) :
    s.step number op = (s, none) := by
  simp only [step, h]

theorem origin (h : (s.act a).registries[number]? = some r') : Origin s number a r' := by
  cases a with
  | addRegistry policy =>
      rw [act, addRegistry, List.getElem?_append] at h
      split at h
      next => exact .kept h (fun op => nofun)
      next beyond =>
        rw [List.getElem?_singleton] at h
        split at h
        next first =>
          have position : number = s.registries.length := by omega
          rw [position, ← Option.some.inj h]
          exact .added
        next => cases h
  | ask asked op =>
      rw [act] at h
      cases there : s.registries[asked]? with
      | none =>
          rw [step_of_none there] at h
          refine .kept h ?_
          rintro op' ⟨⟩
          rw [there] at h
          cases h
      | some r =>
          rw [step_of_some there, List.getElem?_set] at h
          split at h
          next same =>
            split at h
            next =>
              subst same
              rw [← Option.some.inj h]
              exact .asked there
            next => cases h
          next other =>
            refine .kept h ?_
            rintro op' ⟨⟩
            exact other rfl

theorem length_registries_le_act (s : Session) (a : Action) :
    s.registries.length ≤ (s.act a).registries.length := by
  cases a with
  | addRegistry policy =>
      rw [act, addRegistry, List.length_append]
      exact Nat.le_add_right _ _
  | ask asked op =>
      rw [act]
      cases there : s.registries[asked]? with
      | none => rw [step_of_none there]
      | some r => rw [step_of_some there, List.length_set]

theorem nextRun_le_act (s : Session) (a : Action) : s.nextRun ≤ (s.act a).nextRun := by
  cases a with
  | addRegistry policy => exact Nat.le_succ _
  | ask asked op =>
      rw [act]
      cases there : s.registries[asked]? with
      | none => rw [step_of_none there]
      | some r =>
          rw [step_of_some there]
          exact Nat.le_add_right _ _

/-- After an action, a registry has grown or begun another run.  Only a registry that is
reset or added begins a run, and it uses up the counter. -/
theorem Origin.grown_or_begun (h : Origin s number a r') :
    (∃ r, s.registries[number]? = some r ∧ a.resets number = false ∧ r.Continues r') ∨
      (r'.run = s.nextRun ∧ (s.act a).nextRun = s.nextRun + 1 ∧
        (a = .ask number .reset ∨
          ∃ policy, a = .addRegistry policy ∧ s.registries.length = number)) := by
  cases h with
  | kept there others =>
      refine .inl ⟨r', there, ?_, .refl r'⟩
      rw [← Bool.not_eq_true, Action.resets_iff]
      exact others .reset
  | @asked number op r there =>
      by_cases reset : op = .reset
      · subst reset
        refine .inr ⟨rfl, ?_, .inl rfl⟩
        rw [act, step_of_some there]
        rfl
      · refine .inl ⟨r, there, ?_, ?_⟩
        · rw [← Bool.not_eq_true, Action.resets_iff]
          rintro ⟨⟩
          exact reset rfl
        · exact (Registry.perform_effect r s.nextRun op).continues reset
  | @added policy => exact .inr ⟨rfl, rfl, .inr ⟨policy, rfl, rfl⟩⟩

/-! ## Growth -/

theorem exists_act (h : s.registries[number]? = some r) (a : Action) :
    ∃ r', (s.act a).registries[number]? = some r' := by
  have bound : number < s.registries.length := (List.getElem?_eq_some_iff.mp h).1
  exact ⟨_, List.getElem?_eq_getElem (Nat.lt_of_lt_of_le bound (length_registries_le_act s a))⟩

/-- A registry that is not reset grows. -/
theorem continues_act (h : s.registries[number]? = some r) (noReset : a.resets number = false) :
    ∃ r', (s.act a).registries[number]? = some r' ∧ r.Continues r' := by
  obtain ⟨r', h'⟩ := exists_act h a
  refine ⟨r', h', ?_⟩
  rcases (origin h').grown_or_begun with ⟨r₀, h₀, -, grown⟩ | ⟨-, -, reset | ⟨-, -, new⟩⟩
  · rw [h] at h₀
    rwa [Option.some.inj h₀]
  · rw [Action.resets_iff.mpr reset] at noReset
    cases noReset
  · have bound := (List.getElem?_eq_some_iff.mp h).1
    omega

theorem continues_after (h : s.registries[number]? = some r)
    (noReset : ∀ a ∈ actions, a.resets number = false) :
    ∃ r', (s.after actions).registries[number]? = some r' ∧ r.Continues r' := by
  induction actions generalizing s r with
  | nil => exact ⟨r, h, .refl r⟩
  | cons a actions ih =>
      obtain ⟨r₁, h₁, first⟩ := continues_act h (noReset a List.mem_cons_self)
      obtain ⟨r', h', rest⟩ := ih h₁ fun b hb => noReset b (List.mem_cons_of_mem _ hb)
      exact ⟨r', h', first.trans rest⟩

/-! ## Numbers of runs -/

/-- What the number of a registry's run has reached, it never falls below. -/
theorem le_run_after {m : Nat} (counter : m ≤ s.nextRun)
    (reached : ∀ r, s.registries[number]? = some r → m ≤ r.run)
    (h : (s.after actions).registries[number]? = some r') : m ≤ r'.run := by
  induction actions generalizing s with
  | nil => exact reached r' h
  | cons a actions ih =>
      refine ih (Nat.le_trans counter (nextRun_le_act s a)) ?_ h
      intro r₁ h₁
      rcases (origin h₁).grown_or_begun with ⟨r, there, -, grown⟩ | ⟨begun, -⟩
      · rw [grown.run]
        exact reached r there
      · rw [begun]
        exact counter

/-- A registry that was reset since has a number that was not in use. -/
theorem nextRun_le_run (reset : ∃ a ∈ actions, a.resets number = true)
    (h : (s.after actions).registries[number]? = some r') : s.nextRun ≤ r'.run := by
  induction actions generalizing s with
  | nil =>
      obtain ⟨a, mem, -⟩ := reset
      cases mem
  | cons a actions ih =>
      obtain ⟨b, mem, resets⟩ := reset
      rcases List.mem_cons.mp mem with rfl | later
      · refine le_run_after (nextRun_le_act s b) ?_ h
        intro r₁ h₁
        rcases (origin h₁).grown_or_begun with ⟨r, -, noReset, -⟩ | ⟨begun, -⟩
        · rw [noReset] at resets
          cases resets
        · exact Nat.le_of_eq begun.symm
      · exact Nat.le_trans (nextRun_le_act s a) (ih ⟨b, later, resets⟩ h)

/-- The numbers of runs in use are distinct, and below the counter. -/
structure WellNumbered (s : Session) : Prop where
  /-- A number in use is below the counter. -/
  below : ∀ {number : Nat} {r : Registry}, s.registries[number]? = some r → r.run < s.nextRun
  /-- A number is in use once. -/
  distinct : ∀ {i j : Nat} {r r' : Registry}, s.registries[i]? = some r →
    s.registries[j]? = some r' → r.run = r'.run → i = j

theorem wellNumbered_empty : empty.WellNumbered where
  below h := by
    rw [empty, List.getElem?_nil] at h
    cases h
  distinct h := by
    rw [empty, List.getElem?_nil] at h
    cases h

theorem WellNumbered.act (h : s.WellNumbered) (a : Action) : (s.act a).WellNumbered where
  below there := by
    rcases (origin there).grown_or_begun with ⟨r, before, -, grown⟩ | ⟨begun, counted, -⟩
    · rw [grown.run]
      exact Nat.lt_of_lt_of_le (h.below before) (nextRun_le_act s a)
    · rw [begun, counted]
      exact Nat.lt_succ_self _
  distinct {i j r r'} hi hj same := by
    rcases (origin hi).grown_or_begun with ⟨q, before, -, grown⟩ | ⟨begun, -, how⟩
    · rcases (origin hj).grown_or_begun with ⟨q', before', -, grown'⟩ | ⟨begun', -⟩
      · refine h.distinct before before' ?_
        rw [← grown.run, same, grown'.run]
      · have old := h.below before
        rw [← grown.run, same, begun'] at old
        exact absurd old (Nat.lt_irrefl _)
    · rcases (origin hj).grown_or_begun with ⟨q', before', -, grown'⟩ | ⟨-, -, how'⟩
      · have old := h.below before'
        rw [← grown'.run, ← same, begun] at old
        exact absurd old (Nat.lt_irrefl _)
      · -- one action begins at most one run
        rcases how with rfl | ⟨policy, rfl, new⟩
        · rcases how' with reset | ⟨policy, added, -⟩
          · exact (Action.ask.inj reset).1
          · cases added
        · rcases how' with reset | ⟨-, -, new'⟩
          · cases reset
          · exact new.symm.trans new'

theorem WellNumbered.after (h : s.WellNumbered) (actions : List Action) :
    (s.after actions).WellNumbered :=
  after_of_act (fun a kept => kept.act a) h actions

/-- Two registries at two moments are in one run only if they are one registry that was
not reset in between. -/
theorem WellNumbered.run_ne_after {i : Nat} (h : s.WellNumbered)
    (before : s.registries[i]? = some r)
    (there : (s.after actions).registries[number]? = some r')
    (other : ¬ (number = i ∧ ∀ a ∈ actions, a.resets number = false)) : r'.run ≠ r.run := by
  by_cases noReset : ∀ a ∈ actions, a.resets number = false
  · cases old : s.registries[number]? with
    | none =>
        have unused : s.nextRun ≤ r'.run :=
          le_run_after (Nat.le_refl _) (fun q hq => by rw [old] at hq; cases hq) there
        exact Nat.ne_of_gt (Nat.lt_of_lt_of_le (h.below before) unused)
    | some q =>
        obtain ⟨q', there', grown⟩ := continues_after old noReset
        rw [there] at there'
        rw [Option.some.inj there', grown.run]
        intro same
        exact other ⟨h.distinct old before same, noReset⟩
  · have reset : ∃ a ∈ actions, a.resets number = true := by simpa using noReset
    exact Nat.ne_of_gt (Nat.lt_of_lt_of_le (h.below before) (nextRun_le_run reset there))

/-! ## What is seen of a session -/

/-- What an action is answered, if it asks a registry that is there. -/
def outcome? (s : Session) : Action → Option (Outcome Answer)
  | .addRegistry _ => none
  | .ask number op => (s.step number op).2

/-- What is done in a session, step by step, and what it comes to. -/
def record (s : Session) : List Action → List Turn
  | [] => []
  | a :: actions => ⟨a, s.outcome? a⟩ :: (s.act a).record actions

/-! ## Registries seen alone -/

/-- Each registry went through a run of its own. -/
def OwnRuns (s : Session) : Prop :=
  ∀ (number : Nat) (r : Registry), s.registries[number]? = some r →
    ∃ policy run steps, r = (Registry.start policy run).after steps

theorem ownRuns_empty : empty.OwnRuns := by
  intro number r h
  rw [empty, List.getElem?_nil] at h
  cases h

theorem OwnRuns.act (h : s.OwnRuns) (a : Action) : (s.act a).OwnRuns := by
  intro number r' there
  cases origin there with
  | kept before => exact h number r' before
  | @asked number op r before =>
      obtain ⟨policy, run, steps, rfl⟩ := h number r before
      refine ⟨policy, run, steps ++ [⟨op, s.nextRun⟩], ?_⟩
      rw [Registry.after_append]
      rfl
  | @added policy => exact ⟨policy, s.nextRun, [], rfl⟩

theorem OwnRuns.after (h : s.OwnRuns) (actions : List Action) : (s.after actions).OwnRuns :=
  after_of_act (fun a kept => kept.act a) h actions

end Session

end Hornbook
