import Hornbook.Proofs.Registry.Names

/-!
# Renaming runs

The number of a run is compared with other numbers of runs and serves nothing else.  So if
the numbers are changed one to one, everywhere at once, a registry does what it did before.
It gives the same answers with the new numbers in them, logs the same events and asks the
same questions.  `perform_rename` says this of one operation and `transcript_rename` of a
run.

Only the registry can say that an identity is stale.  A predicate that is asked something
finds no fault with a number in it (`RunFree`), so its answers stay as they are.
-/

namespace Hornbook

/-! ## What a renaming does -/

section Definitions

variable (f : Nat → Nat)

def PredicateId.rename (id : PredicateId) : PredicateId := ⟨f id.run, id.index⟩

def Fault.rename : Fault → Fault
  | .stale id => .stale (id.rename f)
  | fault => fault

/-- An answer is changed by `g`, and a fault has its runs renamed. -/
def renameResult {α β : Type} (g : α → β) : Except Fault α → Except Fault β
  | .ok a => .ok (g a)
  | .error fault => .error (fault.rename f)

/-- An identity together with something that has no run in it. -/
def renameFst {α : Type} (entry : PredicateId × α) : PredicateId × α := (entry.1.rename f, entry.2)

def Operation.rename : Operation → Operation
  | .get id => .get (id.rename f)
  | .addVersion id => .addVersion (id.rename f)
  | .symbolAt id version => .symbolAt (id.rename f) version
  | .apply id args => .apply (id.rename f) args
  | .applyAt id version args => .applyAt (id.rename f) version args
  | .call id args => .call (id.rename f) args
  | .stateValues id args => .stateValues (id.rename f) args
  | .state id args => .state (id.rename f) args
  | .trace path => .trace (path.map (renameFst f))
  | op => op

def Answer.rename : Answer → Answer
  | .id i => .id (i.rename f)
  | .entries es => .entries (es.map (renameFst f))
  | answer => answer

def Registry.rename (r : Registry) : Registry := { r with run := f r.run }

/-- Events and questions have no runs in them. -/
def Outcome.rename {α β : Type} (g : α → β) (o : Outcome α) : Outcome β where
  answer := renameResult f g o.answer
  registry := o.registry.rename f
  events := o.events
  questions := o.questions

def Step.rename (s : Step) : Step := ⟨s.operation.rename f, f s.fresh⟩

def Exchange.rename (x : Exchange) : Exchange :=
  ⟨x.operation.rename f, x.outcome.rename f (Answer.rename f)⟩

end Definitions

/-! ## Faults of predicates -/

/-- No fault with a run in it. -/
def RunFree {α : Type} (e : Except Fault α) : Prop := ∀ id, e ≠ .error (.stale id)

section RunFree

variable {f : Nat → Nat} {α β : Type}

theorem rename_of_runFree {e : Except Fault α} (free : RunFree e) : renameResult f id e = e := by
  cases e with
  | ok a => rfl
  | error fault =>
      cases fault with
      | stale id => exact absurd rfl (free id)
      | _ => rfl

theorem RunFree.bind {e : Except Fault α} {g : α → Except Fault β} (free : RunFree e)
    (rest : ∀ a, RunFree (g a)) : RunFree (e >>= g) := by
  intro id same
  cases e with
  | ok a => exact rest a id same
  | error fault =>
      cases same
      exact free id rfl

theorem runFree_ok (a : α) : RunFree (.ok a) := nofun

theorem runFree_build (d : Declaration) (scope : Program.Scope) : RunFree (d.build scope) := by
  intro id same
  rw [Declaration.build_eq_buildWith] at same
  unfold Declaration.buildWith at same
  split at same
  · split at same <;> cases same
  · cases same

variable (p : Predicate)

theorem runFree_symbolAt (version : Nat) : RunFree (p.symbolAt version) := by
  intro id same
  unfold Predicate.symbolAt at same
  split at same <;> cases same

theorem runFree_applySymbol (symbol : FunSymbol) (args : List Expr) :
    RunFree (p.applySymbol symbol args) := by
  intro id same
  unfold Predicate.applySymbol at same
  cases applied : symbol.apply args with
  | ok e => rw [applied] at same; cases same
  | error fault =>
      rw [applied] at same
      cases fault with
      | _ => cases same

theorem runFree_applyAt (version : Nat) (args : List Expr) : RunFree (p.applyAt version args) :=
  (runFree_symbolAt p version).bind fun symbol => runFree_applySymbol p symbol args

theorem runFree_call (args : List String) : RunFree (p.call args) := by
  intro id same
  unfold Predicate.call at same
  split at same <;> cases same

theorem runFree_stateValues (args : List String) : RunFree (p.stateValues args) := by
  intro id same
  unfold Predicate.stateValues at same
  split at same
  · split at same
    · cases same
    · split at same <;> cases same
  · cases same

theorem runFree_state (args : List String) : RunFree (p.state args) :=
  (runFree_stateValues p args).bind fun _ => runFree_ok _

end RunFree

namespace Registry

variable {f : Nat → Nat} {r : Registry} {α : Type}

/-! ## Operations -/

theorem get_rename (inj : Function.Injective f) (r : Registry) (i : PredicateId) :
    (r.rename f).get (i.rename f) = renameResult f id (r.get i) := by
  have sameRun : f i.run = f r.run ↔ i.run = r.run := inj.eq_iff
  unfold get
  simp only [rename, PredicateId.rename, sameRun]
  split
  · split <;> rfl
  · rfl

/-- A question to a predicate has the same answer under the new identity. -/
theorem get_bind_rename (inj : Function.Injective f) (r : Registry) (i : PredicateId)
    {g : Predicate → Except Fault α} (free : ∀ p, RunFree (g p)) :
    ((r.rename f).get (i.rename f) >>= g) = renameResult f id (r.get i >>= g) := by
  rw [get_rename inj]
  cases r.get i with
  | ok p => exact (rename_of_runFree (free p)).symm
  | error fault => rfl

theorem entries_rename (r : Registry) : (r.rename f).entries = r.entries.map (renameFst f) := by
  apply List.ext_getElem?
  intro i
  rw [List.getElem?_map, getElem?_entries, getElem?_entries, Option.map_map]
  rfl

theorem find?_rename (r : Registry) (name : String) :
    (r.rename f).find? name = (r.find? name).map (renameFst f) := by
  rw [find?, entries_rename, List.find?_map]
  rfl

theorem create_rename (r : Registry) (d : Declaration) (scope : Program.Scope) :
    (r.rename f).create d scope = (r.create d scope).rename f (PredicateId.rename f) := by
  unfold create
  rw [find?_rename]
  cases r.find? d.name with
  | some entry =>
      obtain ⟨i, p⟩ := entry
      dsimp only [Option.map_some, renameFst]
      by_cases matching : r.policy = .reuseIdentical ∧ p.Matches d
      · rw [if_pos matching]
        exact if_pos matching
      · rw [if_neg matching]
        exact if_neg matching
  | none =>
      cases built : d.build scope with
      | ok p =>
          rw [Declaration.askPredicate_of_build built]
          rfl
      | error fault =>
          rw [Declaration.askPredicate_of_build built]
          have same : renameResult f id (.error fault) = Except.error (α := Predicate) fault := by
            rw [← built]
            exact rename_of_runFree (runFree_build d scope)
          have kept : fault.rename f = fault := Except.error.inj same
          simp only [Option.map_none, Outcome.rename, renameResult, kept]

theorem lookup_rename (r : Registry) (name : String) :
    (r.rename f).lookup name = (r.lookup name).rename f (PredicateId.rename f) := by
  unfold lookup
  rw [find?_rename]
  cases r.find? name with
  | some entry => rfl
  | none => rfl

theorem predicate_rename (r : Registry) (name : String) :
    (r.rename f).predicate name = renameResult f id (r.predicate name) := by
  unfold predicate
  rw [find?_rename]
  cases r.find? name with
  | some entry => rfl
  | none => rfl

theorem addVersion_rename (inj : Function.Injective f) (r : Registry) (i : PredicateId) :
    (r.rename f).addVersion (i.rename f) = (r.addVersion i).rename f id := by
  unfold addVersion
  rw [get_rename inj]
  cases r.get i with
  | ok p => rfl
  | error fault => rfl

theorem answering_rename {e e' : Except Fault α} (same : e' = renameResult f id e) :
    (r.rename f).answering e' = (r.answering e).rename f id := by
  rw [same]
  rfl

theorem asking_rename (inj : Function.Injective f) (r : Registry) (i : PredicateId)
    {g : Predicate → Except Fault α} (free : ∀ p, RunFree (g p)) :
    (r.rename f).asking (i.rename f) g = (r.asking i g).rename f id :=
  answering_rename (get_bind_rename inj r i free)

/-! ## Paths -/

theorem stepOf_rename (inj : Function.Injective f) (r : Registry) (entry : PathEntry) :
    (r.rename f).stepOf (renameFst f entry) = renameResult f id (r.stepOf entry) := by
  refine get_bind_rename inj r entry.1 fun p => ?_
  split
  · refine (runFree_call p entry.2).bind fun call => ?_
    exact (runFree_state p entry.2).bind fun state => runFree_ok _
  · exact runFree_ok _

theorem stepsOf_rename (inj : Function.Injective f) (r : Registry) (path : List PathEntry) :
    (r.rename f).stepsOf (path.map (renameFst f)) = renameResult f id (r.stepsOf path) := by
  induction path with
  | nil => rfl
  | cons entry path ih =>
      rw [List.map_cons, stepsOf, stepOf_rename inj, ih, stepsOf]
      cases r.stepOf entry with
      | error fault => rfl
      | ok step =>
          cases r.stepsOf path with
          | error fault => rfl
          | ok steps => rfl

theorem traceOf_rename (inj : Function.Injective f) (r : Registry) (path : List PathEntry) :
    (r.rename f).traceOf (path.map (renameFst f)) = (r.traceOf path).rename f id := by
  unfold traceOf
  rw [stepsOf_rename inj, List.length_map]
  cases r.stepsOf path with
  | error fault => rfl
  | ok steps => rfl

/-! ## Runs -/

/-- An outcome can be renamed before or after its answer is put into words. -/
theorem map_rename {β : Type} {g : α → β} {h : α → Answer} {h' : β → Answer} {o : Outcome α}
    {o' : Outcome β} (same : o' = o.rename f g) (commute : ∀ a, h' (g a) = (h a).rename f) :
    o'.map h' = (o.map h).rename f (Answer.rename f) := by
  obtain ⟨answer, registry, events, questions⟩ := o
  subst same
  cases answer with
  | error fault => rfl
  | ok a => simp only [Outcome.rename, Outcome.map, renameResult, Except.map, commute]

/-- A renamed operation on the renamed registry has the renamed outcome. -/
theorem perform_rename (inj : Function.Injective f) (r : Registry) (fresh : Nat) (op : Operation) :
    (r.rename f).perform (f fresh) (op.rename f)
      = (r.perform fresh op).rename f (Answer.rename f) := by
  cases op with
  | create d scope => exact map_rename (create_rename r d scope) fun _ => rfl
  | lookup name => exact map_rename (lookup_rename r name) fun _ => rfl
  | predicate name =>
      exact map_rename (answering_rename (predicate_rename r name)) fun _ => rfl
  | get i => exact map_rename (answering_rename (get_rename inj r i)) fun _ => rfl
  | addVersion i => exact map_rename (addVersion_rename inj r i) fun _ => rfl
  | symbolAt i version =>
      exact map_rename (asking_rename inj r i fun p => runFree_symbolAt p version) fun _ => rfl
  | apply i args =>
      exact map_rename (asking_rename inj r i fun p => runFree_applySymbol p _ args) fun _ => rfl
  | applyAt i version args =>
      exact map_rename (asking_rename inj r i fun p => runFree_applyAt p version args) fun _ => rfl
  | call i args =>
      exact map_rename (asking_rename inj r i fun p => runFree_call p args) fun _ => rfl
  | stateValues i args =>
      exact map_rename (asking_rename inj r i fun p => runFree_stateValues p args) fun _ => rfl
  | state i args =>
      exact map_rename (asking_rename inj r i fun p => runFree_state p args) fun _ => rfl
  | trace path => exact map_rename (traceOf_rename inj r path) fun _ => rfl
  | entries =>
      have same := entries_rename (f := f) r
      exact congrArg (fun es => (r.rename f).answering (.ok (Answer.entries es))) same
  | declarations | size | policy | reset => rfl

theorem transcript_rename (inj : Function.Injective f) (r : Registry) (steps : List Step) :
    (r.rename f).transcript (steps.map (Step.rename f))
      = (r.transcript steps).map (Exchange.rename f) := by
  induction steps generalizing r with
  | nil => rfl
  | cons s steps ih =>
      have outcome := perform_rename inj r s.fresh s.operation
      have next : ((r.rename f).perform (f s.fresh) (s.operation.rename f)).registry
          = (r.perform s.fresh s.operation).registry.rename f := by
        rw [outcome]
        rfl
      rw [List.map_cons, transcript, transcript, List.map_cons]
      congr 1
      · exact congrArg (Exchange.mk _) outcome
      · rw [← ih, ← next]
        rfl

end Registry

end Hornbook
