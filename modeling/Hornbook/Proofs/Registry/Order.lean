import Hornbook.Proofs.Registry.Creation
import Hornbook.Proofs.Registry.Renaming

/-!
# The order of operations

What a run makes of an empty registry depends on little of the run.  There are the
predicates that it makes, in their order, and for each of them the number of versions that
are added to it (`Registry.predicates_after`).  When the versions are added does not matter,
and whatever else is asked or fails in between does not matter either.

So two runs that make the same predicates and add as many versions to each lead to the same
registry, up to the number of its run, and nothing that is asked later tells the two apart
(`Registry.order_irrelevant`).
-/

namespace Hornbook

/-! ## Predicates with more versions -/

namespace Predicate

/-- A predicate with some more versions. -/
def addVersions (p : Predicate) (count : Nat) : Predicate :=
  { p with symbol := { p.symbol with latest := p.latest + count } }

theorem addVersions_zero (p : Predicate) : p.addVersions 0 = p := rfl

theorem addVersions_addVersion (p : Predicate) (count : Nat) :
    p.addVersion.addVersions count = p.addVersions (1 + count) := by
  simp only [addVersions, addVersion, latest, VersionedSymbol.addVersion, Nat.add_assoc]

end Predicate

/-- What a predicate is made from: a declaration, and the state variables that it got from
its scope.  A scope that does not know counts as one that sees no variable. -/
structure Making where
  declaration : Declaration
  stateVariables : Option (List Program.Variable)

/-- The predicate that is made, with its first version only. -/
def Making.predicate (m : Making) : Predicate where
  symbol := ⟨m.declaration.name, m.declaration.signature, 0⟩
  role := m.declaration.role
  node := m.declaration.node
  stateVariables := m.stateVariables
  stateOffset := m.declaration.stateOffset

/-- What a predicate was made from can be read off it. -/
def Predicate.making (p : Predicate) : Making :=
  ⟨⟨p.name, p.signature, p.role, p.node, p.stateOffset⟩, p.stateVariables⟩

theorem Making.making_addVersions (m : Making) (count : Nat) :
    (m.predicate.addVersions count).making = m := rfl

theorem Making.latest_addVersions (m : Making) (count : Nat) :
    (m.predicate.addVersions count).latest = count := Nat.zero_add count

/-- A creation adds no version. -/
theorem Exchange.versioned?_of_create {x : Exchange} {d : Declaration} {scope : Program.Scope}
    (h : x.operation = .create d scope) : x.versioned? = none := by
  simp only [versioned?, h]

theorem Transcript.versionsAdded_cons (x : Exchange) (t : Transcript) (id : PredicateId) :
    versionsAdded (x :: t) id
      = (if x.versioned? = some id then 1 else 0) + t.versionsAdded id := by
  rw [versionsAdded, List.countP_cons, Nat.add_comm]
  simp [versionsAdded]

namespace Registry

variable {r r' : Registry} {fresh : Nat} {op : Operation} {answer : Except Fault Answer}
  {id : PredicateId} {p : Predicate}

/-! ## What a run makes -/

/-- What an operation makes a predicate from, if it does.  It has to be a creation under a
free name that succeeds. -/
def making? (r : Registry) : Operation → Option Making
  | .create d scope =>
      match r.find? d.name, (r.create d scope).answer with
      | none, .ok _ => some ⟨d, d.stateVariables scope⟩
      | _, _ => none
  | _ => none

/-- What the predicates of a run are made from, in order. -/
def makings (r : Registry) : List Step → List Making
  | [] => []
  | s :: steps =>
      (r.making? s.operation).toList ++ (r.perform s.fresh s.operation).registry.makings steps

/-- What a step does, if it is no reset: nothing, or one predicate is made, or one predicate
gets a version. -/
inductive Advances (r : Registry) : Option Making → Option PredicateId → Registry → Prop where
  | nothing : Advances r none none r
  | made (m : Making) :
      Advances r (some m) none { r with predicates := r.predicates ++ [m.predicate] }
  | versionAdded {id : PredicateId} {p : Predicate} :
      r.get id = .ok p →
      Advances r none (some id)
        { r with predicates := r.predicates.set id.index p.addVersion }

theorem making?_of_reads (reads : op.Reads) : r.making? op = none := by
  cases op with
  | create => exact False.elim reads
  | _ => rfl

theorem Effect.advances (effect : Effect r fresh op answer r') (noReset : op ≠ .reset)
    {x : Exchange} (hop : x.operation = op) (hanswer : x.outcome.answer = answer) :
    r.Advances (r.making? op) x.versioned? r' := by
  cases effect with
  | reused found | duplicate found =>
      rw [Exchange.versioned?_of_create hop]
      simp only [making?, found]
      exact .nothing
  | unfit free built =>
      rw [Exchange.versioned?_of_create hop]
      simp only [making?, free, create_of_unfit free built]
      exact .nothing
  | @created d scope p free built =>
      rw [Exchange.versioned?_of_create hop, Declaration.build_eq_ok built]
      simp only [making?, free, create_of_fit free built]
      exact .made ⟨d, d.stateVariables scope⟩
  | @versionAdded id p good =>
      have added : x.versioned? = some id := by simp only [Exchange.versioned?, hop, hanswer]
      rw [added]
      exact .versionAdded good
  | versionRefused =>
      rw [(Exchange.silent_of_error hanswer).2]
      exact .nothing
  | reset => exact absurd rfl noReset
  | read reads =>
      rw [making?_of_reads reads, (Exchange.silent_of_reads (hop ▸ reads)).2]
      exact .nothing

/-! ## What a run leaves -/

/-- Each predicate of a list with the number of versions that its position is to get. -/
def withVersions (predicates : List Predicate) (counts : Nat → Nat) : List Predicate :=
  predicates.mapIdx fun index p => p.addVersions (counts index)

theorem getElem?_withVersions (predicates : List Predicate) (counts : Nat → Nat) (i : Nat) :
    (withVersions predicates counts)[i]? = predicates[i]?.map (·.addVersions (counts i)) := by
  rw [withVersions, List.getElem?_mapIdx]

theorem withVersions_zero (predicates : List Predicate) :
    (withVersions predicates fun _ => 0) = predicates := by
  apply List.ext_getElem?
  intro i
  simp only [getElem?_withVersions, Predicate.addVersions_zero, Option.map_id']

/-- A version that was added already is one of those that a position is to get. -/
theorem withVersions_set {predicates : List Predicate} {index : Nat}
    (there : predicates[index]? = some p) (counts : Nat → Nat) :
    withVersions (predicates.set index p.addVersion) counts
      = withVersions predicates fun i => (if index = i then 1 else 0) + counts i := by
  apply List.ext_getElem?
  intro i
  rw [getElem?_withVersions, getElem?_withVersions, List.getElem?_set]
  obtain ⟨inside, -⟩ := List.getElem?_eq_some_iff.mp there
  by_cases own : index = i
  · subst own
    simp only [if_pos inside, there, if_true, Option.map_some, Predicate.addVersions_addVersion]
  · simp only [if_neg own, Nat.zero_add]

theorem Advances.run_eq {made : Option Making} {added : Option PredicateId}
    (h : r.Advances made added r') : r'.run = r.run := by
  cases h with
  | _ => rfl

/-- What a step does now can be done at the end. -/
theorem Advances.withVersions {made : Option Making} {added : Option PredicateId}
    (h : r.Advances made added r') (makings : List Making) (counts : Nat → Nat) :
    Registry.withVersions (r'.predicates ++ makings.map Making.predicate) counts
      = Registry.withVersions
          (r.predicates ++ (made.toList ++ makings).map Making.predicate)
          fun i => (if added = some (r.idAt i) then 1 else 0) + counts i := by
  cases h with
  | nothing => simp
  | made m => simp
  | @versionAdded id p good =>
      have there : r.predicates[id.index]? = some p := (get_eq_ok_iff.mp good).2
      have inside := (List.getElem?_eq_some_iff.mp there).1
      have own (i : Nat) : some id = some (r.idAt i) ↔ id.index = i := by
        rw [Option.some.injEq, ← idAt_index good, idAt, idAt, PredicateId.mk.injEq]
        simp
      rw [← List.set_append_left _ _ inside, withVersions_set]
      · simp only [own, Option.toList_none, List.nil_append]
      · rw [List.getElem?_append_left inside, there]

/-- A run puts what it makes behind the predicates that were there, and gives each of them
the versions that it adds. -/
theorem predicates_after (r : Registry) {steps : List Step}
    (noReset : ∀ s ∈ steps, s.operation ≠ .reset) :
    (r.after steps).predicates
      = withVersions (r.predicates ++ (r.makings steps).map Making.predicate) fun i =>
          (r.transcript steps).versionsAdded (r.idAt i) := by
  induction steps generalizing r with
  | nil =>
      show r.predicates = withVersions (r.predicates ++ []) fun _ => 0
      rw [List.append_nil, withVersions_zero]
  | cons s steps ih =>
      obtain ⟨first, rest⟩ := List.forall_mem_cons.mp noReset
      have advances := (perform_effect r s.fresh s.operation).advances first
        (x := r.exchange s) rfl rfl
      have sameIds : (r.perform s.fresh s.operation).registry.idAt = r.idAt := by
        funext i
        rw [idAt, idAt, advances.run_eq]
      rw [after, ih _ rest, advances.withVersions, makings, transcript, sameIds]
      simp only [Transcript.versionsAdded_cons]

/-! ## Two runs -/

/-- Two runs make the same predicates in the same order, and add as many versions to each. -/
structure SameWork (r : Registry) (steps : List Step) (r' : Registry) (steps' : List Step) :
    Prop where
  makings : r'.makings steps' = r.makings steps
  /-- The identity of the predicate that is made at position `i` has the index `i`. -/
  versions : ∀ i < (r.makings steps).length,
    (r'.transcript steps').versionsAdded (r'.idAt i)
      = (r.transcript steps).versionsAdded (r.idAt i)

theorem getElem?_withVersions_map (made : List Making) (counts : Nat → Nat) (i : Nat) :
    (withVersions (made.map Making.predicate) counts)[i]?
      = made[i]?.map fun m => m.predicate.addVersions (counts i) := by
  rw [getElem?_withVersions, List.getElem?_map, Option.map_map]
  rfl

theorem map_making_withVersions (made : List Making) (counts : Nat → Nat) :
    (withVersions (made.map Making.predicate) counts).map Predicate.making = made := by
  apply List.ext_getElem?
  intro i
  simp only [List.getElem?_map, getElem?_withVersions_map, Option.map_map, Function.comp_def,
    Making.making_addVersions, Option.map_id']

/-- The predicates of a run tell what they were made from and how many versions they got. -/
theorem withVersions_map_eq_iff {made made' : List Making} {counts counts' : Nat → Nat} :
    withVersions (made'.map Making.predicate) counts'
        = withVersions (made.map Making.predicate) counts ↔
      made' = made ∧ ∀ i < made.length, counts' i = counts i := by
  constructor
  · intro same
    have sameMakings : made' = made := by
      rw [← map_making_withVersions made' counts', same, map_making_withVersions]
    subst sameMakings
    refine ⟨rfl, fun i inside => ?_⟩
    have position := congrArg (·[i]?) same
    simp only [getElem?_withVersions_map, List.getElem?_eq_getElem inside, Option.map_some,
      Option.some.injEq] at position
    simpa only [Making.latest_addVersions] using congrArg Predicate.latest position
  · rintro ⟨rfl, same⟩
    apply List.ext_getElem?
    intro i
    rw [getElem?_withVersions_map, getElem?_withVersions_map]
    cases there : made'[i]? with
    | none => rfl
    | some m => rw [same i (List.getElem?_eq_some_iff.mp there).1]

/-- From an empty registry, two runs lead to the same predicates exactly when they do the
same work. -/
theorem predicates_eq_iff_sameWork (policy policy' : DuplicatePolicy) (run run' : Nat)
    {steps steps' : List Step} (noReset : ∀ s ∈ steps, s.operation ≠ .reset)
    (noReset' : ∀ s ∈ steps', s.operation ≠ .reset) :
    ((start policy' run').after steps').predicates = ((start policy run).after steps).predicates ↔
      SameWork (start policy run) steps (start policy' run') steps' := by
  rw [predicates_after _ noReset, predicates_after _ noReset', start, List.nil_append, start,
    List.nil_append, withVersions_map_eq_iff]
  exact ⟨fun same => ⟨same.1, same.2⟩, fun same => ⟨same.makings, same.versions⟩⟩

/-- Two registries that hold the same predicates differ in the number of their run only. -/
theorem after_eq_rename {policy : DuplicatePolicy} {run run' : Nat} {steps steps' : List Step}
    (noReset : ∀ s ∈ steps, s.operation ≠ .reset)
    (noReset' : ∀ s ∈ steps', s.operation ≠ .reset)
    (same : ((start policy run').after steps').predicates
      = ((start policy run).after steps).predicates)
    {f : Nat → Nat} (moved : f run = run') :
    (start policy run').after steps' = ((start policy run).after steps).rename f := by
  obtain ⟨samePolicy, sameRun, -⟩ := continues_after (start policy run) noReset
  obtain ⟨samePolicy', sameRun', -⟩ := continues_after (start policy run') noReset'
  generalize (start policy run).after steps = r at *
  generalize (start policy run').after steps' = r' at *
  obtain ⟨policy₁, run₁, predicates⟩ := r
  obtain ⟨policy₂, run₂, predicates'⟩ := r'
  cases samePolicy
  cases sameRun
  cases samePolicy'
  cases sameRun'
  cases same
  cases moved
  rfl

/-- Two runs without resets start with empty registries of one policy.  They lead to the same
predicates, versions included, exactly when they make the same predicates in the same order
and add as many versions to each.  Then the two registries declare the same, list the same
entries in the same order, and answer alike whatever comes next, resets included, up to a
renaming of runs. -/
theorem order_irrelevant (policy : DuplicatePolicy) (run run' : Nat) {steps steps' : List Step}
    (noReset : ∀ s ∈ steps, s.operation ≠ .reset)
    (noReset' : ∀ s ∈ steps', s.operation ≠ .reset) :
    let r := (start policy run).after steps
    let r' := (start policy run').after steps'
    (r'.predicates = r.predicates ↔
      SameWork (start policy run) steps (start policy run') steps') ∧
    (SameWork (start policy run) steps (start policy run') steps' →
      r'.declarations = r.declarations ∧
      r'.entries = r.entries.map (fun entry => (⟨run', entry.1.index⟩, entry.2)) ∧
      ∀ f : Nat → Nat, Function.Injective f → f run = run' → ∀ later,
        r'.transcript (later.map (Step.rename f))
          = (r.transcript later).map (Exchange.rename f)) := by
  intro r r'
  have determined := predicates_eq_iff_sameWork policy policy run run' noReset noReset'
  refine ⟨determined, fun same => ?_⟩
  have samePredicates := determined.mpr same
  have renamed {f : Nat → Nat} (moved : f run = run') : r' = r.rename f :=
    after_eq_rename noReset noReset' samePredicates moved
  refine ⟨?_, ?_, ?_⟩
  · rw [declarations, samePredicates]
    rfl
  · rw [renamed (f := fun _ => run') rfl, entries_rename]
    rfl
  · intro f inj moved later
    rw [renamed moved, transcript_rename inj]

/-- In one run, a predicate gets its versions before and after another one is made.  In the
other run both are made first, a name is looked up, and a creation and an identity are
refused in between. -/
theorem order_irrelevant_versions_last :
    let steps : List Step := [⟨.createUnary "p", 2⟩, ⟨.addVersion ⟨1, 0⟩, 2⟩,
      ⟨.createUnary "q", 2⟩, ⟨.addVersion ⟨1, 0⟩, 2⟩, ⟨.addVersion ⟨1, 1⟩, 2⟩]
    let steps' : List Step := [⟨.createUnary "p", 8⟩, ⟨.createUnary "q", 8⟩, ⟨.lookup "q", 8⟩,
      ⟨.addVersion ⟨7, 1⟩, 8⟩, ⟨.createUnary "p", 8⟩, ⟨.addVersion ⟨1, 0⟩, 8⟩,
      ⟨.addVersion ⟨7, 0⟩, 8⟩, ⟨.addVersion ⟨7, 0⟩, 8⟩]
    let r := (start .reject 1).after steps
    let r' := (start .reject 7).after steps'
    (∀ s ∈ steps, s.operation ≠ .reset) ∧ (∀ s ∈ steps', s.operation ≠ .reset) ∧
      SameWork (start .reject 1) steps (start .reject 7) steps' ∧
      r.declarations.declaredSymbols = ["p_0", "p_1", "p_2", "q_0", "q_1"] ∧
      r'.declarations = r.declarations ∧
      r'.transcript [⟨.get ⟨7, 1⟩, 8⟩] = (r.transcript [⟨.get ⟨1, 1⟩, 2⟩]).map
        (Exchange.rename (· + 6)) := by
  intro steps steps' r r'
  have noReset : ∀ s ∈ steps, s.operation ≠ .reset := by simp [steps, Operation.createUnary]
  have noReset' : ∀ s ∈ steps', s.operation ≠ .reset := by simp [steps', Operation.createUnary]
  obtain ⟨determined, alike⟩ := order_irrelevant .reject 1 7 noReset noReset'
  have same := determined.mp rfl
  obtain ⟨declared, -, later⟩ := alike same
  refine ⟨noReset, noReset', same, rfl, declared, ?_⟩
  exact later (· + 6) (fun _ _ => Nat.add_right_cancel) rfl [⟨.get ⟨1, 1⟩, 2⟩]

end Registry

end Hornbook
