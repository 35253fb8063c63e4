import Hornbook.Event.Log
import Hornbook.Proofs.Registry.Creation
import Hornbook.Proofs.Registry.Views

/-!
# The log mirrors the registry

A log is enough to know the predicates of a registry.  Each operation that changes something
writes exactly the lines that change the table in the same way, and no other operation writes
a line that the table cares for (`Records`).  So the table that is read from the log is the
table of the predicates, after every run (`replay_log`).

`log_mirrors_registry` adds what single lines say.  They agree with the table that was read up
to them.  A warning stands in front of the line about the predicate that it warns of, and an
operation that fails writes nothing that matters.
-/

namespace Hornbook

/-- The row that a log should have for a predicate. -/
def Predicate.logRow (p : Predicate) : LogRow :=
  ⟨p.name, p.role.word, toString p.arity, p.node.kind.word, toString p.latest⟩

/-- An event that tells nothing about the predicates of a registry. -/
def Event.Aside : Event → Prop
  | reused _ => True
  | lookedUp _ => True
  | traceBuilt .. => True
  | _ => False

/-- The lines that an operation writes. -/
def Outcome.lines {α : Type} (o : Outcome α) : List LogLine := o.events.map Event.line

/-- A line names one row of a table, and its version is the next one of that row. -/
def LogLine.Advances (l : LogLine) (table : List LogRow) : Prop :=
  ∃ row ∈ table, ∃ version, row.predicate = l.field "predicate" ∧
    row.version = toString version ∧ l.field "version" = toString (version + 1) ∧
    ∀ other ∈ table, other.predicate = l.field "predicate" → other = row

namespace Registry

/-- The rows of all predicates, oldest first. -/
def logTable (r : Registry) : List LogRow := r.entries.map fun entry => entry.2.logRow

/-- The log of a run. -/
def log (r : Registry) (steps : List Step) : List LogLine :=
  (r.transcript steps).flatMap fun x => x.outcome.lines

/-- What becomes of a registry, with the events that are recorded. -/
inductive Records (r : Registry) : Registry → List Event → Prop where
  | created {d : Declaration} {scope : Program.Scope} {p : Predicate} :
      r.find? d.name = none → d.build scope = .ok p →
      Records r { r with predicates := r.predicates ++ [p] } (creationEvents p)
  | versionAdded {id : PredicateId} {p : Predicate} :
      r.get id = .ok p →
      Records r { r with predicates := r.predicates.set id.index p.addVersion }
        [.versionAdded p.name (p.latest + 1)]
  | reset (fresh : Nat) : Records r (start r.policy fresh) [.reset r.size]
  /-- Nothing changes. -/
  | aside {events : List Event} : (∀ e ∈ events, e.Aside) → Records r r events

variable {r r' : Registry} {events : List Event} {p : Predicate}

/-! ## Single operations -/

theorem create_records (r : Registry) (d : Declaration) (scope : Program.Scope) :
    r.Records (r.create d scope).registry (r.create d scope).events := by
  cases found : r.find? d.name with
  | some entry =>
      rw [(createsTaken_of_find? found).registry]
      refine .aside ?_
      simp only [create, found]
      split
      · exact List.forall_mem_singleton.mpr trivial
      · exact List.forall_mem_nil _
  | none =>
      cases built : d.build scope with
      | error fault =>
          rw [create_of_unfit found built]
          exact .aside (List.forall_mem_nil _)
      | ok p =>
          rw [create_of_fit found built]
          exact .created found built

theorem addVersion_records (r : Registry) (id : PredicateId) :
    r.Records (r.addVersion id).registry (r.addVersion id).events := by
  unfold addVersion
  cases good : r.get id with
  | error fault => exact .aside (List.forall_mem_nil _)
  | ok p => exact .versionAdded good

theorem perform_records (r : Registry) (fresh : Nat) (op : Operation) :
    r.Records (r.perform fresh op).registry (r.perform fresh op).events := by
  cases op with
  | create d scope => exact create_records r d scope
  | addVersion id => exact addVersion_records r id
  | reset => exact .reset fresh
  | lookup name => exact .aside (List.forall_mem_singleton.mpr trivial)
  | trace path =>
      refine .aside ?_
      show ∀ e ∈ (r.traceOf path).events, e.Aside
      unfold traceOf
      cases r.stepsOf path with
      | error fault => exact List.forall_mem_nil _
      | ok steps => exact List.forall_mem_singleton.mpr trivial
  | _ => exact .aside (List.forall_mem_nil _)

/-! ## The table after an operation -/

theorem logTable_eq_map (r : Registry) : r.logTable = r.predicates.map Predicate.logRow := by
  rw [logTable, ← map_snd_entries, List.map_map]
  rfl

theorem enter_aside {table : List LogRow} {e : Event} (aside : e.Aside) :
    LogLine.enter table e.line = table := by
  refine LogLine.enter_other ?_ ?_ ?_
  · rw [LogLine.tellsCreated_line]
    rintro ⟨_, _, _, _, rfl⟩
    exact aside
  · rw [LogLine.tellsVersion_line]
    rintro ⟨_, _, rfl⟩
    exact aside
  · rw [LogLine.tellsReset_line]
    rintro ⟨_, rfl⟩
    exact aside

theorem foldl_enter_aside {table : List LogRow} (aside : ∀ e ∈ events, e.Aside) :
    (events.map Event.line).foldl LogLine.enter table = table := by
  induction events with
  | nil => rfl
  | cons e events ih =>
      obtain ⟨first, rest⟩ := List.forall_mem_cons.mp aside
      rw [List.map_cons, List.foldl_cons, enter_aside first, ih rest]

/-- A warning changes nothing, and the line behind it adds the row of the new predicate. -/
theorem foldl_enter_creationEvents {table : List LogRow} (first : p.latest = 0) :
    ((creationEvents p).map Event.line).foldl LogLine.enter table = table ++ [p.logRow] := by
  have row : p.logRow = ⟨p.name, p.role.word, toString p.arity, p.node.kind.word, "0"⟩ := by
    rw [Predicate.logRow, first]
    rfl
  unfold creationEvents
  split
  · have warned : LogLine.enter table (Event.roleMismatch p.name p.role p.node.kind).line = table :=
      LogLine.enter_other (by simp [LogLine.tellsCreated_line])
        (by simp [LogLine.tellsVersion_line]) (by simp [LogLine.tellsReset_line])
    simp [warned, LogLine.enter_created, row]
  · simp [LogLine.enter_created, row]

/-- Under distinct names, the row of one predicate gets its new version and the others stay. -/
theorem map_logRow_set (distinct : r.DistinctNames) {i : Nat} (there : r.predicates[i]? = some p) :
    (r.predicates.set i p.addVersion).map Predicate.logRow
      = (r.predicates.map Predicate.logRow).map fun row =>
          if row.predicate = p.name then { row with version := toString (p.latest + 1) }
          else row := by
  apply List.ext_getElem?
  intro j
  rw [List.getElem?_map, List.getElem?_map, List.getElem?_map]
  by_cases same : i = j
  · subst same
    rw [List.getElem?_set_self (List.getElem?_eq_some_iff.mp there).1, there]
    exact congrArg some (if_pos rfl).symm
  · rw [List.getElem?_set_ne same]
    cases other : r.predicates[j]? with
    | none => rfl
    | some q =>
        have apart : q.name ≠ p.name := by
          intro named
          refine same (distinct.position_eq (getElem?_names there) ?_)
          rw [← named]
          exact getElem?_names other
        exact congrArg some (if_neg apart).symm

/-- The lines that an operation writes change the table as the operation changes the
registry. -/
theorem Records.foldl_enter (records : r.Records r' events) (distinct : r.DistinctNames) :
    (events.map Event.line).foldl LogLine.enter r.logTable = r'.logTable := by
  cases records with
  | created free built =>
      rw [foldl_enter_creationEvents (Declaration.latest_of_build built), logTable_eq_map,
        logTable_eq_map, List.map_append]
      rfl
  | versionAdded good =>
      rw [logTable_eq_map, logTable_eq_map, map_logRow_set distinct (get_eq_ok_iff.mp good).2]
      exact LogLine.enter_versionAdded _ _
  | reset fresh =>
      show LogLine.enter r.logTable (Event.reset r.size).line = []
      rw [LogLine.enter_reset]
  | aside aside => exact foldl_enter_aside aside

/-! ## The table after a run -/

theorem log_cons (r : Registry) (s : Step) (steps : List Step) :
    r.log (s :: steps) = (r.perform s.fresh s.operation).lines
      ++ (r.perform s.fresh s.operation).registry.log steps := List.flatMap_cons

theorem foldl_enter_log (distinct : r.DistinctNames) (steps : List Step) :
    (r.log steps).foldl LogLine.enter r.logTable = (r.after steps).logTable := by
  induction steps generalizing r with
  | nil => rfl
  | cons s steps ih =>
      have next : (r.perform s.fresh s.operation).registry.DistinctNames :=
        (perform_effect r s.fresh s.operation).distinctNames distinct
      have written : (r.perform s.fresh s.operation).lines.foldl LogLine.enter r.logTable
          = (r.perform s.fresh s.operation).registry.logTable :=
        (perform_records r s.fresh s.operation).foldl_enter distinct
      rw [log_cons, List.foldl_append, written, ih next, after]

/-- The table that the log of a run makes is the table of the predicates. -/
theorem replay_log (policy : DuplicatePolicy) (run : Nat) (steps : List Step) :
    LogLine.replay ((start policy run).log steps) = ((start policy run).after steps).logTable :=
  foldl_enter_log (distinctNames_start policy run) steps

/-! ## Single lines -/

/-- Every line of a log was written by one operation, behind what the operations before it
wrote. -/
theorem exists_step_of_log {steps : List Step} {before behind : List LogLine} {l : LogLine}
    (split : r.log steps = before ++ l :: behind) :
    ∃ past s future front back, steps = past ++ s :: future ∧
      ((r.after past).perform s.fresh s.operation).lines = front ++ l :: back ∧
      before = r.log past ++ front ∧
      behind = back ++ ((r.after past).perform s.fresh s.operation).registry.log future := by
  induction steps generalizing r before with
  | nil => exact absurd split (by simp [log, transcript])
  | cons s steps ih =>
      rw [log_cons, List.append_eq_append_iff] at split
      rcases split with ⟨rest, shorter, later⟩ | ⟨rest, longer, later⟩
      · obtain ⟨past, s', future, front, back, rfl, written, rfl, rfl⟩ := ih later
        refine ⟨s :: past, s', future, front, back, rfl, written, ?_, rfl⟩
        rw [shorter, log_cons, List.append_assoc]
      · cases rest with
        | nil =>
            have whole : (r.perform s.fresh s.operation).registry.log steps = [] ++ l :: behind :=
              later.symm
            obtain ⟨past, s', future, front, back, rfl, written, empty, rfl⟩ := ih whole
            refine ⟨s :: past, s', future, front, back, rfl, written, ?_, rfl⟩
            rw [log_cons, List.append_assoc, ← empty, longer]
            simp
        | cons l' rest =>
            obtain ⟨rfl, rfl⟩ := List.cons.inj later
            exact ⟨[], s, steps, before, rest, rfl, longer, rfl, rfl⟩

/-- Every line of a log is an event of one operation.  In front of it are the lines of the run
up to that operation and then those of its earlier events. -/
theorem exists_event_of_log {steps : List Step} {before behind : List LogLine} {l : LogLine}
    (split : r.log steps = before ++ l :: behind) :
    ∃ past r' front e back rest, l = e.line ∧ (r.after past).Records r' (front ++ e :: back) ∧
      before = r.log past ++ front.map Event.line ∧ behind = back.map Event.line ++ rest := by
  obtain ⟨past, s, future, front, back, -, written, rfl, rfl⟩ := exists_step_of_log split
  obtain ⟨front, others, recorded, rfl, lines⟩ := List.map_eq_append_iff.mp written
  obtain ⟨e, back, rfl, rfl, rfl⟩ := List.map_eq_cons_iff.mp lines
  have records := perform_records (r.after past) s.fresh s.operation
  rw [recorded] at records
  exact ⟨past, _, front, e, back, _, rfl, records, rfl, rfl⟩

section Lines

variable {front back : List Event} {e : Event}

/-- An operation that records a version records nothing else. -/
theorem Records.of_versionAdded {predicate : String} {version : Nat}
    (records : r.Records r' (front ++ .versionAdded predicate version :: back)) :
    front = [] ∧ ∃ p ∈ r.predicates, p.name = predicate ∧ version = p.latest + 1 := by
  generalize recorded : front ++ .versionAdded predicate version :: back = events at records
  have mem : .versionAdded predicate version ∈ events := by simp [← recorded]
  cases records with
  | created => simp [creationEvents] at mem
  | @versionAdded id p good =>
      simp only [List.append_eq_singleton_iff, List.cons.injEq] at recorded
      obtain ⟨rfl, same, -⟩ | ⟨-, nothing⟩ := recorded
      · obtain ⟨rfl, rfl⟩ := Event.versionAdded.inj same
        exact ⟨rfl, p, mem_of_get good, rfl, rfl⟩
      · cases nothing
  | reset => simp at mem
  | aside aside => exact False.elim (aside _ mem)

/-- The line about a version names the row of its predicate. -/
theorem advances_line (distinct : r.DistinctNames) (mem : p ∈ r.predicates) :
    (Event.versionAdded p.name (p.latest + 1)).line.Advances r.logTable := by
  rw [logTable_eq_map]
  refine ⟨p.logRow, List.mem_map_of_mem mem, p.latest, rfl, rfl, rfl, ?_⟩
  intro other there named
  obtain ⟨q, mem', rfl⟩ := List.mem_map.mp there
  have same : q = p := List.inj_on_of_nodup_map distinct mem' mem named
  rw [same]

/-- An operation that records a reset records nothing else. -/
theorem Records.of_reset {dropped : Nat}
    (records : r.Records r' (front ++ .reset dropped :: back)) :
    front = [] ∧ dropped = r.size := by
  generalize recorded : front ++ .reset dropped :: back = events at records
  have mem : .reset dropped ∈ events := by simp [← recorded]
  cases records with
  | created => simp [creationEvents] at mem
  | versionAdded => simp at mem
  | reset =>
      simp only [List.append_eq_singleton_iff, List.cons.injEq] at recorded
      obtain ⟨rfl, same, -⟩ | ⟨-, nothing⟩ := recorded
      · exact ⟨rfl, Event.reset.inj same⟩
      · cases nothing
  | aside aside => exact False.elim (aside _ mem)

/-- A warning is recorded right in front of the creation of the same predicate. -/
theorem Records.of_warn (records : r.Records r' (front ++ e :: back)) (warns : e.level = .warn) :
    ∃ p : Predicate, e = .roleMismatch p.name p.role p.node.kind ∧
      back = [.created p.name p.role p.arity p.node.kind] := by
  generalize recorded : front ++ e :: back = events at records
  have mem : e ∈ events := by simp [← recorded]
  cases records with
  | @created d scope p =>
      have notCreated : e ≠ .created p.name p.role p.arity p.node.kind := by
        rintro rfl
        cases warns
      have mismatched : p.RoleMismatch := by
        by_contra matching
        simp [creationEvents, matching, notCreated] at mem
      simp only [creationEvents, mismatched, if_true, List.singleton_append] at recorded
      cases front with
      | nil =>
          obtain ⟨rfl, rfl⟩ := List.cons.inj recorded
          exact ⟨p, rfl, rfl⟩
      | cons x front =>
          have last : e ∈ [Event.created p.name p.role p.arity p.node.kind] := by
            simp [← (List.cons.inj recorded).2]
          exact absurd (List.mem_singleton.mp last) notCreated
  | versionAdded =>
      rw [List.mem_singleton.mp mem] at warns
      cases warns
  | reset =>
      rw [List.mem_singleton.mp mem] at warns
      cases warns
  | aside aside =>
      have quiet := aside e mem
      cases e with
      | policyIgnored | roleMismatch => exact False.elim quiet
      | _ => cases warns

/-- An operation that fails records at most that a name was looked up. -/
theorem level_of_failed {fresh : Nat} {op : Operation} {fault : Fault}
    (failed : (r.perform fresh op).answer = .error fault) :
    ∀ l ∈ (r.perform fresh op).lines, l.level = .trace := by
  cases op with
  | create d scope =>
      have failed : (r.create d scope).answer.map Answer.id = .error fault := failed
      show ∀ l ∈ (r.create d scope).lines, l.level = .trace
      cases found : r.find? d.name with
      | some entry =>
          simp only [create, found]
          split
          · exact List.forall_mem_singleton.mpr rfl
          · exact List.forall_mem_nil _
      | none =>
          cases built : d.build scope with
          | error unfit =>
              rw [create_of_unfit found built]
              exact List.forall_mem_nil _
          | ok p =>
              rw [create_of_fit found built] at failed
              cases failed
  | addVersion id =>
      cases good : r.get id with
      | error stale =>
          simp only [perform, addVersion, good]
          exact List.forall_mem_nil _
      | ok p =>
          simp only [perform, addVersion, good] at failed
          cases failed
  | lookup name => exact List.forall_mem_singleton.mpr rfl
  | trace path =>
      cases done : r.stepsOf path with
      | error offending =>
          simp only [perform, traceOf, done]
          exact List.forall_mem_nil _
      | ok steps =>
          simp only [perform, traceOf, done] at failed
          cases failed
  | reset => cases failed
  | _ => exact List.forall_mem_nil _

end Lines

/-! ## The whole log -/

/-- What the log of a run says, read line by line.

The table that it makes is that of the predicates, in their order.  A line about a version
names one row of the table that was read so far, and its version is the next one of that row.
A line about a reset counts the rows that it takes away.  Behind a warning comes the line about
the new predicate that it warns of.  An operation that fails writes no `DEBUG` and no `WARN`. -/
theorem log_mirrors_registry (policy : DuplicatePolicy) (run : Nat) (steps : List Step) :
    let log := (start policy run).log steps
    LogLine.replay log = ((start policy run).after steps).logTable ∧
    (∀ (before : List LogLine) (l : LogLine) (behind : List LogLine),
      log = before ++ l :: behind → l.TellsVersion → l.Advances (LogLine.replay before)) ∧
    (∀ (before : List LogLine) (l : LogLine) (behind : List LogLine),
      log = before ++ l :: behind → l.TellsReset →
      l.field "dropped" = toString (LogLine.replay before).length) ∧
    (∀ (before : List LogLine) (l : LogLine) (behind : List LogLine),
      log = before ++ l :: behind → l.level = .warn →
      ∃ next rest, behind = next :: rest ∧ next.TellsCreated ∧
        next.field "predicate" = l.field "predicate") ∧
    ∀ past s future fault, steps = past ++ s :: future →
      (((start policy run).after past).perform s.fresh s.operation).answer = .error fault →
      ∀ l ∈ (((start policy run).after past).perform s.fresh s.operation).lines,
        l.level ≠ .debug ∧ l.level ≠ .warn := by
  intro log
  refine ⟨replay_log policy run steps, ?_, ?_, ?_, ?_⟩
  · intro before l behind split tells
    obtain ⟨past, r', front, e, back, rest, rfl, records, rfl, -⟩ := exists_event_of_log split
    obtain ⟨predicate, version, rfl⟩ := LogLine.tellsVersion_line.mp tells
    obtain ⟨rfl, p, mem, rfl, rfl⟩ := records.of_versionAdded
    rw [List.map_nil, List.append_nil, replay_log]
    exact advances_line (distinctNames_after policy run past) mem
  · intro before l behind split tells
    obtain ⟨past, r', front, e, back, rest, rfl, records, rfl, -⟩ := exists_event_of_log split
    obtain ⟨dropped, rfl⟩ := LogLine.tellsReset_line.mp tells
    obtain ⟨rfl, rfl⟩ := records.of_reset
    rw [List.map_nil, List.append_nil, replay_log, logTable_eq_map, List.length_map]
    rfl
  · intro before l behind split warns
    obtain ⟨past, r', front, e, back, rest, rfl, records, -, rfl⟩ := exists_event_of_log split
    obtain ⟨p, rfl, rfl⟩ := records.of_warn warns
    exact ⟨_, rest, rfl, LogLine.tellsCreated_line.mpr ⟨_, _, _, _, rfl⟩, rfl⟩
  · intro past s future fault _ failed l mem
    rw [level_of_failed failed l mem]
    exact ⟨nofun, nofun⟩

/-- A role without a function, a predicate with three versions, a name that is taken, and a
reset. -/
theorem log_mirrors_registry_before_reset :
    let mismatch : Operation :=
      .create ⟨"f", .relation [.int], .functionSummary, .none, 0⟩ fun _ => none
    let past : List Step := [⟨mismatch, 2⟩, ⟨.createUnary "p", 2⟩, ⟨.addVersion ⟨1, 1⟩, 2⟩,
      ⟨.addVersion ⟨1, 1⟩, 2⟩]
    let again : Step := ⟨.createUnary "p", 2⟩
    let r := (start .reject 1).after past
    let log := (start .reject 1).log (past ++ [again, ⟨.reset, 2⟩])
    LogLine.replay (log.take 5)
      = [⟨"f", "function_summary", "1", "None", "0"⟩, ⟨"p", "custom", "1", "None", "2"⟩] ∧
    (Event.versionAdded "p" 2).line.Advances (LogLine.replay (log.take 4)) ∧
    (Event.reset 2).line.field "dropped" = toString (LogLine.replay (log.take 5)).length ∧
    (∃ next rest, log.drop 1 = next :: rest ∧ next.TellsCreated ∧ next.field "predicate" = "f") ∧
    ∀ l ∈ (r.perform again.fresh again.operation).lines, l.level ≠ .debug ∧ l.level ≠ .warn := by
  intro mismatch past again r log
  obtain ⟨table, -⟩ := log_mirrors_registry .reject 1 past
  obtain ⟨-, versions, resets, warnings, failures⟩ :=
    log_mirrors_registry .reject 1 (past ++ [again, ⟨.reset, 2⟩])
  refine ⟨?_, ?_, ?_, ?_, ?_⟩
  · have short : log.take 5 = (start .reject 1).log past := rfl
    rw [short, table, logTable_eq_map]
    rfl
  · exact versions _ _ (log.drop 5) rfl ⟨rfl, rfl⟩
  · exact resets _ _ [] rfl ⟨rfl, rfl⟩
  · exact warnings [] (Event.roleMismatch "f" .functionSummary .none).line _ rfl rfl
  · exact failures past again [⟨.reset, 2⟩] (.duplicateName "p") rfl rfl

end Registry

end Hornbook
