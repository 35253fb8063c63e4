import Hornbook.Proofs.Counterexample.Call

/-!
# Calls and states of all registered predicates

A predicate that stands for a contract or a function has state variables.  A registry lets
it in only if they lie among its arguments, and this is all that reading them back needs
(`Predicate.LaidOut`).  A predicate that stands for something else has none, and its offset
may be any number of 64 bits.

`Predicate.Extracts` says what a predicate answers for a list of arguments.  A wrong number
of arguments comes before everything else.  With the right number a call is written, and a
state is found unless there are no state variables.  There is no third reason to fail, so
the check of the layout that is made with every reading never refuses one.
`Registry.extraction_exact` says that every predicate of every reachable registry answers
like this.
-/

namespace Hornbook

theorem Program.NodeKind.hasState_iff {kind : NodeKind} :
    kind.hasState = true ↔ kind = .contract ∨ kind = .function := by
  cases kind with
  | _ => simp [hasState]

namespace Predicate

variable {p : Predicate} {args : List String} {vars : List Program.Variable}

/-! ## Without a state -/

theorem stateValues_of_length_ne (wrong : args.length ≠ p.arity) :
    p.stateValues args = .error (p.arityFault args) := by
  rw [stateValues, if_neg wrong]

theorem stateValues_of_stateless (full : args.length = p.arity) (none : p.stateVariables = none) :
    p.stateValues args = .error (.noStateScope p.name) := by
  rw [stateValues, if_pos full, none]

/-- A state has the faults of its values. -/
theorem state_eq_error_iff {fault : Fault} :
    p.state args = .error fault ↔ p.stateValues args = .error fault := by
  rw [state]
  cases p.stateValues args with
  | error other =>
      show Except.error other = .error fault ↔ _
      rw [Except.error.injEq, Except.error.injEq]
  | ok values =>
      constructor
      · intro same
        cases same
      · intro same
        cases same

/-! ## With a state -/

/-- The values side by side in the arguments, one for each variable. -/
structure Reads (vars : List Program.Variable) (offset : Nat) (args values : List String) :
    Prop where
  length : values.length = vars.length
  value : ∀ k < vars.length, offset + k < args.length ∧ values[k]? = args[offset + k]?

/-- A state is its values under the names of the variables. -/
structure Names (vars : List Program.Variable) (values : List String) (state : List Assignment) :
    Prop where
  names : state.map Assignment.name = vars.map Program.Variable.name
  values : state.map Assignment.value = values

theorem reads_take_drop {offset : Nat} (inside : offset + vars.length ≤ args.length) :
    Reads vars offset args ((args.drop offset).take vars.length) where
  length := by
    rw [List.length_take, List.length_drop]
    omega
  value k early := by
    refine ⟨by omega, ?_⟩
    rw [List.getElem?_take_of_lt early, List.getElem?_drop]

theorem names_zipWith {values : List String} (same : values.length = vars.length) :
    Names vars values (List.zipWith (fun x value => ⟨x.name, value⟩) vars values) := by
  rw [← List.map_uncurry_zip_eq_zipWith]
  constructor
  · calc ((vars.zip values).map _).map Assignment.name
        = ((vars.zip values).map Prod.fst).map Program.Variable.name := by
          rw [List.map_map, List.map_map]
          rfl
      _ = vars.map Program.Variable.name := by rw [List.map_fst_zip (Nat.le_of_eq same.symm)]
  · calc ((vars.zip values).map _).map Assignment.value
        = (vars.zip values).map Prod.snd := by
          rw [List.map_map]
          rfl
      _ = values := List.map_snd_zip (Nat.le_of_eq same)

theorem LaidOut.stateful (laid : p.LaidOut) (full : args.length = p.arity)
    (known : p.stateVariables = some vars) :
    ∃ values state, p.stateValues args = .ok values ∧ Reads vars p.stateOffset args values ∧
      p.state args = .ok state ∧ Names vars values state := by
  have read := stateValues_of_laidOut laid known full
  have reads := reads_take_drop (laid.inside known full)
  refine ⟨_, _, read, reads, ?_, names_zipWith reads.length⟩
  rw [state, read, known]
  rfl

/-! ## All answers -/

/-- What a predicate answers if it is asked for a call, for the values of its state
variables, and for its state, with the same arguments. -/
structure Extracts (p : Predicate) (args : List String) : Prop where
  /-- The number of arguments is looked at before anything else. -/
  miscounted : args.length ≠ p.arity →
    p.call args = .error (.arityMismatch p.name p.arity args.length) ∧
    p.stateValues args = .error (.arityMismatch p.name p.arity args.length) ∧
    p.state args = .error (.arityMismatch p.name p.arity args.length)
  /-- A call needs nothing more. -/
  call : args.length = p.arity → ∃ text, p.call args = .ok text
  /-- Without state variables there is no state. -/
  stateless : args.length = p.arity → p.stateVariables = none →
    p.stateValues args = .error (.noStateScope p.name) ∧
    p.state args = .error (.noStateScope p.name)
  /-- With state variables, each of them has the value at its place in the arguments, and
  the state pairs their names with these values. -/
  stateful : args.length = p.arity → ∀ vars, p.stateVariables = some vars →
    ∃ values state, p.stateValues args = .ok values ∧ Reads vars p.stateOffset args values ∧
      p.state args = .ok state ∧ Names vars values state
  /-- A call has no other fault. -/
  callFault : ∀ fault, p.call args = .error fault →
    fault = .arityMismatch p.name p.arity args.length ∧ args.length ≠ p.arity
  /-- Values and states have no other faults, each for its reason alone. -/
  stateFault : ∀ fault, p.stateValues args = .error fault ∨ p.state args = .error fault →
    fault = .arityMismatch p.name p.arity args.length ∧ args.length ≠ p.arity ∨
    fault = .noStateScope p.name ∧ args.length = p.arity ∧ p.stateVariables = none

theorem extracts_of_length_ne (wrong : args.length ≠ p.arity) : p.Extracts args where
  miscounted _ :=
    have refused := stateValues_of_length_ne wrong
    ⟨call_of_length_ne wrong, refused, state_eq_error_iff.mpr refused⟩
  call full := absurd full wrong
  stateless full := absurd full wrong
  stateful full := absurd full wrong
  callFault fault failed := by
    rw [call_of_length_ne wrong] at failed
    exact ⟨(Except.error.inj failed).symm, wrong⟩
  stateFault fault failed := by
    rw [state_eq_error_iff, or_self, stateValues_of_length_ne wrong] at failed
    exact .inl ⟨(Except.error.inj failed).symm, wrong⟩

theorem LaidOut.extracts_of_length (laid : p.LaidOut) (full : args.length = p.arity) :
    p.Extracts args where
  miscounted wrong := absurd full wrong
  call _ := ⟨_, call_of_length full⟩
  stateless _ none :=
    have refused := stateValues_of_stateless full none
    ⟨refused, state_eq_error_iff.mpr refused⟩
  stateful _ vars known := laid.stateful full known
  callFault fault failed := by
    rw [call_of_length full] at failed
    cases failed
  stateFault fault failed := by
    rw [state_eq_error_iff, or_self] at failed
    cases known : p.stateVariables with
    | none =>
        rw [stateValues_of_stateless full known] at failed
        exact .inr ⟨(Except.error.inj failed).symm, full, rfl⟩
    | some vars =>
        rw [stateValues_of_laidOut laid known full] at failed
        cases failed

theorem LaidOut.extracts (laid : p.LaidOut) (args : List String) : p.Extracts args := by
  by_cases full : args.length = p.arity
  · exact laid.extracts_of_length full
  · exact extracts_of_length_ne full

end Predicate

namespace Registry

/-- Every predicate of every reachable registry has state variables exactly if it stands for
a contract or a function.  They lie among its arguments, and the place behind them can be
counted in 64 bits, as can every place before it.  So calls and states are found or refused
for the reasons that `Predicate.Extracts` lists. -/
theorem extraction_exact (policy : DuplicatePolicy) (run : Nat) (steps : List Step)
    (p : Predicate) (registered : p ∈ ((start policy run).after steps).predicates) :
    (p.stateVariables.isSome = true ↔ p.node.kind = .contract ∨ p.node.kind = .function) ∧
    (∀ vars, p.stateVariables = some vars → p.stateOffset + vars.length ≤ p.arity ∧
      blockEnd? p.stateOffset vars.length = some (p.stateOffset + vars.length)) ∧
    ∀ args, p.Extracts args ∧
      (∀ name offset count arity,
        p.call args ≠ .error (.invalidStateLayout name offset count arity) ∧
        p.stateValues args ≠ .error (.invalidStateLayout name offset count arity) ∧
        p.state args ≠ .error (.invalidStateLayout name offset count arity)) := by
  have laid : p.LaidOut := laidOut_after policy run steps p registered
  refine ⟨?_, ?_, ?_⟩
  · rw [laid.isSome]
    exact Program.NodeKind.hasState_iff
  · intro vars known
    obtain ⟨counted, inside⟩ := blockFits_iff.mp (laid.fits vars known)
    exact ⟨inside, if_pos counted⟩
  · intro args
    have extracts := laid.extracts args
    refine ⟨extracts, fun name offset count arity => ⟨?_, ?_, ?_⟩⟩
    · intro failed
      cases (extracts.callFault _ failed).1
    · intro failed
      rcases extracts.stateFault _ (.inl failed) with ⟨same, -⟩ | ⟨same, -⟩ <;> cases same
    · intro failed
      rcases extracts.stateFault _ (.inr failed) with ⟨same, -⟩ | ⟨same, -⟩ <;> cases same

/-- A deposit with its balance behind an amount.  A site beside it has the largest offset
that there is and no state. -/
theorem extraction_exact_largest_offset :
    let deposit : Program.Function := ⟨⟨3⟩, "deposit", .function, some "Vault", [], []⟩
    let summary : Declaration :=
      ⟨"summary", .relation [.int, .int], .functionSummary, .function deposit, 1⟩
    let loop : Declaration :=
      ⟨"loop", .relation [.int], .functionBlock, .other ⟨⟨4⟩, "head"⟩, 18446744073709551615⟩
    let scope : Program.Scope := fun _ => some [⟨⟨2⟩, "balance", .int⟩]
    let steps : List Step := [⟨.create summary scope, 2⟩, ⟨.create loop scope, 2⟩]
    ∃ p q, ((start .reject 1).after steps).predicates = [p, q] ∧
      p.stateValues ["5", "7"] = .ok ["7"] ∧ p.state ["5", "7"] = .ok [⟨"balance", "7"⟩] ∧
      p.Extracts ["5", "7"] ∧
      q.call ["5", "7"] = .error (.arityMismatch "loop" 1 2) ∧
      q.stateValues ["5"] = .error (.noStateScope "loop") := by
  intro deposit summary loop scope steps
  have exact := extraction_exact .reject 1 steps
  have first := (exact _ List.mem_cons_self).2.2
  have second := (exact _ (List.mem_cons_of_mem _ List.mem_cons_self)).2.2
  refine ⟨_, _, rfl, rfl, rfl, (first ["5", "7"]).1, ?_, ?_⟩
  · exact ((second ["5", "7"]).1.miscounted (by decide)).1
  · exact ((second ["5"]).1.stateless rfl rfl).1

end Registry

end Hornbook
