import Hornbook.Proofs.Counterexample.Path
import Hornbook.Proofs.Counterexample.State

/-!
# The state of one contract

While one contract is being encoded, a contract node can only be that contract, and function
nodes can be any functions, inherited ones and free ones included.  The scope answers for a
contract from the node and for a function from the contract being encoded.  Here these two are
the same contract, so all predicates with state get the same variables
(`Registry.sharesState_after`).  The answer is kept in the predicate when it is made, and
nothing that happens later changes it.

A trace mixes predicates with different roles, offsets and numbers of versions.  The offset
says where the values stand, and the names come from the variables alone.  So all its steps
list the same names (`Registry.one_state_per_contract`).
-/

namespace Hornbook

/-- The names of a state are those of the variables, in their order. -/
theorem Assigns.names {vars : List Program.Variable} {offset : Nat} {args : List String}
    {state : List Assignment} (h : Assigns vars offset args state) :
    state.map Assignment.name = vars.map Program.Variable.name := by
  apply List.ext_getElem?
  intro k
  rw [List.getElem?_map, List.getElem?_map, h.getElem?_state]
  cases there : vars[k]? with
  | none => rfl
  | some x =>
      obtain ⟨value, here, -⟩ := h.assignment k x there
      rw [Option.bind_some, here]
      rfl

/-- In the scope of a contract, the contract and all functions see the same state. -/
theorem Program.Scope.ofContract_of_hasState {c : Contract} {node : Node}
    (stateful : node.kind.hasState = true) (only : ∀ c', node = .contract c' → c' = c) :
    Scope.ofContract (some c) node = some c.allVariables := by
  cases node with
  | contract c' => rw [only c' rfl]; rfl
  | function f => rfl
  | none | other => cases stateful

namespace Registry

variable {r : Registry} {c : Program.Contract} {vars : List Program.Variable}
  {steps : List Step} {path : List PathEntry} {shown : List TraceStep} {p : Predicate}

/-- In a run, one contract is encoded.  Every creation has its scope, and no other contract is
the node of a declaration. -/
def Encodes (c : Program.Contract) (steps : List Step) : Prop :=
  ∀ s ∈ steps, ∀ d scope, s.operation = .create d scope →
    scope = .ofContract (some c) ∧ ∀ c', d.node = .contract c' → c' = c

/-- The predicates that have state have the same one. -/
def SharesState (r : Registry) (vars : List Program.Variable) : Prop :=
  ∀ p ∈ r.predicates, p.node.kind.hasState = true → p.stateVariables = some vars

/-- What is built in the scope of a contract has its state or none. -/
theorem stateVariables_of_build {d : Declaration} (only : ∀ c', d.node = .contract c' → c' = c)
    (built : d.build (.ofContract (some c)) = .ok p) (stateful : p.node.kind.hasState = true) :
    p.stateVariables = some c.allVariables := by
  have same : p = d.predicate (.ofContract (some c)) := Declaration.build_eq_ok built
  subst same
  have asked : d.node.kind.hasState = true := stateful
  show d.stateVariables (.ofContract (some c)) = some c.allVariables
  rw [Declaration.stateVariables_eq, if_pos asked,
    Program.Scope.ofContract_of_hasState asked only, Option.getD_some]

theorem sharesState_after {policy : DuplicatePolicy} {run : Nat} (encodes : Encodes c steps) :
    ((start policy run).after steps).SharesState c.allVariables := by
  intro p there stateful
  obtain ⟨s, taken, d, scope, q, made, built, continues⟩ := exists_creation there
  obtain ⟨rfl, only⟩ := encodes s taken d scope made
  rw [continues.node] at stateful
  rw [continues.stateVariables]
  exact stateVariables_of_build only built stateful

/-- Where the state is shared, every step lists its names. -/
theorem Traces.names (h : r.Traces path shown) (shares : r.SharesState vars) :
    ∀ s ∈ shown, s.state.map Assignment.name = vars.map Program.Variable.name := by
  induction h with
  | nil => simp
  | skip _ _ _ ih => exact ih
  | @step id args p s path shown good summary renders _ ih =>
      refine List.forall_mem_cons.mpr ⟨?_, ih⟩
      obtain ⟨own, known, assigns⟩ := renders.state
      rw [shares p (mem_of_get good) (Predicate.hasState_of_isSummary summary)] at known
      rw [Option.some.inj known]
      exact assigns.names

/-- In a run that encodes one contract, every predicate for a contract or a function has the
variables that the listed bases declare themselves and then the contract's own.  A base that is
listed twice counts twice, and what a base inherits does not count.  Every step of every trace
lists the names of these variables in this order. -/
theorem one_state_per_contract (policy : DuplicatePolicy) (run : Nat) (c : Program.Contract)
    (steps : List Step) (encodes : Encodes c steps) :
    (∀ p ∈ ((start policy run).after steps).predicates,
      p.node.kind = .contract ∨ p.node.kind = .function →
        p.stateVariables
          = some (c.bases.flatMap (fun base => base.ownVariables) ++ c.ownVariables)) ∧
    ∀ path trace, (((start policy run).after steps).traceOf path).answer = .ok trace →
      ∀ s ∈ trace.steps, s.state.map Assignment.name
        = (c.bases.flatMap (fun base => base.ownVariables) ++ c.ownVariables).map
            Program.Variable.name := by
  have shares : ((start policy run).after steps).SharesState c.allVariables :=
    sharesState_after encodes
  refine ⟨?_, ?_⟩
  · intro p there stands
    exact shares p there (Program.NodeKind.hasState_iff.mpr stands)
  · intro path trace done
    have traces := (answersPath (laidOut_after policy run steps) path).steps trace done
    exact traces.names shares

/-- A base that has a base is listed twice.  The trace goes through a constructor with two versions
and its state in front, and through an inherited function with its state behind an amount. -/
theorem one_state_per_contract_repeated_base :
    let root : Program.Contract := ⟨⟨1⟩, "Root", [⟨⟨2⟩, "frozen", .bool⟩], []⟩
    let owned : Program.Contract := ⟨⟨3⟩, "Owned", [⟨⟨4⟩, "owner", .int⟩], [root]⟩
    let vault : Program.Contract := ⟨⟨5⟩, "Vault", [⟨⟨6⟩, "balance", .int⟩], [owned, owned]⟩
    let pay : Program.Function := ⟨⟨7⟩, "pay", .function, some "Owned", [], []⟩
    let init : Declaration :=
      ⟨"init", .relation [.int, .int, .int], .constructorSummary, .contract vault, 0⟩
    let paid : Declaration :=
      ⟨"paid", .relation [.int, .int, .int, .int], .functionSummary, .function pay, 1⟩
    let steps : List Step := [⟨.create init (.ofContract (some vault)), 2⟩,
      ⟨.addVersion ⟨1, 0⟩, 2⟩, ⟨.create paid (.ofContract (some vault)), 2⟩]
    let path : List PathEntry := [(⟨1, 0⟩, ["0", "1", "2"]), (⟨1, 1⟩, ["9", "3", "4", "5"])]
    Encodes vault steps ∧ ∃ trace, (((start .reject 1).after steps).traceOf path).answer = .ok trace ∧
      trace.steps.length = 2 ∧
      ∀ s ∈ trace.steps, s.state.map Assignment.name = ["owner", "owner", "balance"] := by
  intro root owned vault pay init paid steps path
  have encodes : Encodes vault steps := by
    intro s taken d scope made
    simp only [steps, List.mem_cons, List.not_mem_nil, or_false] at taken
    rcases taken with rfl | rfl | rfl
    · cases made
      exact ⟨rfl, fun c' same => (Program.Node.contract.inj same).symm⟩
    · cases made
    · cases made
      exact ⟨rfl, fun c' same => nomatch same⟩
  obtain ⟨trace, done, two⟩ : ∃ trace,
      (((start .reject 1).after steps).traceOf path).answer = .ok trace ∧ trace.steps.length = 2 :=
    ⟨_, rfl, rfl⟩
  exact ⟨encodes, trace, done, two,
    (one_state_per_contract .reject 1 vault steps encodes).2 path trace done⟩

end Registry

end Hornbook
