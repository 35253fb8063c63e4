import Hornbook.Counterexample.Call
import Hornbook.Proofs.Registry.Growth
import Hornbook.Proofs.Registry.Layout

/-!
# Calls and states of registered predicates

Two faults of `Predicate.state` never come from a registry.  A summary always has state
variables, because its node is a contract or a function (`hasState_of_isSummary`), and the
state variables of a predicate in a registry are laid out inside its arguments.  What is
left is the number of arguments.  If it is right, there is one assignment for each state
variable (`state_of_laidOut`).

Calls and states do not mention versions, so they are the same at a later time.
-/

namespace Hornbook

/-- One assignment for each variable.  The values stand side by side in the arguments, the
first one at `offset`. -/
structure Assigns (vars : List Program.Variable) (offset : Nat) (args : List String)
    (state : List Assignment) : Prop where
  length : state.length = vars.length
  assignment : ∀ k x, vars[k]? = some x →
    ∃ value, args[offset + k]? = some value ∧ state[k]? = some ⟨x.name, value⟩

/-- The state at a position depends on the variable there and on its argument alone. -/
theorem Assigns.getElem?_state {vars : List Program.Variable} {offset : Nat} {args : List String}
    {state : List Assignment} (h : Assigns vars offset args state) (k : Nat) :
    state[k]? = vars[k]?.bind fun x => args[offset + k]?.map (Assignment.mk x.name) := by
  cases there : vars[k]? with
  | none =>
      have outside : vars.length ≤ k := List.getElem?_eq_none_iff.mp there
      exact List.getElem?_eq_none (h.length ▸ outside)
  | some x =>
      obtain ⟨value, here, shown⟩ := h.assignment k x there
      rw [shown, Option.bind_some, here, Option.map_some]

namespace Predicate

variable {p q : Predicate} {args : List String} {vars : List Program.Variable}

theorem call_of_length (full : args.length = p.arity) :
    p.call args = .ok (p.callTarget ++ "(" ++ ", ".intercalate args ++ ")") := by
  rw [call, if_pos full]

theorem call_of_length_ne (wrong : args.length ≠ p.arity) :
    p.call args = .error (p.arityFault args) := by
  rw [call, if_neg wrong]

theorem hasState_of_isSummary (summary : p.isSummary = true) : p.node.kind.hasState = true := by
  obtain ⟨symbol, role, node, stateVariables, stateOffset⟩ := p
  cases node with
  | contract | function => rfl
  | none | other => cases role <;> cases summary

/-- A summary that is laid out has state variables. -/
theorem LaidOut.exists_stateVariables (laid : p.LaidOut) (summary : p.isSummary = true) :
    ∃ vars, p.stateVariables = some vars := by
  rw [← Option.isSome_iff_exists, laid.isSome]
  exact hasState_of_isSummary summary

theorem assigns_zipWith {offset : Nat} (inside : offset + vars.length ≤ args.length) :
    Assigns vars offset args (List.zipWith (fun x value => ⟨x.name, value⟩) vars
      ((args.drop offset).take vars.length)) where
  length := by
    rw [List.length_zipWith, List.length_take, List.length_drop]
    omega
  assignment k x there := by
    have early : k < vars.length := (List.getElem?_eq_some_iff.mp there).1
    have bound : offset + k < args.length := by omega
    refine ⟨args[offset + k], List.getElem?_eq_getElem bound, ?_⟩
    rw [List.getElem?_zipWith, there, List.getElem?_take_of_lt early, List.getElem?_drop,
      List.getElem?_eq_getElem bound]

theorem LaidOut.inside (laid : p.LaidOut) (known : p.stateVariables = some vars)
    (full : args.length = p.arity) : p.stateOffset + vars.length ≤ args.length := by
  rw [full]
  exact (blockFits_iff.mp (laid.fits vars known)).2

theorem stateValues_of_laidOut (laid : p.LaidOut) (known : p.stateVariables = some vars)
    (full : args.length = p.arity) :
    p.stateValues args = .ok ((args.drop p.stateOffset).take vars.length) := by
  have fits : blockFits p.stateOffset vars.length args.length = true := by
    rw [full]
    exact laid.fits vars known
  simp only [stateValues, if_pos full, known, if_pos fits]

theorem state_of_laidOut (laid : p.LaidOut) (known : p.stateVariables = some vars)
    (full : args.length = p.arity) :
    ∃ state, p.state args = .ok state ∧ Assigns vars p.stateOffset args state := by
  refine ⟨_, ?_, assigns_zipWith (laid.inside known full)⟩
  rw [state, stateValues_of_laidOut laid known full, known]
  rfl

namespace Continues

theorem arity (h : p.Continues q) : q.arity = p.arity := by
  rw [Predicate.arity, h.signature, Predicate.arity]

theorem isSummary (h : p.Continues q) : q.isSummary = p.isSummary := by
  rw [Predicate.isSummary, h.classification, Predicate.isSummary]

theorem call (h : p.Continues q) (args : List String) : q.call args = p.call args := by
  simp only [Predicate.call, callTarget, arityFault, h.arity, h.name, h.role, h.node]

theorem state (h : p.Continues q) (args : List String) : q.state args = p.state args := by
  simp only [Predicate.state, stateValues, arityFault, h.arity, h.name, h.stateVariables,
    h.stateOffset]

end Continues

end Predicate

end Hornbook
