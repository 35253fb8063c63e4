import Hornbook.Proofs.Registry.Identity
import Hornbook.Proofs.Registry.Layout

/-!
# What a creation comes to

The name of a declaration is taken or free.

Under a taken name nothing is made, nothing changes and the scope is not asked.  The
policy and a comparison with the one predicate of that name decide between its identity
and a refusal (`CreatesTaken`).

Under a free name the scope is asked once, if the node of the declaration has state, and
never otherwise.  The declaration is refused if its state variables reach past its
arguments.  If they do not, one predicate is put behind the others and no other identity
notices (`CreatesFree`).

`create_exact` says that every creation in every reachable registry is one of the two.  It
also says that a creation depends on its scope through the questions alone.  There is at
most one, so it does not matter what the scope would have answered to another.
-/

namespace Hornbook

/-- A predicate is what a declaration asks for in a scope.  It has its first version and
no other. -/
structure Predicate.MadeFrom (p : Predicate) (d : Declaration) (scope : Program.Scope) :
    Prop where
  name : p.name = d.name
  signature : p.signature = d.signature
  role : p.role = d.role
  node : p.node = d.node
  stateOffset : p.stateOffset = d.stateOffset
  /-- A scope that does not know counts as one that sees no variable. -/
  stateVariables : p.stateVariables
    = if d.node.kind.hasState then some ((scope d.node).getD []) else none
  latest : p.latest = 0

theorem Declaration.predicate_madeFrom (d : Declaration) (scope : Program.Scope) :
    (d.predicate scope).MadeFrom d scope :=
  ⟨rfl, rfl, rfl, rfl, rfl, d.stateVariables_eq scope, rfl⟩

theorem Declaration.questions_askVariables (d : Declaration) (scope : Program.Scope) :
    (d.askVariables scope).questions = if d.node.kind.hasState then [d.node] else [] := by
  unfold askVariables
  split
  · rfl
  · rfl

/-- A scope that gives the same answers to what was asked gives the same state variables, and
is asked the same. -/
theorem Declaration.askVariables_congr {d : Declaration} {scope other : Program.Scope}
    (same : ∀ node ∈ (d.askVariables scope).questions, other node = scope node) :
    d.askVariables other = d.askVariables scope := by
  rw [questions_askVariables] at same
  unfold askVariables
  by_cases stateful : d.node.kind.hasState = true
  · rw [if_pos stateful] at same
    rw [if_pos stateful, if_pos stateful, Program.Scope.ask, Program.Scope.ask,
      same d.node (List.mem_singleton_self _)]
  · rw [if_neg stateful, if_neg stateful]

namespace Registry

variable {r r' : Registry} {fresh : Nat} {op : Operation} {answer : Except Fault Answer}
  {id other : PredicateId} {p : Predicate} {d : Declaration} {scope : Program.Scope}

/-! ## The policy stays -/

theorem Effect.policy_eq (effect : Effect r fresh op answer r') : r'.policy = r.policy := by
  cases effect with
  | _ => rfl

theorem policy_after (policy : DuplicatePolicy) (run : Nat) (steps : List Step) :
    ((start policy run).after steps).policy = policy :=
  after_of_effect (P := fun r => r.policy = policy)
    (fun effect same => effect.policy_eq.trans same) steps rfl

/-! ## Taken names -/

/-- A creation under a name that is taken by `p`, whose identity is `id`. -/
structure CreatesTaken (policy : DuplicatePolicy) (r : Registry) (d : Declaration)
    (scope : Program.Scope) (id : PredicateId) (p : Predicate) : Prop where
  /-- The predicate is handed back if the policy says so and the declaration agrees with
  it in all that is compared. -/
  answer : (r.create d scope).answer =
    if policy = .reuseIdentical ∧ p.signature = d.signature ∧ p.role = d.role ∧
        p.stateOffset = d.stateOffset ∧ p.node.kind = d.node.kind ∧ p.node.id? = d.node.id?
      then .ok id
      else .error (.duplicateName d.name)
  /-- The scope is not asked. -/
  questions : (r.create d scope).questions = []
  /-- Nothing changes. -/
  registry : (r.create d scope).registry = r

theorem createsTaken_of_find? (found : r.find? d.name = some (id, p)) :
    r.CreatesTaken r.policy d scope id p := by
  have outcome : r.create d scope =
      if r.policy = .reuseIdentical ∧ p.Matches d then
        { answer := .ok id, registry := r, events := [.reused d.name] }
      else { answer := .error (.duplicateName d.name), registry := r } := by
    rw [create, found]
  by_cases matching : r.policy = .reuseIdentical ∧ p.Matches d
  · rw [if_pos matching] at outcome
    constructor
    · rw [outcome]
      exact (if_pos matching).symm
    · rw [outcome]
    · rw [outcome]
  · rw [if_neg matching] at outcome
    constructor
    · rw [outcome]
      exact (if_neg matching).symm
    · rw [outcome]
    · rw [outcome]

/-! ## Free names -/

/-- A creation under a name that no predicate has. -/
structure CreatesFree (r : Registry) (d : Declaration) (scope : Program.Scope) : Prop where
  /-- The scope is asked once about a node that has state, and not about another. -/
  questions : (r.create d scope).questions = if d.node.kind.hasState then [d.node] else []
  /-- State variables that reach past the arguments are refused, and nothing changes. -/
  refused : d.Overlong scope →
    (r.create d scope).answer = .error (.invalidStateLayout d.name d.stateOffset
      ((scope d.node).getD []).length d.signature.arity) ∧
    (r.create d scope).registry = r
  /-- In all other cases the new predicate stands behind the others.  Its identity has the
  former number of predicates for an index, and every other identity is good for what it
  was good for. -/
  made : ¬ d.Overlong scope → ∃ p : Predicate, p.MadeFrom d scope ∧
    (r.create d scope).answer = .ok ⟨r.run, r.size⟩ ∧
    (r.create d scope).registry = { r with predicates := r.predicates ++ [p] } ∧
    (r.create d scope).registry.get ⟨r.run, r.size⟩ = .ok p ∧
    ∀ other, other ≠ ⟨r.run, r.size⟩ → (r.create d scope).registry.get other = r.get other

/-- A predicate that is put behind the others is reached by its own identity only. -/
theorem get_append_of_ne (different : other ≠ r.idAt r.size) :
    get { r with predicates := r.predicates ++ [p] } other = r.get other := by
  by_cases sameRun : other.run = r.run
  · have apart : other.index ≠ r.predicates.length := by
      intro sameIndex
      refine different ?_
      obtain ⟨run, index⟩ := other
      rw [idAt, size, ← sameIndex, ← sameRun]
    have position : (r.predicates ++ [p])[other.index]? = r.predicates[other.index]? := by
      rcases Nat.lt_or_gt_of_ne apart with inside | beyond
      · exact List.getElem?_append_left inside
      · rw [List.getElem?_eq_none (by rw [List.length_append, List.length_singleton]; omega),
          List.getElem?_eq_none (by omega)]
    simp only [get, position]
  · rw [get, get, if_neg sameRun, if_neg sameRun]

theorem create_of_unfit {fault : Fault} (free : r.find? d.name = none)
    (built : d.build scope = .error fault) :
    r.create d scope
      = { answer := .error fault, registry := r,
          questions := (d.askVariables scope).questions } := by
  simp only [create, free, Declaration.askPredicate_of_build built]

theorem create_of_fit (free : r.find? d.name = none) (built : d.build scope = .ok p) :
    r.create d scope =
      { answer := .ok (r.idAt r.size)
        registry := { r with predicates := r.predicates ++ [p] }
        events := creationEvents p
        questions := (d.askVariables scope).questions } := by
  simp only [create, free, Declaration.askPredicate_of_build built]

theorem createsFree_of_find? (free : r.find? d.name = none)
    (bound : d.signature.arity < UInt64.size) : r.CreatesFree d scope := by
  by_cases overlong : d.Overlong scope
  · have outcome := create_of_unfit free (Declaration.build_of_overlong bound overlong)
    constructor
    · rw [outcome, ← d.questions_askVariables scope]
    · intro _
      rw [outcome]
      exact ⟨rfl, rfl⟩
    · intro short
      exact absurd overlong short
  · have outcome := create_of_fit free (Declaration.build_of_not_overlong bound overlong)
    constructor
    · rw [outcome, ← d.questions_askVariables scope]
    · intro long
      exact absurd long overlong
    · intro _
      refine ⟨d.predicate scope, d.predicate_madeFrom scope, ?_⟩
      rw [outcome]
      exact ⟨rfl, rfl, get_append r _, fun other different => get_append_of_ne different⟩

/-- A creation depends on its scope through the answers to its questions alone. -/
theorem create_congr {scope' : Program.Scope}
    (same : ∀ node ∈ (r.create d scope).questions, scope' node = scope node) :
    r.create d scope' = r.create d scope := by
  cases found : r.find? d.name with
  | some entry => simp only [create, found]
  | none =>
      have asked : (r.create d scope).questions = (d.askVariables scope).questions := by
        cases built : d.build scope with
        | error fault => rw [create_of_unfit found built]
        | ok p => rw [create_of_fit found built]
      rw [asked] at same
      simp only [create, found, Declaration.askPredicate, Declaration.askVariables_congr same]

/-! ## All creations -/

/-- In every reachable registry, a creation under a taken name hands the one predicate of
that name back or is refused, and a creation under a free name is refused for its layout
or makes one predicate.  An arity is a number of arguments in memory and fits in 64 bits.
Nothing bounds the offset. -/
theorem create_exact (policy : DuplicatePolicy) (run : Nat) (steps : List Step) (d : Declaration)
    (scope : Program.Scope) (bound : d.signature.arity < UInt64.size) :
    (∀ id p, ((start policy run).after steps).get id = .ok p → p.name = d.name →
      ((start policy run).after steps).CreatesTaken policy d scope id p) ∧
    ((∀ id p, ((start policy run).after steps).get id = .ok p → p.name ≠ d.name) →
      ((start policy run).after steps).CreatesFree d scope) ∧
    ∀ scope', (∀ node ∈ (((start policy run).after steps).create d scope).questions,
        scope' node = scope node) →
      ((start policy run).after steps).create d scope'
        = ((start policy run).after steps).create d scope := by
  refine ⟨?_, ?_, fun scope' same => create_congr same⟩
  · intro id p good named
    have distinct := distinctNames_after policy run steps
    have taken : ((start policy run).after steps).CreatesTaken _ d scope id p :=
      createsTaken_of_find? (distinct.find?_eq_some_iff.mpr ⟨good, named⟩)
    rwa [policy_after] at taken
  · intro absent
    refine createsFree_of_find? ?_ bound
    rw [find?_eq_none_iff]
    intro p hp named
    obtain ⟨i, there⟩ := List.mem_iff_getElem?.mp hp
    exact absent _ p (get_idAt.mpr there) named

/-- One name is taken and the predicate is handed back.  Another one is free, with an
offset so large that the sum with the number of variables does not fit in 64 bits. -/
theorem create_exact_largest_offset :
    let r := (start .reuseIdentical 1).after [⟨.createUnary "p", 2⟩]
    let unary : Declaration := ⟨"p", .relation [.int], .custom, .none, 0⟩
    let f : Program.Function := ⟨⟨3⟩, "deposit", .function, some "Vault", [], []⟩
    let summary : Declaration :=
      ⟨"summary", .relation [.int, .int], .functionSummary, .function f, 18446744073709551615⟩
    let scope : Program.Scope := fun _ => some [⟨⟨2⟩, "balance", .int⟩]
    unary.signature.arity < UInt64.size ∧ summary.signature.arity < UInt64.size ∧
      (r.create unary scope).answer = .ok ⟨1, 0⟩ ∧
      (r.create summary scope).answer
        = .error (.invalidStateLayout "summary" 18446744073709551615 1 2) ∧
      (r.create summary scope).questions = [.function f] ∧
      (r.create summary scope).registry = r := by
  intro r unary f summary scope
  have bounds : unary.signature.arity < UInt64.size ∧ summary.signature.arity < UInt64.size := by
    decide
  have overlong : summary.Overlong scope := ⟨rfl, by decide⟩
  obtain ⟨taken, -⟩ := create_exact .reuseIdentical 1 [⟨.createUnary "p", 2⟩] unary scope bounds.1
  obtain ⟨-, free, -⟩ :=
    create_exact .reuseIdentical 1 [⟨.createUnary "p", 2⟩] summary scope bounds.2
  have handedBack := taken ⟨1, 0⟩ _ rfl rfl
  have asked : r.CreatesFree summary scope := by
    refine free fun id p good named => ?_
    have mem : p ∈ r.predicates := List.mem_of_getElem? (get_eq_ok_iff.mp good).2
    rw [List.mem_singleton.mp mem] at named
    exact absurd named (by decide)
  refine ⟨bounds.1, bounds.2, handedBack.answer, ?_, asked.questions, ?_⟩
  · exact (asked.refused overlong).1
  · exact (asked.refused overlong).2

end Registry

end Hornbook
