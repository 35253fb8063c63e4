import Hornbook.Proofs.Registry.Run
import Hornbook.Proofs.Smt.Application
import Hornbook.Proofs.Text.Numbered

/-!
# Checked applications

Applying a version of a predicate passes three checks: is the version there, is the number of
arguments right, is each argument of the right sort.  The first check that fails decides the
fault, and among the arguments the first one of a wrong sort does.  `Predicate.Yields` lists
the four ways in which an application can end without computing any of them, and
`Predicate.applyAt_eq_iff` says that the list is right.

Nothing but the first check looks at the version.  So all versions that are there agree on a
list of arguments, up to the symbol that is applied (`Predicate.Yields.sameButSymbol`).
-/

namespace Hornbook

/-! ## The first argument of a wrong sort -/

/-- The argument at a position has a sort that is not expected there, and those in front of
it have the sorts that are. -/
structure FirstMismatch (sorts : List SmtSort) (args : List Expr) (position : Nat)
    (expected actual : SmtSort) : Prop where
  demanded : sorts[position]? = some expected
  supplied : args[position]?.map Expr.sort = some actual
  different : actual ≠ expected
  agree : ∀ i < position, args[i]?.map Expr.sort = sorts[i]?

namespace FirstMismatch

variable {sort expected actual : SmtSort} {sorts : List SmtSort} {arg : Expr} {args : List Expr}
  {position : Nat}

theorem not_nil_sorts : ¬ FirstMismatch [] args position expected actual := by
  intro h
  have none := h.demanded
  rw [List.getElem?_nil] at none
  cases none

theorem not_nil_args : ¬ FirstMismatch sorts [] position expected actual := by
  intro h
  have none := h.supplied
  rw [List.getElem?_nil] at none
  cases none

/-- A first argument of a wrong sort is the one. -/
theorem cons_iff_of_ne (wrong : arg.sort ≠ sort) :
    FirstMismatch (sort :: sorts) (arg :: args) position expected actual
      ↔ position = 0 ∧ expected = sort ∧ actual = arg.sort := by
  constructor
  · intro h
    cases position with
    | zero => exact ⟨rfl, (Option.some.inj h.demanded).symm, (Option.some.inj h.supplied).symm⟩
    | succ position =>
        have first := h.agree 0 (Nat.succ_pos position)
        exact absurd (Option.some.inj first) wrong
  · rintro ⟨rfl, rfl, rfl⟩
    exact ⟨rfl, rfl, wrong, nofun⟩

/-- Behind a first argument of the right sort, the search goes on. -/
theorem cons_iff_of_eq (right : arg.sort = sort) :
    FirstMismatch (sort :: sorts) (arg :: args) position expected actual
      ↔ ∃ i, position = i + 1 ∧ FirstMismatch sorts args i expected actual := by
  constructor
  · intro h
    cases position with
    | zero =>
        have same : actual = expected :=
          (Option.some.inj h.supplied).symm.trans (right.trans (Option.some.inj h.demanded))
        exact absurd same h.different
    | succ position =>
        refine ⟨position, rfl, h.demanded, h.supplied, h.different, ?_⟩
        intro i hi
        exact h.agree (i + 1) (Nat.succ_lt_succ hi)
  · rintro ⟨i, rfl, h⟩
    refine ⟨h.demanded, h.supplied, h.different, ?_⟩
    intro j hj
    cases j with
    | zero => exact congrArg some right
    | succ j => exact h.agree j (Nat.lt_of_succ_lt_succ hj)

end FirstMismatch

namespace FunSymbol

/-- The search finds the first argument of a wrong sort. -/
theorem mismatch?_eq_some_iff {start : Nat} {sorts : List SmtSort} {args : List Expr}
    {fault : ApplicationFault} :
    mismatch? start sorts args = some fault ↔ ∃ position expected actual,
      FirstMismatch sorts args position expected actual ∧
        fault = .sort (start + position) expected actual := by
  induction sorts generalizing start args with
  | nil => simp [mismatch?, FirstMismatch.not_nil_sorts]
  | cons sort sorts ih =>
      cases args with
      | nil => simp [mismatch?, FirstMismatch.not_nil_args]
      | cons arg args =>
          by_cases right : arg.sort = sort
          · simp only [mismatch?, if_pos right, ih, FirstMismatch.cons_iff_of_eq right]
            constructor
            · rintro ⟨position, expected, actual, found, rfl⟩
              exact ⟨position + 1, expected, actual, ⟨position, rfl, found⟩, by congr 1; omega⟩
            · rintro ⟨_, expected, actual, ⟨position, rfl, found⟩, rfl⟩
              exact ⟨position, expected, actual, found, by congr 1; omega⟩
          · simp only [mismatch?, if_neg right, FirstMismatch.cons_iff_of_ne right]
            constructor
            · rintro found
              exact ⟨0, sort, arg.sort, ⟨rfl, rfl, rfl⟩, (Option.some.inj found).symm⟩
            · rintro ⟨_, _, _, ⟨rfl, rfl, rfl⟩, rfl⟩
              rfl

variable {f : FunSymbol} {args : List Expr}

theorem apply_of_length_ne (wrong : args.length ≠ f.signature.arity) :
    f.apply args = .error (.arity f.signature.arity args.length) := by
  rw [apply, if_neg wrong]

theorem apply_of_firstMismatch {position : Nat} {expected actual : SmtSort}
    (right : args.length = f.signature.arity)
    (wrong : FirstMismatch f.signature.domain args position expected actual) :
    f.apply args = .error (.sort position expected actual) := by
  have found : mismatch? 0 f.signature.domain args = some (.sort position expected actual) :=
    mismatch?_eq_some_iff.mpr ⟨position, expected, actual, wrong, by rw [Nat.zero_add]⟩
  rw [apply, if_pos right, found]

/-- The arguments of an application are too few or too many, or one of them is the first of a
wrong sort, or all is well. -/
theorem arguments_cases (f : FunSymbol) (args : List Expr) :
    args.length ≠ f.signature.arity ∨
      (args.length = f.signature.arity ∧ ∃ position expected actual,
        FirstMismatch f.signature.domain args position expected actual) ∨
      args.map Expr.sort = f.signature.domain := by
  by_cases right : args.length = f.signature.arity
  · cases found : mismatch? 0 f.signature.domain args with
    | none => exact .inr (.inr ((mismatch?_eq_none_iff right).mp found))
    | some fault =>
        obtain ⟨position, expected, actual, wrong, -⟩ := mismatch?_eq_some_iff.mp found
        exact .inr (.inl ⟨right, position, expected, actual, wrong⟩)
  · exact .inl right

end FunSymbol

/-! ## The four ends of an application -/

namespace Predicate

/-- What a version of a predicate gives for arguments.  Every fault has the name of the
predicate in it, which says nothing of the version. -/
inductive Yields (p : Predicate) (version : Nat) (args : List Expr) :
    Except Fault Expr → Prop where
  /-- The version is not there. -/
  | noVersion : p.latest < version →
      Yields p version args (.error (.invalidVersion p.name version p.latest))
  /-- The version is there, and the number of arguments is wrong. -/
  | wrongNumber : version ≤ p.latest → args.length ≠ p.arity →
      Yields p version args (.error (.arityMismatch p.name p.arity args.length))
  /-- The number is right as well, and an argument is the first of a wrong sort. -/
  | wrongSort {position : Nat} {expected actual : SmtSort} : version ≤ p.latest →
      args.length = p.arity → FirstMismatch p.signature.domain args position expected actual →
      Yields p version args (.error (.sortMismatch p.name position expected actual))
  /-- The version is there and every argument has the sort that is expected. -/
  | applied : version ≤ p.latest → args.map Expr.sort = p.signature.domain →
      Yields p version args
        (.ok ⟨.app (p.name ++ "_" ++ toString version) (args.map Expr.term), p.signature.codomain⟩)

variable {p : Predicate} {i j : Nat} {args : List Expr} {result other : Except Fault Expr}

theorem applyAt_of_lt (absent : p.latest < i) :
    p.applyAt i args = .error (.invalidVersion p.name i p.latest) := by
  rw [applyAt, symbolAt_eq, if_neg (Nat.not_le.mpr absent)]
  rfl

theorem applyAt_of_le (there : i ≤ p.latest) :
    p.applyAt i args = p.applySymbol (p.symbol.version i) args := by
  rw [applyAt, symbolAt_of_le there]
  rfl

/-- An application ends in one of the four ways. -/
theorem yields_applyAt (p : Predicate) (i : Nat) (args : List Expr) :
    p.Yields i args (p.applyAt i args) := by
  rcases Nat.lt_or_ge p.latest i with absent | there
  · rw [applyAt_of_lt absent]
    exact .noVersion absent
  · rw [applyAt_of_le there, applySymbol]
    rcases (p.symbol.version i).arguments_cases args with wrong | ⟨right, _, _, _, wrong⟩ | sorts
    · rw [FunSymbol.apply_of_length_ne wrong]
      exact .wrongNumber there wrong
    · rw [FunSymbol.apply_of_firstMismatch right wrong]
      exact .wrongSort there right wrong
    · rw [FunSymbol.apply_eq_ok_iff.mpr ⟨sorts, rfl⟩]
      exact .applied there sorts

/-- Each of the four ways is how an application ends. -/
theorem Yields.applyAt_eq (h : p.Yields i args result) : p.applyAt i args = result := by
  cases h with
  | noVersion absent => exact applyAt_of_lt absent
  | wrongNumber there wrong =>
      have wrong : args.length ≠ (p.symbol.version i).signature.arity := wrong
      rw [applyAt_of_le there, applySymbol, FunSymbol.apply_of_length_ne wrong]
      rfl
  | wrongSort there right wrong =>
      have right : args.length = (p.symbol.version i).signature.arity := right
      rw [applyAt_of_le there, applySymbol, FunSymbol.apply_of_firstMismatch right wrong]
      rfl
  | applied there sorts => exact applyAt_eq_ok_iff.mpr ⟨there, sorts, rfl⟩

theorem applyAt_eq_iff : p.applyAt i args = result ↔ p.Yields i args result := by
  constructor
  · rintro rfl
    exact yields_applyAt p i args
  · exact Yields.applyAt_eq

theorem apply_eq_applyAt (p : Predicate) (args : List Expr) :
    p.apply args = p.applyAt p.latest args := by
  rw [applyAt_of_le (Nat.le_refl _)]
  rfl

/-! ## All versions agree -/

/-- Two results are one fault, or the applications of two symbols to one list of terms.  The
symbols are one exactly if the versions are. -/
inductive SameButSymbol (i j : Nat) : Except Fault Expr → Except Fault Expr → Prop where
  | fault (fault : Fault) : SameButSymbol i j (.error fault) (.error fault)
  | applied {f g : String} {terms : List Term} {sort : SmtSort} : (f = g ↔ i = j) →
      SameButSymbol i j (.ok ⟨.app f terms, sort⟩) (.ok ⟨.app g terms, sort⟩)

/-- Versions that are there give the same for the same arguments, but for the symbol. -/
theorem Yields.sameButSymbol (there : i ≤ p.latest) (there' : j ≤ p.latest)
    (h : p.Yields i args result) (h' : p.Yields j args other) : SameButSymbol i j result other := by
  have computed : p.applyAt j args = other := h'.applyAt_eq
  cases h with
  | noVersion absent => exact absurd there (Nat.not_le.mpr absent)
  | wrongNumber _ wrong =>
      rw [← computed, (wrongNumber there' wrong).applyAt_eq]
      exact .fault _
  | wrongSort _ right wrong =>
      rw [← computed, (wrongSort there' right wrong).applyAt_eq]
      exact .fault _
  | applied _ sorts =>
      rw [← computed, (applied there' sorts).applyAt_eq]
      refine .applied ?_
      have told := VersionedSymbol.name_version_inj (f := p.symbol) (g := p.symbol) (i := i) (j := j)
      exact told.trans (and_iff_right rfl)

end Predicate

/-! ## Through a registry -/

namespace Registry

variable {r : Registry} {id : PredicateId} {p : Predicate}

theorem answer_asking {α : Type} (good : r.get id = .ok p) (f : Predicate → Except Fault α) :
    (r.asking id f).answer = f p := by
  rw [asking, answering, good]
  rfl

theorem map_expr_inj {e e' : Except Fault Expr} : e.map Answer.expr = e'.map .expr ↔ e = e' := by
  cases e with
  | error fault => cases e' with | _ => simp [Except.map]
  | ok x => cases e' with | _ => simp [Except.map]

/-- Applying a version of a predicate of any reachable registry yields what `Yields` lists,
and nothing else.  The newest version is applied like any other.  All versions that are there
yield the same but for the symbol. -/
theorem application_exact (policy : DuplicatePolicy) (run : Nat) (steps : List Step) (fresh : Nat)
    {id : PredicateId} {p : Predicate} (live : ((start policy run).after steps).get id = .ok p) :
    (∀ i args result,
      (((start policy run).after steps).perform fresh (.applyAt id i args)).answer
        = result.map .expr ↔ p.Yields i args result) ∧
    (∀ args, (((start policy run).after steps).perform fresh (.apply id args)).answer
      = (((start policy run).after steps).perform fresh (.applyAt id p.latest args)).answer) ∧
    ∀ args i j result other, i ≤ p.latest → j ≤ p.latest → p.Yields i args result →
      p.Yields j args other → Predicate.SameButSymbol i j result other := by
  have applied (i : Nat) (args : List Expr) :
      (((start policy run).after steps).perform fresh (.applyAt id i args)).answer
        = (p.applyAt i args).map .expr :=
    congrArg (Except.map Answer.expr) (answer_asking live (·.applyAt i args))
  refine ⟨?_, ?_, ?_⟩
  · intro i args result
    rw [applied, map_expr_inj, Predicate.applyAt_eq_iff]
  · intro args
    rw [applied, ← Predicate.apply_eq_applyAt]
    exact congrArg (Except.map Answer.expr) (answer_asking live (·.apply args))
  · intro args i j result other there there' h h'
    exact h.sameButSymbol there there' h'

/-- The second argument is an array of integers where one of truth values is expected.  The
predicate has two versions, and a name that looks as if it had one in it. -/
theorem application_exact_second_argument :
    let d : Declaration := ⟨"p_1", .relation [.int, .array .int .bool], .custom, .none, 0⟩
    let steps : List Step := [⟨.create d fun _ => none, 2⟩, ⟨.addVersion ⟨1, 0⟩, 2⟩]
    let r := (start .reject 1).after steps
    let p : Predicate := ⟨⟨"p_1", d.signature, 1⟩, .custom, .none, none, 0⟩
    let three := Expr.int 3
    let wrong := Expr.const "m" (.array .int .int)
    let right := Expr.const "m" (.array .int .bool)
    r.get ⟨1, 0⟩ = .ok p ∧
      (r.perform 2 (.applyAt ⟨1, 0⟩ 2 [three])).answer = .error (.invalidVersion "p_1" 2 1) ∧
      (r.perform 2 (.applyAt ⟨1, 0⟩ 0 [wrong])).answer = .error (.arityMismatch "p_1" 2 1) ∧
      (r.perform 2 (.applyAt ⟨1, 0⟩ 0 [three, wrong])).answer
        = .error (.sortMismatch "p_1" 1 (.array .int .bool) (.array .int .int)) ∧
      (r.perform 2 (.applyAt ⟨1, 0⟩ 0 [three, right])).answer
        = .ok (.expr ⟨.app "p_1_0" [three.term, right.term], .bool⟩) := by
  intro d steps r p three wrong right
  have live : r.get ⟨1, 0⟩ = .ok p := rfl
  obtain ⟨yields, -, -⟩ := application_exact .reject 1 steps 2 live
  have mismatch : FirstMismatch p.signature.domain [three, wrong] 1 (.array .int .bool)
      (.array .int .int) := by
    refine ⟨rfl, rfl, by decide, ?_⟩
    intro i hi
    rw [Nat.lt_one_iff.mp hi]
    rfl
  refine ⟨live, (yields 2 _ (.error _)).mpr (.noVersion (by decide)),
    (yields 0 _ (.error _)).mpr (.wrongNumber (by decide) (by decide)),
    (yields 0 _ (.error _)).mpr (.wrongSort (by decide) rfl mismatch),
    (yields 0 _ (.ok _)).mpr (.applied (by decide) rfl)⟩

end Registry

end Hornbook
