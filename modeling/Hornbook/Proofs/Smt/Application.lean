import Hornbook.Predicate.Basic

/-!
# Applications

A function symbol applies to a list of arguments exactly when their sorts are, one by
one, the sorts of its domain (`FunSymbol.apply_eq_ok_iff`).  What comes out is fixed: the
application of the symbol to the terms of the arguments, of the sort of the codomain.  A
predicate applies one of its versions if that version is there, so the same is true of it
(`Predicate.apply_eq_ok_iff`, `Predicate.applyAt_eq_ok_iff`).
-/

namespace Hornbook

namespace FunSymbol

/-- No argument is at fault exactly when every argument has the expected sort. -/
theorem mismatch?_eq_none_iff {position : Nat} {sorts : List SmtSort} {args : List Expr}
    (h : args.length = sorts.length) :
    mismatch? position sorts args = none ↔ args.map Expr.sort = sorts := by
  induction sorts generalizing position args with
  | nil =>
      rw [List.length_nil, List.length_eq_zero_iff] at h
      simp [h, mismatch?]
  | cons expected sorts ih =>
      cases args with
      | nil => cases h
      | cons arg args =>
          have rest : args.length = sorts.length := Nat.succ.inj h
          by_cases same : arg.sort = expected
          · simp [mismatch?, same, ih rest]
          · simp [mismatch?, same]

theorem apply_eq_ok_iff {f : FunSymbol} {args : List Expr} {e : Expr} :
    f.apply args = .ok e ↔
      args.map Expr.sort = f.signature.domain ∧
        e = ⟨.app f.name (args.map Expr.term), f.signature.codomain⟩ := by
  unfold apply
  split
  next fits =>
    cases faulty : mismatch? 0 f.signature.domain args with
    | none =>
        have sorts := (mismatch?_eq_none_iff fits).mp faulty
        simp [sorts, eq_comm]
    | some fault =>
        have sorts : args.map Expr.sort ≠ f.signature.domain := by
          intro same
          rw [(mismatch?_eq_none_iff fits).mpr same] at faulty
          cases faulty
        simp [sorts]
  next unfit =>
    have sorts : args.map Expr.sort ≠ f.signature.domain := by
      intro same
      exact unfit (by rw [Signature.arity, ← same, List.length_map])
    simp [sorts]

end FunSymbol

namespace Predicate

variable {p : Predicate} {args : List Expr} {e : Expr} {i : Nat}

/-- A version has its symbol if it is there. -/
theorem symbolAt_eq (p : Predicate) (i : Nat) :
    p.symbolAt i = if i ≤ p.latest then .ok (p.symbol.version i)
      else .error (.invalidVersion p.name i p.latest) := by
  unfold symbolAt VersionedSymbol.version?
  by_cases h : i ≤ p.symbol.latest
  · simp [h, latest]
  · simp [h, latest]

theorem symbolAt_of_le (h : i ≤ p.latest) : p.symbolAt i = .ok (p.symbol.version i) := by
  rw [symbolAt_eq, if_pos h]

theorem eq_version_of_symbolAt {f : FunSymbol} (h : p.symbolAt i = .ok f) :
    f = p.symbol.version i := by
  rw [symbolAt_eq] at h
  split at h
  · exact (Except.ok.inj h).symm
  · cases h

/-- A predicate names itself in a fault and changes nothing else. -/
theorem applySymbol_eq_ok_iff {f : FunSymbol} :
    p.applySymbol f args = .ok e ↔ f.apply args = .ok e := by
  unfold applySymbol
  cases f.apply args with
  | error fault => exact ⟨nofun, nofun⟩
  | ok e' =>
      show Except.ok e' = .ok e ↔ _
      rw [Except.ok.injEq, Except.ok.injEq]

theorem apply_eq_ok_iff :
    p.apply args = .ok e ↔
      args.map Expr.sort = p.signature.domain ∧
        e = ⟨.app (p.symbol.version p.latest).name (args.map Expr.term), p.signature.codomain⟩ := by
  rw [apply, applySymbol_eq_ok_iff, FunSymbol.apply_eq_ok_iff]
  rfl

theorem applyAt_eq_ok_iff :
    p.applyAt i args = .ok e ↔
      i ≤ p.latest ∧ args.map Expr.sort = p.signature.domain ∧
        e = ⟨.app (p.symbol.version i).name (args.map Expr.term), p.signature.codomain⟩ := by
  rw [applyAt, symbolAt_eq]
  by_cases h : i ≤ p.latest
  · rw [if_pos h]
    show p.applySymbol (p.symbol.version i) args = .ok e ↔ _
    rw [applySymbol_eq_ok_iff, FunSymbol.apply_eq_ok_iff]
    simp only [h, true_and]
    rfl
  · rw [if_neg h]
    constructor
    · nofun
    · rintro ⟨early, -⟩
      exact absurd early h

end Predicate

end Hornbook
