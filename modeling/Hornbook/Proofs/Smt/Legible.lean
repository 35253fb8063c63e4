import Hornbook.Proofs.Smt.Alike
import Hornbook.Proofs.Smt.Word

/-!
# Legible terms

A term is legible if its names are names and its bit vectors fit their widths.  What it
prints is then an expression whose atoms are words (`Term.Legible.tidy`), and its normal
spelling prints the same (`Term.Legible.toSexp_normal`).
-/

namespace Hornbook

/-! ## Sorts -/

namespace SmtSort

/-- The names of a sort are names of sorts. -/
inductive Legible : SmtSort → Prop where
  | bool : Legible bool
  | int : Legible int
  | real : Legible real
  | bitVec (width : Nat) : Legible (bitVec width)
  | array {i e : SmtSort} : Legible i → Legible e → Legible (array i e)
  | datatype {name : String} : IsSortName name → Legible (datatype name)
  | uninterpreted {name : String} : IsSortName name → Legible (uninterpreted name)

variable {s : SmtSort}

theorem Legible.tidy (h : s.Legible) : s.toSexp.Tidy := by
  induction h with
  | bool | int | real => exact tidy_of_mem_words (by decide)
  | bitVec width =>
      exact .cons (tidy_of_mem_words (by decide)) (.cons (tidy_of_mem_words (by decide))
        (.cons (.atom (isWord_numeral width)) .nil))
  | array _ _ index element =>
      exact .cons (tidy_of_mem_words (by decide)) (.cons index (.cons element .nil))
  | datatype name => exact .atom (isWord_of_isSimpleSymbol name.1)
  | uninterpreted name => exact .atom (isWord_of_isSimpleSymbol name.1)

/-- The normal sort prints what the sort does. -/
theorem toSexp_normal (s : SmtSort) : s.normal.toSexp = s.toSexp := by
  induction s with
  | array _ _ index element => rw [normal, toSexp, toSexp, index, element]
  | bool | int | real | bitVec | datatype | uninterpreted => rfl

end SmtSort

/-! ## Terms -/

namespace Term

/-- The names of a term are names, and every bit vector fits its width. -/
inductive Legible : Term → Prop where
  | bool (value : Bool) : Legible (bool value)
  | int (value : Int) : Legible (int value)
  | bitVec {value : Int} {width : Nat} : width ≤ 126 →
      -(patterns width : Int) ≤ value → value < patterns width → Legible (bitVec value width)
  | const {name : String} : IsName name → Legible (const name)
  | not {t : Term} : Legible t → Legible (not t)
  | connective (c : Connective) {ts : List Term} :
      (∀ t ∈ ts, Legible t) → Legible (connective c ts)
  | binary (op : BinaryOp) {l r : Term} : Legible l → Legible r → Legible (binary op l r)
  | ite {c t e : Term} : Legible c → Legible t → Legible e → Legible (ite c t e)
  | store {a i v : Term} : Legible a → Legible i → Legible v → Legible (store a i v)
  | quantified (q : Quantifier) {vars : List (String × SmtSort)} {body : Term} :
      (∀ x ∈ vars, IsName x.1 ∧ x.2.Legible) → Legible body → Legible (quantified q vars body)
  | app {symbol : String} {args : List Term} :
      IsName symbol → (∀ t ∈ args, Legible t) → Legible (app symbol args)

variable {t : Term} {ts : List Term}

theorem tidy_toSexps (h : ∀ t ∈ ts, t.toSexp.Tidy) : (Sexp.list (toSexps ts)).Tidy := by
  induction ts with
  | nil => exact .nil
  | cons t ts ih =>
      obtain ⟨first, rest⟩ := List.forall_mem_cons.mp h
      exact .cons first (ih rest)

theorem tidy_binders {vars : List (String × SmtSort)}
    (h : ∀ x ∈ vars, IsName x.1 ∧ x.2.Legible) : (Sexp.list (vars.map binderSexp)).Tidy := by
  induction vars with
  | nil => exact .nil
  | cons x vars ih =>
      obtain ⟨⟨name, sort⟩, rest⟩ := List.forall_mem_cons.mp h
      have word : (Sexp.atom x.1).Tidy := .atom (isWord_of_isSimpleSymbol name.1)
      exact .cons (.cons word (.cons sort.tidy .nil)) (ih rest)

theorem Legible.tidy (h : t.Legible) : t.toSexp.Tidy := by
  induction h with
  | bool value =>
      cases value with
      | true => exact tidy_of_mem_words (by decide)
      | false => exact tidy_of_mem_words (by decide)
  | int value =>
      cases value with
      | ofNat n => exact .atom (isWord_numeral n)
      | negSucc n =>
          exact .cons (tidy_of_mem_words (by decide)) (.cons (.atom (isWord_numeral (n + 1))) .nil)
  | @bitVec value width =>
      exact .cons (tidy_of_mem_words (by decide)) (.cons (.atom (isWord_pattern _))
        (.cons (.atom (isWord_numeral width)) .nil))
  | const name => exact .atom (isWord_of_isSimpleSymbol name.1)
  | not _ ih => exact .cons (tidy_of_mem_words (by decide)) (.cons ih .nil)
  | @connective c ts _ ih =>
      cases ts with
      | nil =>
          cases c with
          | and => exact tidy_of_mem_words (by decide)
          | or => exact tidy_of_mem_words (by decide)
      | cons t ts =>
          exact .cons (Head.tidy_of_ofWord? (Head.ofWord?_connective c)) (tidy_toSexps ih)
  | binary op _ _ ih ih' =>
      exact .cons (Head.tidy_of_ofWord? (Head.ofWord?_binary op)) (.cons ih (.cons ih' .nil))
  | ite _ _ _ ih ih' ih'' =>
      exact .cons (tidy_of_mem_words (by decide)) (.cons ih (.cons ih' (.cons ih'' .nil)))
  | store _ _ _ ih ih' ih'' =>
      exact .cons (tidy_of_mem_words (by decide)) (.cons ih (.cons ih' (.cons ih'' .nil)))
  | quantified q binders _ ih =>
      exact .cons (Head.tidy_of_ofWord? (Head.ofWord?_quantifier q))
        (.cons (tidy_binders binders) (.cons ih .nil))
  | @app symbol args name _ ih =>
      have word : (Sexp.atom symbol).Tidy := .atom (isWord_of_isSimpleSymbol name.1)
      cases args with
      | nil => exact word
      | cons t ts => exact .cons word (tidy_toSexps ih)

/-! ## Normal spellings -/

/-- The pattern of a value that fits its width is the value counted around that width. -/
theorem bitPattern_eq {value : Int} {width : Nat} (narrow : width ≤ 126)
    (lower : -(patterns width : Int) ≤ value) (upper : value < patterns width) :
    (bitPattern value width : Int) = value % patterns width := by
  have wide : patterns width < patterns 128 :=
    Nat.lt_of_le_of_lt (Nat.pow_le_pow_right (by decide) narrow) (by decide : patterns 126 < _)
  rw [bitPattern]
  split
  next negative =>
    rw [Int.emod_eq_of_lt (by omega) (by omega), Int.toNat_of_nonneg (by omega),
      ← Int.add_emod_left, Int.emod_eq_of_lt (by omega) (by omega)]
  next other =>
    have nonneg : 0 ≤ value := by omega
    rw [Int.emod_eq_of_lt nonneg (by omega), Int.toNat_of_nonneg nonneg,
      Int.emod_eq_of_lt nonneg upper]

/-- A value has the pattern of its residue. -/
theorem bitPattern_emod {value : Int} {width : Nat} (narrow : width ≤ 126)
    (lower : -(patterns width : Int) ≤ value) (upper : value < patterns width) :
    bitPattern (value % patterns width) width = bitPattern value width := by
  have positive : (0 : Int) < patterns width :=
    Int.natCast_pos.mpr (Nat.pow_pos (by decide : 0 < 2))
  have nonneg : 0 ≤ value % patterns width := Int.emod_nonneg value (by omega)
  have below : value % patterns width < patterns width := Int.emod_lt_of_pos value positive
  rw [← Int.natCast_inj, bitPattern_eq narrow lower upper, bitPattern_eq narrow (by omega) below,
    Int.emod_emod]

theorem toSexps_normals (h : ∀ t ∈ ts, t.normal.toSexp = t.toSexp) :
    toSexps (normals ts) = toSexps ts := by
  rw [toSexps_eq_map, toSexps_eq_map, normals_eq_map, List.map_map]
  exact List.map_congr_left h

theorem map_binderSexp_normalBinder (vars : List (String × SmtSort)) :
    (vars.map normalBinder).map binderSexp = vars.map binderSexp := by
  rw [List.map_map]
  refine List.map_congr_left fun x _ => ?_
  show Sexp.list [.atom x.1, x.2.normal.toSexp] = _
  rw [SmtSort.toSexp_normal, binderSexp]

/-- The normal spelling of a legible term prints what the term does. -/
theorem Legible.toSexp_normal (h : t.Legible) : t.normal.toSexp = t.toSexp := by
  induction h with
  | bool | int | const => rfl
  | bitVec narrow lower upper =>
      rw [normal, toSexp, toSexp, bitPattern_emod narrow lower upper]
  | not _ ih => rw [normal, toSexp, toSexp, ih]
  | @connective c ts _ ih =>
      cases ts with
      | nil =>
          cases c with
          | and => rfl
          | or => rfl
      | cons t ts =>
          rw [normal, toSexp, toSexp, ← toSexps, ← toSexps, ← normals, toSexps_normals ih]
  | binary op _ _ ih ih' => rw [normal, toSexp, toSexp, ih, ih']
  | ite _ _ _ ih ih' ih'' => rw [normal, toSexp, toSexp, ih, ih', ih'']
  | store _ _ _ ih ih' ih'' => rw [normal, toSexp, toSexp, ih, ih', ih'']
  | quantified q _ _ ih => rw [normal, toSexp, toSexp, ih, map_binderSexp_normalBinder]
  | @app symbol args _ _ ih =>
      cases args with
      | nil => rfl
      | cons t ts =>
          rw [normal, toSexp, toSexp, ← toSexps, ← toSexps, ← normals, toSexps_normals ih]

end Term

end Hornbook
