import Hornbook.Proofs.Lists
import Hornbook.Proofs.Smt.Legible

/-!
# Printed terms are read back

The text of a legible term is read back as the same term in its normal spelling
(`Term.Legible.ofText?_text`), so a text tells its term as far as that can be told
(`Term.told_by_text`).

The reader looks at the head of an expression first.  The heads are words of the printer,
and no name is one, so an application is never taken for something else.  The one word with
two meanings is the minus sign, and the number of expressions behind it says which one is
meant.
-/

namespace Hornbook

/-! ## Sorts -/

namespace SmtSort

theorem ofWord?_of_isSortName {name : String} (h : IsSortName name) :
    ofWord? name = some (datatype name) := by
  have other : ∀ w ∈ sortWords, name ≠ w := fun w mem same => h.2 (same ▸ mem)
  rw [ofWord?, if_neg (other "Bool" (by decide)), if_neg (other "Int" (by decide)),
    if_neg (other "Real" (by decide)), if_pos h]

/-- A printed sort is read back. -/
theorem Legible.ofSexp?_toSexp {s : SmtSort} (h : s.Legible) :
    ofSexp? s.toSexp = some s.normal := by
  induction h with
  | bool | int | real => rfl
  | bitVec width =>
      show (numeral? (toString width).toList).map SmtSort.bitVec = some (.bitVec width)
      rw [numeral?_toString, Option.map_some]
  | @array i e _ _ index element =>
      show (do return SmtSort.array (← ofSexp? i.toSexp) (← ofSexp? e.toSexp)) = _
      rw [index, element]
      rfl
  | datatype name => exact ofWord?_of_isSortName name
  | uninterpreted name => exact ofWord?_of_isSortName name

end SmtSort

namespace Term

variable {t : Term} {ts : List Term} {w : String}

/-! ## Reading an expression by its head -/

theorem ofWord?_of_isName (h : IsName w) : ofWord? w = some (const w) := by
  have other : ∀ v ∈ termWords, w ≠ v := fun v mem same => h.2 (same ▸ mem)
  rw [ofWord?, if_neg (other "true" (by decide)), if_neg (other "false" (by decide)), if_pos h]

theorem ofWord?_numeral (n : Nat) : ofWord? (toString n) = some (int n) := by
  have other {v : String} {c : Char} (mem : c ∈ v.toList) (h : c.isDigit = false) :
      toString n ≠ v := by
    intro same
    exact notMem_numeral h n (same ▸ mem)
  have notTrue : toString n ≠ "true" := other (c := 't') (by decide) (by decide)
  have notFalse : toString n ≠ "false" := other (c := 'f') (by decide) (by decide)
  rw [ofWord?, if_neg notTrue, if_neg notFalse, if_neg (not_isName_numeral n), numeral?_toString]
  rfl

variable {items : List Sexp}

theorem ofSexp?_application (h : IsName w) :
    ofSexp? (.list (.atom w :: items)) = ofSexps? items >>= application? w := by
  rw [ofSexp?.eq_def]
  simp only [Head.ofWord?_of_isName h]

theorem ofSexp?_connective (c : Connective) :
    ofSexp? (.list (.atom c.word :: items)) = ofSexps? items >>= (Head.connective c).term? := by
  rw [ofSexp?.eq_def]
  simp only [Head.ofWord?_connective]

theorem ofSexp?_binary (op : BinaryOp) (x y : Sexp) :
    ofSexp? (.list [.atom op.word, x, y]) = ofSexps? [x, y] >>= (Head.binary op).term? := by
  rw [ofSexp?.eq_def]
  simp only [Head.ofWord?_binary]

theorem ofSexp?_quantified (q : Quantifier) (vars : List Sexp) (body : Sexp) :
    ofSexp? (.list [.atom q.word, .list vars, body])
      = do return quantified q (← vars.mapM binder?) (← ofSexp? body) := by
  rw [ofSexp?.eq_def]
  simp only [Head.ofWord?_quantifier]

theorem ofSexps?_toSexps (h : ∀ t ∈ ts, ofSexp? t.toSexp = some t.normal) :
    ofSexps? (toSexps ts) = some (normals ts) := by
  induction ts with
  | nil => rfl
  | cons t ts ih =>
      obtain ⟨first, rest⟩ := List.forall_mem_cons.mp h
      rw [toSexps, ofSexps?, first, ih rest]
      rfl

/-! ## Reading terms -/

theorem literal?_numerals (pattern width : Nat) :
    literal? ("bv" ++ toString pattern) (toString width) = some (bitVec pattern width) := by
  rw [literal?, toList_pattern]
  show (do return bitVec (← numeral? (toString pattern).toList) (← numeral? _)) = _
  rw [numeral?_toString, numeral?_toString]
  rfl

theorem binder?_binderSexp {x : String × SmtSort} (name : IsName x.1) (sort : x.2.Legible) :
    binder? (binderSexp x) = some (normalBinder x) := by
  rw [binderSexp, binder?, if_pos name, sort.ofSexp?_toSexp]
  rfl

theorem mapM_binder?_binderSexp {vars : List (String × SmtSort)}
    (h : ∀ x ∈ vars, IsName x.1 ∧ x.2.Legible) :
    (vars.map binderSexp).mapM binder? = some (vars.map normalBinder) :=
  mapM_map_eq_some fun x mem => binder?_binderSexp (h x mem).1 (h x mem).2

/-- A printed term is read back in its normal spelling. -/
theorem Legible.ofSexp?_toSexp (h : t.Legible) : ofSexp? t.toSexp = some t.normal := by
  induction h with
  | bool value =>
      cases value with
      | true => rfl
      | false => rfl
  | int value =>
      cases value with
      | ofNat n => exact ofWord?_numeral n
      | negSucc n =>
          show (numeral? (toString (n + 1)).toList).map (fun n => Term.int (-n)) = _
          rw [numeral?_toString]
          rfl
  | @bitVec value width narrow lower upper =>
      show literal? ("bv" ++ toString (bitPattern value width)) (toString width) = _
      rw [literal?_numerals, bitPattern_eq narrow lower upper]
      rfl
  | const name => exact ofWord?_of_isName name
  | @not t _ ih =>
      show ofSexps? [t.toSexp] >>= Head.not.term? = _
      rw [ofSexps?, ih]
      rfl
  | @connective c ts _ ih =>
      cases ts with
      | nil =>
          cases c with
          | and => rfl
          | or => rfl
      | cons t ts =>
          rw [toSexp, ofSexp?_connective, ← toSexps, ofSexps?_toSexps ih]
          rfl
  | @binary op l r _ _ ih ih' =>
      rw [toSexp, ofSexp?_binary, ofSexps?, ofSexps?, ih, ih']
      rfl
  | @ite c t e _ _ _ ih ih' ih'' =>
      show ofSexps? [c.toSexp, t.toSexp, e.toSexp] >>= Head.ite.term? = _
      rw [ofSexps?, ofSexps?, ofSexps?, ih, ih', ih'']
      rfl
  | @store a i v _ _ _ ih ih' ih'' =>
      show ofSexps? [a.toSexp, i.toSexp, v.toSexp] >>= Head.store.term? = _
      rw [ofSexps?, ofSexps?, ofSexps?, ih, ih', ih'']
      rfl
  | @quantified q vars body binders _ ih =>
      rw [toSexp, ofSexp?_quantified, mapM_binder?_binderSexp binders, ih]
      rfl
  | @app symbol args name _ ih =>
      cases args with
      | nil => exact ofWord?_of_isName name
      | cons t ts =>
          rw [toSexp, ofSexp?_application name, ← toSexps, ofSexps?_toSexps ih]
          exact if_pos ⟨name, List.cons_ne_nil _ _⟩

/-- The text of a legible term is read back. -/
theorem Legible.ofText?_text (h : t.Legible) : ofText? t.text = some t.normal := by
  rw [ofText?, text, h.tidy.ofText?_text]
  exact h.ofSexp?_toSexp

/-! ## What a text tells -/

/-- What the text of a legible term tells.  It is read back, and what is read is the term up
to spelling.  Another legible term has this text only if it is alike.  The text is one word
or one expression in parentheses. -/
theorem told_by_text (h : t.Legible) :
    (∃ u, ofText? t.text = some u ∧ u.Alike t)
      ∧ (∀ u : Term, u.Legible → (u.text = t.text ↔ u.Alike t))
      ∧ (Sexp.IsWord t.text.toList ∨ Sexp.IsBracketed t.text.toList) := by
  refine ⟨⟨t.normal, h.ofText?_text, (alike_normal t).symm⟩, fun u legible => ⟨?_, ?_⟩, ?_⟩
  · intro same
    have read : some u.normal = some t.normal := by
      rw [← legible.ofText?_text, ← h.ofText?_text, same]
    exact alike_iff.mpr (Option.some.inj read)
  · intro alike
    rw [text, text, ← legible.toSexp_normal, ← h.toSexp_normal, alike_iff.mp alike]
  · rw [text, Sexp.toList_text]
    exact h.tidy.isWord_or_isBracketed

/-- Two spellings of one quantified term print alike, and another number in it prints
another text. -/
theorem told_by_text_exists :
    (quantified .existential [("x", .array .int (.uninterpreted "S"))]
        (app "p!" [bitVec (-1) 8, connective .and [], app "c" [], int (-3)])).text
      = (quantified .existential [("x", .array .int (.datatype "S"))]
        (app "p!" [bitVec 255 8, bool true, const "c", int (-3)])).text
    ∧ (quantified .existential [("x", .array .int (.uninterpreted "S"))]
        (app "p!" [bitVec (-2) 8, connective .and [], app "c" [], int (-3)])).text
      ≠ (quantified .existential [("x", .array .int (.datatype "S"))]
        (app "p!" [bitVec 255 8, bool true, const "c", int (-3)])).text := by
  have sorts (s : SmtSort) (h : s.Legible) : ∀ x ∈ [("x", SmtSort.array .int s)],
      IsName x.1 ∧ x.2.Legible := by
    have name : IsName "x" := by decide
    exact List.forall_mem_singleton.mpr ⟨name, .array .int h⟩
  have spelled (v : Int) (lower : -(patterns 8 : Int) ≤ v) (upper : v < patterns 8) :
      (quantified .existential [("x", .array .int (.uninterpreted "S"))]
        (app "p!" [bitVec v 8, connective .and [], app "c" [], int (-3)])).Legible := by
    refine .quantified _ (sorts _ (.uninterpreted (by decide))) (.app (by decide) ?_)
    simp only [List.forall_mem_cons]
    exact ⟨.bitVec (by decide) lower upper, .connective _ (List.forall_mem_nil _),
      .app (by decide) (List.forall_mem_nil _), .int _, List.forall_mem_nil _⟩
  have plain : (quantified .existential [("x", .array .int (.datatype "S"))]
      (app "p!" [bitVec 255 8, bool true, const "c", int (-3)])).Legible := by
    refine .quantified _ (sorts _ (.datatype (by decide))) (.app (by decide) ?_)
    simp only [List.forall_mem_cons]
    exact ⟨.bitVec (by decide) (by decide) (by decide), .bool _, .const (by decide), .int _,
      List.forall_mem_nil _⟩
  obtain ⟨-, tells, -⟩ := told_by_text plain
  refine ⟨(tells _ (spelled (-1) (by decide) (by decide))).mpr (alike_iff.mpr rfl), ?_⟩
  intro same
  have alike := (tells _ (spelled (-2) (by decide) (by decide))).mp same
  exact absurd (alike_iff.mp alike) (by decide)

end Term

end Hornbook
