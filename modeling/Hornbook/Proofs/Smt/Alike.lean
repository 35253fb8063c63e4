import Hornbook.Smt.Term

/-!
# Terms that print alike

Some terms that differ cannot be told apart once they are printed.  `Term.Alike` identifies
them: it is the smallest equivalence that holds of the pairs named in its definition and
goes through every part of a term.  Nothing in it mentions printing.

Each class of alike terms has one member without the other spellings (`Term.normal`), so
being alike is decided by comparing normal terms (`Term.alike_iff`).
-/

namespace Hornbook

/-! ## Sorts -/

namespace SmtSort

/-- Sorts that differ at most in which of their names are names of datatypes. -/
inductive Alike : SmtSort → SmtSort → Prop where
  | refl (s : SmtSort) : Alike s s
  | symm {s t : SmtSort} : Alike s t → Alike t s
  | trans {s t u : SmtSort} : Alike s t → Alike t u → Alike s u
  /-- A datatype and the uninterpreted sort of its name. -/
  | named (name : String) : Alike (datatype name) (uninterpreted name)
  | array {i i' e e' : SmtSort} : Alike i i' → Alike e e' → Alike (array i e) (array i' e')

/-- The sort with every name taken for the name of a datatype. -/
def normal : SmtSort → SmtSort
  | array index element => array index.normal element.normal
  | uninterpreted name => datatype name
  | s => s

theorem alike_normal (s : SmtSort) : s.Alike s.normal := by
  induction s with
  | array _ _ index element => exact .array index element
  | uninterpreted name => exact (Alike.named name).symm
  | bool | int | real | bitVec | datatype => exact .refl _

variable {s t : SmtSort}

theorem Alike.normal_eq (h : s.Alike t) : s.normal = t.normal := by
  induction h with
  | refl s => rfl
  | symm _ ih => exact ih.symm
  | trans _ _ ih ih' => exact ih.trans ih'
  | named name => rfl
  | array _ _ index element => rw [normal, normal, index, element]

theorem alike_iff : s.Alike t ↔ s.normal = t.normal := by
  constructor
  · exact Alike.normal_eq
  · intro same
    have between : s.normal.Alike t.normal := same ▸ .refl s.normal
    exact (alike_normal s).trans (between.trans (alike_normal t).symm)

end SmtSort

/-! ## Terms -/

/-- The truth value of a connective of no terms. -/
def Connective.neutral : Connective → Bool
  | and => true
  | or => false

namespace Term

/-- Terms that differ at most in the spellings named here. -/
inductive Alike : Term → Term → Prop where
  | refl (t : Term) : Alike t t
  | symm {t u : Term} : Alike t u → Alike u t
  | trans {t u v : Term} : Alike t u → Alike u v → Alike t v
  /-- An application to nothing and the constant of its name. -/
  | bare (name : String) : Alike (app name []) (const name)
  | emptyAnd : Alike (connective .and []) (bool true)
  | emptyOr : Alike (connective .or []) (bool false)
  /-- Two values of one bit pattern. -/
  | congruent {v v' : Int} {w : Nat} :
      v % patterns w = v' % patterns w → Alike (bitVec v w) (bitVec v' w)
  /-- The sort of one bound variable. -/
  | bound {s s' : SmtSort} (q : Quantifier) (front : List (String × SmtSort)) (x : String)
      (behind : List (String × SmtSort)) (body : Term) :
      s.Alike s' → Alike (quantified q (front ++ (x, s) :: behind) body)
        (quantified q (front ++ (x, s') :: behind) body)
  | not {t t' : Term} : Alike t t' → Alike (not t) (not t')
  /-- One term under a connective. -/
  | connective {t t' : Term} (c : Connective) (front behind : List Term) :
      Alike t t' → Alike (connective c (front ++ t :: behind))
        (connective c (front ++ t' :: behind))
  | binary {l l' r r' : Term} (op : BinaryOp) :
      Alike l l' → Alike r r' → Alike (binary op l r) (binary op l' r')
  | ite {c c' t t' e e' : Term} :
      Alike c c' → Alike t t' → Alike e e' → Alike (ite c t e) (ite c' t' e')
  | store {a a' i i' v v' : Term} :
      Alike a a' → Alike i i' → Alike v v' → Alike (store a i v) (store a' i' v')
  | quantified {body body' : Term} (q : Quantifier) (vars : List (String × SmtSort)) :
      Alike body body' → Alike (quantified q vars body) (quantified q vars body')
  /-- One argument of an application. -/
  | app {t t' : Term} (symbol : String) (front behind : List Term) :
      Alike t t' → Alike (app symbol (front ++ t :: behind)) (app symbol (front ++ t' :: behind))

/-- A sorted variable with its sort made normal. -/
def normalBinder (x : String × SmtSort) : String × SmtSort := (x.1, x.2.normal)

mutual

/-- The term in the spelling that its printed form has. -/
def normal : Term → Term
  | bool value => bool value
  | int value => int value
  | bitVec value width => bitVec (value % patterns width) width
  | const name => const name
  | not t => not t.normal
  | connective c [] => bool c.neutral
  | connective c (t :: ts) => connective c (t.normal :: normals ts)
  | binary op l r => binary op l.normal r.normal
  | ite c t e => ite c.normal t.normal e.normal
  | store array index value => store array.normal index.normal value.normal
  | quantified q vars body => quantified q (vars.map normalBinder) body.normal
  | app symbol [] => const symbol
  | app symbol (t :: ts) => app symbol (t.normal :: normals ts)
termination_by structural t => t

/-- The terms in the spellings that their printed forms have, in order. -/
def normals : List Term → List Term
  | [] => []
  | t :: ts => t.normal :: normals ts
termination_by structural ts => ts

end

theorem normals_eq_map (ts : List Term) : normals ts = ts.map normal := by
  induction ts with
  | nil => rfl
  | cons t ts ih => rw [normals, ih, List.map_cons]

theorem normal_connective {ts : List Term} (c : Connective) (nonempty : ts ≠ []) :
    (connective c ts).normal = connective c (normals ts) := by
  cases ts with
  | nil => exact absurd rfl nonempty
  | cons t ts => rfl

theorem normal_app {ts : List Term} (symbol : String) (nonempty : ts ≠ []) :
    (app symbol ts).normal = app symbol (normals ts) := by
  cases ts with
  | nil => exact absurd rfl nonempty
  | cons t ts => rfl

theorem normals_append_congr {t t' : Term} (front behind : List Term)
    (same : t.normal = t'.normal) :
    normals (front ++ t :: behind) = normals (front ++ t' :: behind) := by
  simp only [normals_eq_map, List.map_append, List.map_cons, same]

variable {t u : Term}

theorem Alike.normal_eq (h : t.Alike u) : t.normal = u.normal := by
  induction h with
  | refl t => rfl
  | symm _ ih => exact ih.symm
  | trans _ _ ih ih' => exact ih.trans ih'
  | bare | emptyAnd | emptyOr => rfl
  | congruent same => rw [normal, normal, same]
  | bound q front x behind body sorts =>
      simp only [normal, List.map_append, List.map_cons, normalBinder, sorts.normal_eq]
  | not _ ih => rw [normal, normal, ih]
  | connective c front behind _ ih =>
      rw [normal_connective c (by simp), normal_connective c (by simp),
        normals_append_congr front behind ih]
  | binary op _ _ ih ih' => rw [normal, normal, ih, ih']
  | ite _ _ _ ih ih' ih'' => rw [normal, normal, ih, ih', ih'']
  | store _ _ _ ih ih' ih'' => rw [normal, normal, ih, ih', ih'']
  | quantified q vars _ ih => rw [normal, normal, ih]
  | app symbol front behind _ ih =>
      rw [normal_app symbol (by simp), normal_app symbol (by simp),
        normals_append_congr front behind ih]

/-- The sorts of bound variables may be made normal all at once. -/
theorem alike_normalBinders (q : Quantifier) (body : Term) (front vars : List (String × SmtSort)) :
    (quantified q (front ++ vars) body).Alike
      (quantified q (front ++ vars.map normalBinder) body) := by
  induction vars generalizing front with
  | nil => exact .refl _
  | cons x vars ih =>
      have here := Alike.bound q front x.1 vars body (SmtSort.alike_normal x.2)
      have there := ih (front ++ [normalBinder x])
      rw [List.append_assoc, List.append_assoc] at there
      exact here.trans there

/-- If one term of a list may be made normal, then all of them may. -/
theorem alike_normals (former : List Term → Term) {ts : List Term}
    (one : ∀ {t t' : Term} (front behind : List Term),
      t.Alike t' → (former (front ++ t :: behind)).Alike (former (front ++ t' :: behind)))
    (each : ∀ t ∈ ts, t.Alike t.normal) (front : List Term) :
    (former (front ++ ts)).Alike (former (front ++ ts.map normal)) := by
  induction ts generalizing front with
  | nil => exact .refl _
  | cons t ts ih =>
      obtain ⟨first, rest⟩ := List.forall_mem_cons.mp each
      have here := one front ts first
      have there := ih rest (front ++ [t.normal])
      rw [List.append_assoc, List.append_assoc] at there
      exact here.trans there

mutual

theorem alike_normal : ∀ t : Term, t.Alike t.normal
  | bool _ => .refl _
  | int _ => .refl _
  | bitVec _ _ => .congruent (Int.emod_emod _ _).symm
  | const _ => .refl _
  | not t => .not (alike_normal t)
  | connective .and [] => .emptyAnd
  | connective .or [] => .emptyOr
  | connective c (t :: ts) => by
      have all := alike_normals (.connective c) (.connective c) (mem_alike_normal (t :: ts)) []
      rwa [← normals_eq_map] at all
  | binary op l r => .binary op (alike_normal l) (alike_normal r)
  | ite c t e => .ite (alike_normal c) (alike_normal t) (alike_normal e)
  | store a i v => .store (alike_normal a) (alike_normal i) (alike_normal v)
  | quantified q vars body =>
      (alike_normalBinders q body [] vars).trans (.quantified q _ (alike_normal body))
  | app symbol [] => .bare symbol
  | app symbol (t :: ts) => by
      have all := alike_normals (.app symbol) (.app symbol) (mem_alike_normal (t :: ts)) []
      rwa [← normals_eq_map] at all

theorem mem_alike_normal : ∀ ts : List Term, ∀ t ∈ ts, t.Alike t.normal
  | [] => List.forall_mem_nil _
  | t :: ts => List.forall_mem_cons.mpr ⟨alike_normal t, mem_alike_normal ts⟩

end

/-- Terms are alike when their normal terms are equal. -/
theorem alike_iff : t.Alike u ↔ t.normal = u.normal := by
  constructor
  · exact Alike.normal_eq
  · intro same
    have between : t.normal.Alike u.normal := same ▸ .refl t.normal
    exact (alike_normal t).trans (between.trans (alike_normal u).symm)

end Term

end Hornbook
