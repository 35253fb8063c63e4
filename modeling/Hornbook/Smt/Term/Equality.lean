import Hornbook.Smt.Term

/-!
# Equality of terms

Terms nest through lists, so their equality is decided by a pair of functions, one on
terms and one on lists of terms.  `Term.same_iff` says that the test is equality.
Nothing is identified: an empty conjunction and the literal `true` differ, although
they print alike.
-/

namespace Hornbook.Term

mutual

/-- Whether two terms are built alike. -/
def same : Term → Term → Bool
  | bool a, bool b => a == b
  | int a, int b => a == b
  | bitVec a m, bitVec b n => a == b && m == n
  | const x, const y => x == y
  | not a, not b => a.same b
  | connective c ts, connective d us => c == d && sames ts us
  | binary o a₁ a₂, binary p b₁ b₂ => o == p && a₁.same b₁ && a₂.same b₂
  | ite a₁ a₂ a₃, ite b₁ b₂ b₃ => a₁.same b₁ && a₂.same b₂ && a₃.same b₃
  | store a₁ a₂ a₃, store b₁ b₂ b₃ => a₁.same b₁ && a₂.same b₂ && a₃.same b₃
  | quantified q vs a, quantified r ws b => q == r && vs == ws && a.same b
  | app f ts, app g us => f == g && sames ts us
  | _, _ => false
termination_by structural t => t

/-- Whether two lists of terms are built alike. -/
def sames : List Term → List Term → Bool
  | [], [] => true
  | t :: ts, u :: us => t.same u && sames ts us
  | _, _ => false
termination_by structural ts => ts

end

mutual

theorem same_iff : ∀ t u : Term, t.same u = true ↔ t = u
  | bool _, u => by cases u <;> simp [same]
  | int _, u => by cases u <;> simp [same]
  | bitVec _ _, u => by cases u <;> simp [same]
  | const _, u => by cases u <;> simp [same]
  | not a, u => by cases u <;> simp [same, same_iff a]
  | connective _ ts, u => by cases u <;> simp [same, sames_iff ts]
  | binary _ a b, u => by cases u <;> simp [same, same_iff a, same_iff b, and_assoc]
  | ite a b c, u => by cases u <;> simp [same, same_iff a, same_iff b, same_iff c, and_assoc]
  | store a b c, u => by cases u <;> simp [same, same_iff a, same_iff b, same_iff c, and_assoc]
  | quantified _ _ a, u => by cases u <;> simp [same, same_iff a, and_assoc]
  | app _ ts, u => by cases u <;> simp [same, sames_iff ts]

theorem sames_iff : ∀ ts us : List Term, sames ts us = true ↔ ts = us
  | [], us => by cases us <;> simp [sames]
  | t :: ts, us => by cases us <;> simp [sames, same_iff t, sames_iff ts]

end

instance : DecidableEq Term := fun t u => decidable_of_iff _ (same_iff t u)

example : (connective .and [] : Term) ≠ bool true := by decide

end Hornbook.Term
