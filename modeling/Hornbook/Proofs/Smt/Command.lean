import Hornbook.Smt.Script.Reader
import Hornbook.Proofs.Lists
import Hornbook.Proofs.Smt.ReadBack

/-!
# Printed commands are read back

Every command but a comment is one expression (`Command.items?`), so it stands on one line and
is read back by its head.  A comment stands on one line if its text does.  It is no expression
and declares nothing, whatever its text looks like.

Commands that differ at most in the spelling of their sorts and terms are `Command.Alike`.
The text of a legible command tells it apart from every command that is not
(`Command.Legible.text_eq_iff`).
-/

namespace Hornbook

/-! ## Alike commands -/

namespace Signature

/-- Signatures whose sorts are alike, one by one. -/
structure Alike (f g : Signature) : Prop where
  domain : List.Forall₂ SmtSort.Alike f.domain g.domain
  codomain : f.codomain.Alike g.codomain

/-- The signature with every name taken for the name of a datatype. -/
def normal (f : Signature) : Signature := ⟨f.domain.map SmtSort.normal, f.codomain.normal⟩

theorem alike_iff {f g : Signature} : f.Alike g ↔ f.normal = g.normal := by
  have domains := forall₂_iff_map_eq (f := SmtSort.normal) (fun _ _ => SmtSort.alike_iff)
    f.domain g.domain
  constructor
  · intro alike
    rw [normal, normal, domains.mp alike.domain, SmtSort.alike_iff.mp alike.codomain]
  · intro same
    obtain ⟨domain, codomain⟩ := Signature.mk.inj same
    exact ⟨domains.mpr domain, SmtSort.alike_iff.mpr codomain⟩

theorem toSexps_normal (f : Signature) : f.normal.toSexps = f.toSexps := by
  simp [toSexps, normal, SmtSort.toSexp_normal, Function.comp_def]

end Signature

namespace Command

/-- Commands that differ at most in the spelling of their sorts and terms. -/
inductive Alike : Command → Command → Prop where
  | refl (c : Command) : Alike c c
  | declareFun {f g : Signature} (name : String) :
      f.Alike g → Alike (declareFun ⟨name, f⟩) (declareFun ⟨name, g⟩)
  | assert {t u : Term} : t.Alike u → Alike (assert t) (assert u)

/-- The command with its sorts and terms in the spelling that their printed forms have. -/
def normal : Command → Command
  | declareFun symbol => declareFun ⟨symbol.name, symbol.signature.normal⟩
  | assert t => assert t.normal
  | c => c

theorem alike_iff {c d : Command} : c.Alike d ↔ c.normal = d.normal := by
  constructor
  · intro alike
    cases alike with
    | refl => rfl
    | declareFun name signatures => simp [normal, Signature.alike_iff.mp signatures]
    | assert terms => simp [normal, Term.alike_iff.mp terms]
  · intro same
    cases c with
    | declareFun symbol =>
        cases d with
        | declareFun other =>
            obtain ⟨name, signature⟩ := symbol
            obtain ⟨name', signature'⟩ := other
            obtain ⟨rfl, signatures⟩ := FunSymbol.mk.inj (declareFun.inj same)
            exact .declareFun name (Signature.alike_iff.mpr signatures)
        | _ => cases same
    | assert t =>
        cases d with
        | assert u => exact .assert (Term.alike_iff.mpr (assert.inj same))
        | _ => cases same
    | setLogic | setOption | checkSat | getModel | comment | exit =>
        cases d <;> cases same
        exact .refl _

/-! ## Legible commands -/

/-- The words of a command are words, its sorts and terms are legible, and its text is one
line. -/
inductive Legible : Command → Prop where
  | setLogic {logic : String} : Sexp.IsWord logic.toList → Legible (setLogic logic)
  | setOption {key value : String} :
      Sexp.IsWord key.toList → Sexp.IsWord value.toList → Legible (setOption key value)
  | declareFun {symbol : FunSymbol} :
      Sexp.IsWord symbol.name.toList → (∀ s ∈ symbol.signature.domain, s.Legible) →
        symbol.signature.codomain.Legible → Legible (declareFun symbol)
  | assert {t : Term} : t.Legible → Legible (assert t)
  | checkSat : Legible checkSat
  | getModel : Legible getModel
  | comment {text : String} : '\n' ∉ text.toList → Legible (comment text)
  | exit : Legible exit

/-- The expressions that a command is printed as, in parentheses.  A comment has none. -/
def items? : Command → Option (List Sexp)
  | setLogic logic => some [.atom "set-logic", .atom logic]
  | setOption key value => some [.atom "set-option", .atom (":" ++ key), .atom value]
  | declareFun symbol =>
      some (.atom "declare-fun" :: .atom symbol.name :: symbol.signature.toSexps)
  | assert term => some [.atom "assert", term.toSexp]
  | checkSat => some [.atom "check-sat"]
  | getModel => some [.atom "get-model"]
  | comment _ => none
  | exit => some [.atom "exit"]

variable {c d : Command} {items : List Sexp}

theorem chars_of_items? (h : c.items? = some items) : c.chars = (Sexp.list items).chars := by
  cases c <;> cases h <;> rfl

theorem tidy_row {sorts : List SmtSort} (h : ∀ s ∈ sorts, s.Legible) :
    (Sexp.list (sorts.map SmtSort.toSexp)).Tidy :=
  .list (List.forall_mem_map.mpr fun s mem => (h s mem).tidy)

theorem isWord_key {key : String} (h : Sexp.IsWord key.toList) :
    Sexp.IsWord (":" ++ key).toList := by
  rw [String.toList_append]
  exact ⟨List.cons_ne_nil ':' _, List.forall_mem_cons.mpr ⟨rfl, h.2⟩⟩

theorem Legible.tidy (h : c.Legible) (printed : c.items? = some items) :
    (Sexp.list items).Tidy := by
  have word {w : String} (isWord : Sexp.IsWord w.toList) : (Sexp.atom w).Tidy := .atom isWord
  have head {w : String} (simple : isSimpleSymbol w.toList = true) : (Sexp.atom w).Tidy :=
    .atom (isWord_of_isSimpleSymbol simple)
  cases h <;> cases printed
  case setLogic logic => exact .cons (head rfl) (.cons (word logic) .nil)
  case setOption key value =>
    exact .cons (head rfl) (.cons (word (isWord_key key)) (.cons (word value) .nil))
  case declareFun name domain codomain =>
    exact .cons (head rfl) (.cons (word name) (.cons (tidy_row domain) (.cons codomain.tidy .nil)))
  case assert term => exact .cons (head rfl) (.cons term.tidy .nil)
  all_goals exact .cons (head rfl) .nil

theorem text_of_items? (h : c.items? = some items) : c.text = (Sexp.list items).text := by
  rw [text, chars_of_items? h, Sexp.text]

theorem eq_comment_of_items? (h : c.items? = none) : ∃ note, c = comment note := by
  cases c <;> cases h
  exact ⟨_, rfl⟩

theorem toList_text_comment (note : String) :
    (comment note).text.toList = ';' :: ';' :: ' ' :: note.toList := by
  rw [text, String.toList_ofList]
  rfl

theorem chars_ne_nil (c : Command) : c.chars ≠ [] := by
  cases printed : c.items? with
  | some items => simp [chars_of_items? printed]
  | none =>
      obtain ⟨note, rfl⟩ := eq_comment_of_items? printed
      simp [chars]

/-- A legible command stands on one line. -/
theorem Legible.newline_notMem (h : c.Legible) : '\n' ∉ c.chars := by
  cases printed : c.items? with
  | some items =>
      rw [chars_of_items? printed]
      exact (h.tidy printed).newline_notMem
  | none =>
      obtain ⟨note, rfl⟩ := eq_comment_of_items? printed
      cases h with
      | comment line => simpa [chars] using line

/-! ## Reading back -/

theorem ofSexps?_toSexps {f : Signature} (domain : ∀ s ∈ f.domain, s.Legible)
    (codomain : f.codomain.Legible) :
    Signature.ofSexps? (f.domain.map SmtSort.toSexp) f.codomain.toSexp = some f.normal := by
  have read : (f.domain.map SmtSort.toSexp).mapM SmtSort.ofSexp?
      = some (f.domain.map SmtSort.normal) :=
    mapM_map_eq_some fun s mem => (domain s mem).ofSexp?_toSexp
  simp [Signature.ofSexps?, read, codomain.ofSexp?_toSexp, Signature.normal]

/-- The expression of a legible command is read back. -/
theorem Legible.ofSexp?_list (h : c.Legible) (printed : c.items? = some items) :
    ofSexp? (.list items) = some c.normal := by
  cases h <;> cases printed
  case setOption key value _ _ =>
    show option? (":" ++ key) value = some (.setOption key value)
    simp [option?]
  case declareFun symbol _ domain codomain =>
    show (Signature.ofSexps? _ _).map (fun f => Command.declareFun ⟨symbol.name, f⟩) = _
    rw [ofSexps?_toSexps domain codomain]
    rfl
  case assert t legible =>
    show (Term.ofSexp? t.toSexp).map Command.assert = _
    rw [legible.ofSexp?_toSexp]
    rfl
  all_goals rfl

/-- The text of a legible command is read back. -/
theorem Legible.ofLine?_text (h : c.Legible) : ofLine? c.text = some c.normal := by
  cases printed : c.items? with
  | some items =>
      have read := (h.tidy printed).ofText?_text
      rw [text_of_items? printed, ofLine?, read, Sexp.toList_text]
      exact h.ofSexp?_list printed
  | none =>
      obtain ⟨note, rfl⟩ := eq_comment_of_items? printed
      simp [ofLine?, toList_text_comment, normal]

theorem declaredIn?_list (printed : c.items? = some items) :
    declaredIn? (.list items) = c.declared? := by
  cases c <;> cases printed
  case assert t =>
    show declaredIn? (.list [.atom "assert", t.toSexp]) = none
    cases t.toSexp <;> rfl
  all_goals rfl

/-- A line declares what its command does. -/
theorem Legible.declaredName?_text (h : c.Legible) : declaredName? c.text = c.declared? := by
  cases printed : c.items? with
  | some items =>
      rw [declaredName?, text_of_items? printed, (h.tidy printed).ofText?_text]
      exact declaredIn?_list printed
  | none =>
      obtain ⟨note, rfl⟩ := eq_comment_of_items? printed
      cases h with
      | comment line =>
          have nothing : Sexp.ofChars? (';' :: ';' :: ' ' :: note.toList) = some [] :=
            Sexp.ofChars?_comment (by simpa using line)
          simp [declaredName?, Sexp.ofText?, toList_text_comment, nothing, declared?]

/-- A legible command prints what its normal spelling does. -/
theorem Legible.text_normal (h : c.Legible) : c.normal.text = c.text := by
  cases h with
  | declareFun => simp [text, normal, chars, Signature.toSexps_normal]
  | assert legible => simp [text, normal, chars, legible.toSexp_normal]
  | setLogic | setOption | checkSat | getModel | comment | exit => rfl

/-- Legible commands print alike only if they are alike. -/
theorem Legible.text_eq_iff (h : c.Legible) (h' : d.Legible) : c.text = d.text ↔ c.Alike d := by
  rw [alike_iff]
  constructor
  · intro same
    have read : some c.normal = some d.normal := by
      rw [← h.ofLine?_text, ← h'.ofLine?_text, same]
    exact Option.some.inj read
  · intro same
    rw [← h.text_normal, ← h'.text_normal, same]

end Command

end Hornbook
