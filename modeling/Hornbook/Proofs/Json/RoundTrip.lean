import Hornbook.Json.Printer
import Hornbook.Json.Reader
import Hornbook.Proofs.Json.Lexer

/-!
# Printed values are read back

Between a value and its text stand the value's tokens.  The printer's text cuts into them in
every layout of white space (`WellFormed.cuts_print`), because a comma, a colon or a bracket
stands between any two parts.  The reader's machine takes the tokens back to the value, inside
whatever arrays and objects are open (`foldlM_tokens`).  So printing is undone by reading
(`WellFormed.ofText?_text`).

Only a number can be ill-formed: its literal is any list of characters.
-/

namespace Hornbook.Json

mutual

/-- The tokens of a value. -/
def tokens : Json → List Token
  | null => [.null]
  | bool value => [.bool value]
  | number literal => [.number literal]
  | string text => [.string text]
  | array [] => [.openArray, .closeArray]
  | array (e :: es) => .openArray :: (e.tokens ++ elementTokens es ++ [.closeArray])
  | object [] => [.openObject, .closeObject]
  | object ((name, value) :: ms) =>
      .openObject :: .string name :: .colon
        :: (value.tokens ++ memberTokens ms ++ [.closeObject])
termination_by structural j => j

/-- The tokens of the elements behind the first. -/
def elementTokens : List Json → List Token
  | [] => []
  | e :: es => .comma :: (e.tokens ++ elementTokens es)
termination_by structural es => es

/-- The tokens of the members behind the first. -/
def memberTokens : List (Option (List Char) × Json) → List Token
  | [] => []
  | (name, value) :: ms =>
      .comma :: .string name :: .colon :: (value.tokens ++ memberTokens ms)
termination_by structural ms => ms

end

/-! ## From the tokens to the value -/

section Reading

/-- No value begins with a closing bracket, so the first element of an array is read like any
other value. -/
theorem foldlM_tokens_arrayStart (j : Json) (outer : List Frame) (ts : List Token) :
    (j.tokens ++ ts).foldlM Reader.step (.arrayStart outer)
      = (j.tokens ++ ts).foldlM Reader.step (.value (.array [] :: outer)) := by
  cases j with
  | null | bool | number | string => rfl
  | array es => cases es <;> rfl
  | object ms => cases ms <;> rfl

mutual

/-- The tokens of a value are read as the value, whatever is open around it. -/
theorem foldlM_tokens (outer : List Frame) :
    (j : Json) → j.tokens.foldlM Reader.step (.value outer) = some (.after j outer)
  | null | bool _ | number _ | string _ | array [] | object [] => rfl
  | array (e :: es) => by
      have opened : Reader.step (.value outer) .openArray = some (.arrayStart outer) := rfl
      rw [tokens, List.foldlM_cons, opened, Option.bind_eq_bind, Option.bind_some,
        List.append_assoc, foldlM_tokens_arrayStart, List.foldlM_append, foldlM_tokens]
      exact foldlM_elementTokens outer [] e es
  | object ((name, value) :: ms) => by
      have named : [Token.openObject, .string name, .colon].foldlM Reader.step (.value outer)
          = some (.value (.object [] name :: outer)) := rfl
      have split : (object ((name, value) :: ms)).tokens
          = [.openObject, .string name, .colon]
            ++ (value.tokens ++ (memberTokens ms ++ [.closeObject])) := by simp [tokens]
      rw [split, List.foldlM_append, named, Option.bind_eq_bind, Option.bind_some,
        List.foldlM_append, foldlM_tokens]
      exact foldlM_memberTokens outer [] name value ms

/-- The elements behind one that is complete, up to the end of their array. -/
theorem foldlM_elementTokens (outer : List Frame) (before : List Json) (e : Json) :
    (es : List Json) →
      (elementTokens es ++ [Token.closeArray]).foldlM Reader.step (.after e (.array before :: outer))
        = some (.after (.array (before.reverse ++ e :: es)) outer)
  | [] => by simp [elementTokens, Reader.step]
  | e' :: es => by
      have passed : Reader.step (.after e (.array before :: outer)) .comma
          = some (.value (.array (e :: before) :: outer)) := rfl
      rw [elementTokens, List.cons_append, List.foldlM_cons, passed, Option.bind_eq_bind,
        Option.bind_some, List.append_assoc, List.foldlM_append, foldlM_tokens]
      simpa using foldlM_elementTokens outer (e :: before) e' es

/-- The members behind one that is complete, up to the end of their object. -/
theorem foldlM_memberTokens (outer : List Frame) (before : List (Option (List Char) × Json))
    (name : Option (List Char)) (value : Json) :
    (ms : List (Option (List Char) × Json)) →
      (memberTokens ms ++ [Token.closeObject]).foldlM Reader.step
          (.after value (.object before name :: outer))
        = some (.after (.object (before.reverse ++ (name, value) :: ms)) outer)
  | [] => by simp [memberTokens, Reader.step]
  | (name', value') :: ms => by
      have named : [Token.comma, .string name', .colon].foldlM Reader.step
          (.after value (.object before name :: outer))
          = some (.value (.object ((name, value) :: before) name' :: outer)) := rfl
      have split : memberTokens ((name', value') :: ms) ++ [.closeObject]
          = [.comma, .string name', .colon]
            ++ (value'.tokens ++ (memberTokens ms ++ [.closeObject])) := by simp [memberTokens]
      rw [split, List.foldlM_append, named, Option.bind_eq_bind, Option.bind_some,
        List.foldlM_append, foldlM_tokens]
      simpa using foldlM_memberTokens outer ((name, value) :: before) name' value' ms

end

theorem value?_tokens (j : Json) : Reader.value? j.tokens = some j := by
  simp [Reader.value?, Reader.start, foldlM_tokens, Reader.finish]

end Reading

/-! ## From the value to the tokens -/

/-- Every number in a value is the literal of one. -/
inductive WellFormed : Json → Prop where
  | null : WellFormed null
  | bool (value : Bool) : WellFormed (bool value)
  | number {literal : List Char} : IsNumber literal → WellFormed (number literal)
  | string (text : Option (List Char)) : WellFormed (string text)
  | array {es : List Json} : (∀ e ∈ es, WellFormed e) → WellFormed (array es)
  | object {ms : List (Option (List Char) × Json)} :
      (∀ m ∈ ms, WellFormed m.2) → WellFormed (object ms)

namespace WellFormed

theorem object_nil : (Json.object []).WellFormed := .object nofun

theorem object_cons {name : Option (List Char)} {value : Json}
    {ms : List (Option (List Char) × Json)} (first : value.WellFormed)
    (rest : (Json.object ms).WellFormed) : (Json.object ((name, value) :: ms)).WellFormed := by
  cases rest with
  | object members => exact .object (List.forall_mem_cons.mpr ⟨first, members⟩)

theorem array_map {α : Type} {write : α → Json} (elements : ∀ a, (write a).WellFormed)
    (as : List α) : (Json.array (as.map write)).WellFormed :=
  .array (List.forall_mem_map.mpr fun a _ => elements a)

end WellFormed

/-- A layout puts nothing but white space between tokens. -/
structure Layout.Blank (l : Layout) : Prop where
  lineBreak : ∀ depth, ∀ c ∈ l.lineBreak depth, Lexer.isSpace c = true
  afterColon : ∀ c ∈ l.afterColon, Lexer.isSpace c = true

theorem Layout.blank_compact : compact.Blank := ⟨by simp [compact], by simp [compact]⟩

theorem Layout.blank_indented : indented.Blank := by
  refine ⟨fun depth => ?_, ?_⟩ <;> simp [indented, Lexer.isSpace]

section Printing

open Lexer

variable {l : Layout} {cs : List Char} {ts : List Token} {es : List Json}
  {ms : List (Option (List Char) × Json)}

theorem cuts_printString (text : Option (List Char)) : Cuts (printString text) [.string text] := by
  cases text with
  | some cs => exact cuts_encode cs
  | none =>
      have unreadable : stringToken [0xD800] = .string none := by decide
      have token : Cuts (printString none) [stringToken [0xD800]] := cuts_of_foldlM_eq fun _ => rfl
      rwa [unreadable] at token

/-- A text with the elements behind the first after it. -/
theorem Lexer.Cuts.append_printElements (blank : l.Blank) (depth : Nat)
    (elements : ∀ e ∈ es, Cuts (print l depth e) e.tokens) (h : Cuts cs ts) :
    Cuts (cs ++ printElements l depth es) (ts ++ elementTokens es) := by
  induction es generalizing cs ts with
  | nil => simpa [printElements, elementTokens] using h
  | cons e es ih =>
      obtain ⟨first, rest⟩ := List.forall_mem_cons.mp elements
      have next := h.mark isMark_comma (first.blank_append (blank.lineBreak depth))
      simpa [printElements, elementTokens] using ih rest next

/-- A member on a line of its own, up to the end of its value. -/
theorem Lexer.Cuts.member (blank : l.Blank) (depth : Nat) (name : Option (List Char))
    (h : Cuts cs ts) :
    Cuts (l.lineBreak depth ++ printString name ++ ':' :: l.afterColon ++ cs)
      (.string name :: .colon :: ts) := by
  have named := (cuts_printString name).blank_append (blank.lineBreak depth)
  simpa using named.mark isMark_colon (h.blank_append blank.afterColon)

/-- A text with the members behind the first after it. -/
theorem Lexer.Cuts.append_printMembers (blank : l.Blank) (depth : Nat)
    (members : ∀ m ∈ ms, Cuts (print l depth m.2) m.2.tokens) (h : Cuts cs ts) :
    Cuts (cs ++ printMembers l depth ms) (ts ++ memberTokens ms) := by
  induction ms generalizing cs ts with
  | nil => simpa [printMembers, memberTokens] using h
  | cons m ms ih =>
      obtain ⟨first, rest⟩ := List.forall_mem_cons.mp members
      have next := h.mark isMark_comma (first.member blank depth m.1)
      simpa [printMembers, memberTokens] using ih rest next

/-- A text between brackets. -/
theorem Lexer.Cuts.between {c d : Char} {opening closing : Token} {ws : List Char}
    (h : Cuts cs ts) (opens : IsMark c opening) (closes : IsMark d closing)
    (blank : ∀ c ∈ ws, isSpace c = true) :
    Cuts (c :: (cs ++ ws ++ [d])) (opening :: (ts ++ [closing])) :=
  cuts_nil.mark opens ((h.append_blank blank).mark closes cuts_nil)

/-- A printed value has the tokens of the value. -/
theorem WellFormed.cuts_print {j : Json} (h : j.WellFormed) (blank : l.Blank) (depth : Nat) :
    Cuts (print l depth j) j.tokens := by
  induction h generalizing depth with
  | null => exact cuts_of_foldlM_eq fun _ => rfl
  | bool value => cases value <;> exact cuts_of_foldlM_eq fun _ => rfl
  | number literal => exact cuts_number literal
  | string text => exact cuts_printString text
  | @array es _ ih =>
      cases es with
      | nil => exact cuts_nil.mark isMark_openArray (cuts_nil.mark isMark_closeArray cuts_nil)
      | cons e es =>
          obtain ⟨first, rest⟩ := List.forall_mem_cons.mp ih
          have head := (first (depth + 1)).blank_append (blank.lineBreak (depth + 1))
          have elements := head.append_printElements blank (depth + 1)
            fun e' mem => rest e' mem (depth + 1)
          exact elements.between isMark_openArray isMark_closeArray (blank.lineBreak depth)
  | @object ms _ ih =>
      cases ms with
      | nil => exact cuts_nil.mark isMark_openObject (cuts_nil.mark isMark_closeObject cuts_nil)
      | cons m ms =>
          obtain ⟨first, rest⟩ := List.forall_mem_cons.mp ih
          have head := (first (depth + 1)).member blank (depth + 1) m.1
          have members := head.append_printMembers blank (depth + 1)
            fun m' mem => rest m' mem (depth + 1)
          exact members.between isMark_openObject isMark_closeObject (blank.lineBreak depth)

end Printing

/-- A value is read back from its text, in every layout of white space. -/
theorem WellFormed.ofText?_text {j : Json} (h : j.WellFormed) {l : Layout} (blank : l.Blank) :
    ofText? (j.text l) = some j := by
  simp [ofText?, text, ofChars?, (h.cuts_print blank 0).tokens?_eq, value?_tokens]

end Hornbook.Json
