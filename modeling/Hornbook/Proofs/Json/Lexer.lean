import Hornbook.Json.Lexer
import Hornbook.Proofs.Lists

/-!
# Printed tokens are read back

The machine that cuts a text into tokens knows that a number is over only when it sees what
comes next.  So the machine can only be said to be `Behind` the tokens of a text, and a text
`Cuts` into the tokens that it leads the machine behind.  White space and punctuation end a
number like everything else.  Texts are therefore joined by a mark between them (`Cuts.mark`)
and padded with white space (`Cuts.blank_append`, `Cuts.append_blank`).

The case with some content is that of strings.  Every character is escaped to something that
stands for one code unit, and the unit is the number of the character (`foldlM_encodeChar`).  No
character has the number of half a surrogate pair, so the units are read as the characters that
they came from (`Quoted.decode_map_toNat`).
-/

namespace Hornbook.Json

/-! ## Code units -/

namespace Quoted

theorem not_isHigh_toNat (c : Char) : isHigh c.toNat = false := by
  have valid : c.toNat < 0xD800 ∨ 0xDFFF < c.toNat ∧ c.toNat < 0x110000 := c.valid
  simp only [isHigh, Bool.and_eq_false_iff, decide_eq_false_iff_not]
  omega

theorem not_isLow_toNat (c : Char) : isLow c.toNat = false := by
  have valid : c.toNat < 0xD800 ∨ 0xDFFF < c.toNat ∧ c.toNat < 0x110000 := c.valid
  simp only [isLow, Bool.and_eq_false_iff, decide_eq_false_iff_not]
  omega

/-- The numbers of characters are read as these characters. -/
theorem decode_map_toNat (cs : List Char) : decode (cs.map Char.toNat) = some cs := by
  induction cs with
  | nil => rfl
  | cons c cs ih =>
      rw [List.map_cons, decode.eq_def]
      simp [not_isHigh_toNat, not_isLow_toNat, ih]

theorem escaped?_of_mem_letters : ∀ l ∈ letters, l.1 ≠ 'u' ∧ escaped? l.1 = some l.2 := by decide

end Quoted

namespace Lexer

open Quoted

variable {tokens : List Token} {units : List Nat} {c : Char} {cs : List Char}

/-! ## Strings -/

/-- A character is read as one code unit, escaped or not. -/
theorem foldlM_encodeChar (c : Char) (units : List Nat) (tokens : List Token) :
    (encodeChar c).foldlM step ⟨.string units, tokens⟩
      = some ⟨.string (c.toNat :: units), tokens⟩ := by
  unfold encodeChar
  cases found : letters.find? fun l => l.2 = c with
  | some l =>
      obtain ⟨notU, reads⟩ := escaped?_of_mem_letters l (List.mem_of_find?_eq_some found)
      have stands : l.2 = c := by simpa using List.find?_some found
      simp [step, notU, reads, stands]
  | none =>
      have plain : ∀ l ∈ letters, l.2 ≠ c := by simpa using found
      have notQuote : c ≠ '"' := (plain ('"', '"') (by simp [letters])).symm
      have notBackslash : c ≠ '\\' := (plain ('\\', '\\') (by simp [letters])).symm
      dsimp only
      split
      next control =>
        have high := hexValue?_hexDigit (c.toNat / 16) (by omega)
        have low := hexValue?_hexDigit (c.toNat % 16) (by omega)
        have zero : hexValue? '0' = some 0 := by decide
        have whole : 16 * (c.toNat / 16) + c.toNat % 16 = c.toNat := Nat.div_add_mod ..
        simp [step, zero, high, low, whole]
      next other =>
        simp [step, notQuote, notBackslash, Nat.le_of_not_lt other]

theorem foldlM_flatMap_encodeChar (cs : List Char) (units : List Nat) (tokens : List Token) :
    (cs.flatMap encodeChar).foldlM step ⟨.string units, tokens⟩
      = some ⟨.string ((cs.map Char.toNat).reverse ++ units), tokens⟩ := by
  induction cs generalizing units with
  | nil => rfl
  | cons c cs ih => simp [foldlM_encodeChar, ih]

/-- A quoted text is one token. -/
theorem foldlM_encode (cs : List Char) (tokens : List Token) :
    (encode cs).foldlM step ⟨.nothing, tokens⟩ = some (emit tokens (.string (some cs))) := by
  have opened : step ⟨.nothing, tokens⟩ '"' = some ⟨.string [], tokens⟩ := rfl
  have closed (units : List Nat) :
      step ⟨.string units, tokens⟩ '"' = some (emit tokens (stringToken units)) := by simp [step]
  simp [encode, opened, closed, foldlM_flatMap_encodeChar, stringToken, decode_map_toNat]

/-! ## Behind a token -/

/-- The machine after a text that is complete up to the end of its last token. -/
inductive Behind : Lexer → List Token → Prop where
  | settled (tokens : List Token) : Behind ⟨.nothing, tokens⟩ tokens
  /-- More digits could follow. -/
  | number {phase : NumberPhase} {read : List Char} {tokens : List Token} :
      phase.complete = true → Behind ⟨.number phase read, tokens⟩ (.number read.reverse :: tokens)

/-- The characters that end a number: white space and punctuation. -/
def separators : List Char := [' ', '\n', '\t', '\r', '[', ']', '\x7b', '\x7d', ',', ':']

theorem next?_of_mem_separators (phase : NumberPhase) : ∀ c ∈ separators, phase.next? c = none := by
  cases phase <;> simp [separators, NumberPhase.next?, NumberPhase.afterWhole?]

theorem mem_separators_of_isSpace (blank : isSpace c = true) : c ∈ separators := by
  simp only [isSpace, Bool.or_eq_true, decide_eq_true_eq] at blank
  rcases blank with ((rfl | rfl) | rfl) | rfl <;> simp [separators]

variable {l : Lexer} {ws : List Char} {token : Token}

/-- Behind a token, a separator is read as if nothing were open. -/
theorem Behind.step_separator (h : l.Behind tokens) (separates : c ∈ separators) :
    l.step c = begin tokens c := by
  cases h with
  | settled => rfl
  | number complete => simp [step, next?_of_mem_separators _ c separates, complete]

/-- White space makes no token. -/
theorem foldlM_blank (blank : ∀ c ∈ ws, isSpace c = true) :
    ws.foldlM step ⟨.nothing, tokens⟩ = some ⟨.nothing, tokens⟩ := by
  induction ws with
  | nil => rfl
  | cons c ws ih =>
      obtain ⟨first, rest⟩ := List.forall_mem_cons.mp blank
      have passed : step ⟨.nothing, tokens⟩ c = some ⟨.nothing, tokens⟩ := by
        simp [step, begin, first]
      simp [passed, ih rest]

theorem Behind.foldlM_blank (h : l.Behind tokens) (blank : ∀ c ∈ ws, isSpace c = true) :
    ∃ l', ws.foldlM step l = some l' ∧ l'.Behind tokens := by
  cases ws with
  | nil => exact ⟨l, rfl, h⟩
  | cons c ws =>
      obtain ⟨first, rest⟩ := List.forall_mem_cons.mp blank
      have passed : l.step c = some ⟨.nothing, tokens⟩ := by
        rw [h.step_separator (mem_separators_of_isSpace first)]
        simp [begin, first]
      refine ⟨⟨.nothing, tokens⟩, ?_, .settled tokens⟩
      simp [passed, Lexer.foldlM_blank rest]

/-- A character is a token of its own and ends the token in front of it. -/
structure IsMark (c : Char) (token : Token) : Prop where
  separates : c ∈ separators
  begins : ∀ tokens, begin tokens c = some (emit tokens token)

theorem isMark_openArray : IsMark '[' .openArray := ⟨by simp [separators], fun _ => rfl⟩

theorem isMark_closeArray : IsMark ']' .closeArray := ⟨by simp [separators], fun _ => rfl⟩

theorem isMark_openObject : IsMark '\x7b' .openObject := ⟨by simp [separators], fun _ => rfl⟩

theorem isMark_closeObject : IsMark '\x7d' .closeObject := ⟨by simp [separators], fun _ => rfl⟩

theorem isMark_comma : IsMark ',' .comma := ⟨by simp [separators], fun _ => rfl⟩

theorem isMark_colon : IsMark ':' .colon := ⟨by simp [separators], fun _ => rfl⟩

theorem Behind.step_mark (h : l.Behind tokens) (mark : IsMark c token) :
    l.step c = some ⟨.nothing, token :: tokens⟩ := by
  rw [h.step_separator mark.separates, mark.begins]
  rfl

theorem Behind.finish (h : l.Behind tokens) : l.finish = some tokens.reverse := by
  cases h with
  | settled => rfl
  | number complete => simp [Lexer.finish, complete]

/-! ## The tokens of a text -/

/-- A text has these tokens, whatever other tokens are there before it. -/
def Cuts (cs : List Char) (ts : List Token) : Prop :=
  ∀ tokens, ∃ l, cs.foldlM step ⟨.nothing, tokens⟩ = some l ∧ l.Behind (ts.reverse ++ tokens)

variable {xs ys : List Char} {ts us : List Token}

theorem cuts_of_foldlM_eq
    (h : ∀ tokens, cs.foldlM step ⟨.nothing, tokens⟩ = some (emit tokens token)) :
    Cuts cs [token] :=
  fun tokens => ⟨_, h tokens, .settled _⟩

theorem cuts_nil : Cuts [] [] := fun tokens => ⟨_, rfl, .settled tokens⟩

theorem cuts_encode (cs : List Char) : Cuts (encode cs) [.string (some cs)] :=
  cuts_of_foldlM_eq (foldlM_encode cs)

theorem Cuts.blank_append (h : Cuts xs ts) (blank : ∀ c ∈ ws, isSpace c = true) :
    Cuts (ws ++ xs) ts := by
  intro tokens
  obtain ⟨l, passed, behind⟩ := h tokens
  exact ⟨l, by simp [foldlM_blank blank, passed], behind⟩

theorem Cuts.append_blank (h : Cuts xs ts) (blank : ∀ c ∈ ws, isSpace c = true) :
    Cuts (xs ++ ws) ts := by
  intro tokens
  obtain ⟨l, passed, behind⟩ := h tokens
  obtain ⟨l', passed', behind'⟩ := behind.foldlM_blank blank
  exact ⟨l', by simp [passed, passed'], behind'⟩

/-- A mark stands between any two texts. -/
theorem Cuts.mark (h : Cuts xs ts) (mark : IsMark c token) (h' : Cuts ys us) :
    Cuts (xs ++ c :: ys) (ts ++ token :: us) := by
  intro tokens
  obtain ⟨l, passed, behind⟩ := h tokens
  obtain ⟨l', passed', behind'⟩ := h' (token :: (ts.reverse ++ tokens))
  refine ⟨l', ?_, by simpa using behind'⟩
  simp [passed, behind.step_mark mark, passed']

theorem Cuts.tokens?_eq (h : Cuts cs ts) : tokens? cs = some ts := by
  obtain ⟨l, passed, behind⟩ := h []
  simp [tokens?, start, passed, behind.finish]

end Lexer

/-! ## Numbers -/

/-- The phase that a number is in behind its first characters. -/
def NumberPhase.ofChars? : List Char → Option NumberPhase
  | [] => none
  | c :: cs => first? c >>= fun phase => cs.foldlM next? phase

/-- The literal of a number. -/
def IsNumber (cs : List Char) : Prop :=
  ∃ phase, NumberPhase.ofChars? cs = some phase ∧ phase.complete = true

namespace Lexer

variable {tokens : List Token} {c : Char} {cs read : List Char} {phase phase' : NumberPhase}

theorem first?_eq_none : ∀ c ∈ separators ++ ['"', 'n', 't', 'f'], NumberPhase.first? c = none := by
  simp [separators, NumberPhase.first?]

/-- What begins a number begins nothing else. -/
theorem begin_of_first? (first : NumberPhase.first? c = some phase) :
    begin tokens c = some ⟨.number phase [c], tokens⟩ := by
  have other : c ∉ separators ++ ['"', 'n', 't', 'f'] := by
    intro mem
    rw [first?_eq_none c mem] at first
    cases first
  simp only [separators, List.cons_append, List.nil_append, List.mem_cons, List.not_mem_nil,
    or_false, not_or] at other
  have noMark : punctuation? c = none := by
    simp [punctuation?, List.lookup_eq_none_iff, other]
  have noWord : word? c = none := by simp [word?, List.lookup_eq_none_iff, other]
  simp [begin, isSpace, other, noMark, noWord, first]

theorem foldlM_next? (h : cs.foldlM NumberPhase.next? phase = some phase') :
    cs.foldlM step ⟨.number phase read, tokens⟩
      = some ⟨.number phase' (cs.reverse ++ read), tokens⟩ := by
  induction cs generalizing phase read with
  | nil =>
      cases h
      rfl
  | cons c cs ih =>
      obtain ⟨next, advanced, rest⟩ := foldlM_cons_eq_some_iff.mp h
      simp [step, advanced, ih rest]

theorem cuts_number (h : IsNumber cs) : Cuts cs [.number cs] := by
  obtain ⟨phase, whole, complete⟩ := h
  intro tokens
  cases cs with
  | nil => cases whole
  | cons c cs =>
      obtain ⟨start, first, rest⟩ := Option.bind_eq_some_iff.mp whole
      have begun : step ⟨.nothing, tokens⟩ c = some ⟨.number start [c], tokens⟩ :=
        begin_of_first? first
      refine ⟨⟨.number phase (cs.reverse ++ [c]), tokens⟩, ?_, ?_⟩
      · simp [begun, foldlM_next? rest]
      · have behind : Behind ⟨.number phase (cs.reverse ++ [c]), tokens⟩
            (.number (cs.reverse ++ [c]).reverse :: tokens) := .number complete
        simpa using behind

end Lexer

end Hornbook.Json
