import Mathlib.Data.List.Chain
import Hornbook.Proofs.Json.Literal

/-!
# Spellings of tokens

A token may be spelled in several ways, and white space may stand around it (`Token.Spelling`,
`Written`).  The machine reads every text as tokens that the text is written in
(`exists_written`).  What carries this is `Reads`: which tokens are complete behind a part of a
text, and which part of a token is open.

Of one text there can be more than one row of tokens, because digits may be cut anywhere.
Where only punctuation follows a number, the machine reads the tokens that were written
(`Written.cuts`).
-/

namespace Hornbook.Json

/-- The ways to write a token. -/
inductive Token.Spelling : Token → List Char → Prop where
  | openArray : Spelling .openArray ['[']
  | closeArray : Spelling .closeArray [']']
  | openObject : Spelling .openObject ['\x7b']
  | closeObject : Spelling .closeObject ['\x7d']
  | comma : Spelling .comma [',']
  | colon : Spelling .colon [':']
  | null : Spelling .null ['n', 'u', 'l', 'l']
  | true : Spelling (.bool true) ['t', 'r', 'u', 'e']
  | false : Spelling (.bool false) ['f', 'a', 'l', 's', 'e']
  | number {cs : List Char} : IsNumeral cs → Spelling (.number cs) cs
  | string {body : List Char} {units : List Nat} {text : Option (List Char)} :
      Quoted.Spells body units → (∀ cs, text = some cs ↔ Quoted.Denotes units cs) →
      Spelling (.string text) ('"' :: (body ++ ['"']))

/-- Nothing but white space. -/
def Blank (cs : List Char) : Prop := ∀ c ∈ cs, Lexer.isSpace c = true

/-- A text that consists of spellings of tokens, with white space anywhere around them. -/
inductive Written : List Token → List Char → Prop where
  | nil {ws : List Char} : Blank ws → Written [] ws
  | cons {t : Token} {ts : List Token} {ws xs cs : List Char} : Blank ws → t.Spelling xs →
      Written ts cs → Written (t :: ts) (ws ++ (xs ++ cs))

variable {t u : Token} {ts us : List Token} {ws xs cs ds : List Char} {c : Char}

theorem Blank.append (h : Blank ws) (h' : Blank cs) : Blank (ws ++ cs) := fun c mem =>
  (List.mem_append.mp mem).elim (h c) (h' c)

theorem blank_nil : Blank [] := List.forall_mem_nil _

namespace Written

theorem blank_append (blank : Blank ws) (h : Written ts cs) : Written ts (ws ++ cs) := by
  cases h with
  | nil more => exact .nil (blank.append more)
  | cons more spelled rest =>
      rw [← List.append_assoc]
      exact .cons (blank.append more) spelled rest

theorem append (h : Written ts cs) (h' : Written us ds) : Written (ts ++ us) (cs ++ ds) := by
  induction h with
  | nil blank => exact h'.blank_append blank
  | cons blank spelled _ ih => simpa using Written.cons blank spelled ih

theorem single (spelled : t.Spelling xs) : Written [t] xs := by
  simpa using Written.cons blank_nil spelled (.nil blank_nil)

theorem concat (h : Written ts cs) (spelled : t.Spelling xs) : Written (ts ++ [t]) (cs ++ xs) :=
  h.append (single spelled)

theorem append_blank (h : Written ts cs) (blank : Blank ws) : Written ts (cs ++ ws) := by
  simpa using h.append (.nil blank)

end Written

/-! ## From the text to the tokens -/

namespace Lexer

variable {base tokens : List Token} {l l' : Lexer}

/-- What the machine has read of a text that it began with tokens `base` complete. -/
inductive Reads (base : List Token) : Lexer → List Char → Prop where
  | nothing {ts : List Token} {cs : List Char} : Written ts cs →
      Reads base ⟨.nothing, ts.reverse ++ base⟩ cs
  | word {ts : List Token} {token : Token} {cs front rest : List Char} : Written ts cs →
      token.Spelling (front ++ rest) →
      Reads base ⟨.word rest token, ts.reverse ++ base⟩ (cs ++ front)
  | number {ts : List Token} {phase : NumberPhase} {cs read : List Char} : Written ts cs →
      NumberPhase.ofChars? read.reverse = some phase →
      Reads base ⟨.number phase read, ts.reverse ++ base⟩ (cs ++ read.reverse)
  | string {ts : List Token} {cs body : List Char} {units : List Nat} : Written ts cs →
      Quoted.Spells body units.reverse →
      Reads base ⟨.string units, ts.reverse ++ base⟩ (cs ++ '"' :: body)
  | escape {ts : List Token} {cs body : List Char} {units : List Nat} : Written ts cs →
      Quoted.Spells body units.reverse →
      Reads base ⟨.escape units, ts.reverse ++ base⟩ (cs ++ '"' :: (body ++ ['\\']))
  | hex {ts : List Token} {cs body digits : List Char} {units : List Nat} {needed value : Nat} :
      Written ts cs → Quoted.Spells body units.reverse → digits.length + needed = 4 → 0 < needed →
      Quoted.hexFrom? 0 digits = some value →
      Reads base ⟨.hex units needed value, ts.reverse ++ base⟩
        (cs ++ '"' :: (body ++ '\\' :: 'u' :: digits))

theorem spelling_of_punctuation? (h : punctuation? c = some t) : t.Spelling [c] := by
  obtain ⟨front, behind, split, -⟩ := List.lookup_eq_some_iff.mp h
  have mem : (c, t) ∈ front ++ (c, t) :: behind := by simp
  rw [← split] at mem
  simp only [List.mem_cons, Prod.mk.injEq, List.not_mem_nil, or_false] at mem
  rcases mem with ⟨rfl, rfl⟩ | ⟨rfl, rfl⟩ | ⟨rfl, rfl⟩ | ⟨rfl, rfl⟩ | ⟨rfl, rfl⟩ | ⟨rfl, rfl⟩
  · exact .openArray
  · exact .closeArray
  · exact .openObject
  · exact .closeObject
  · exact .comma
  · exact .colon

theorem spelling_of_word? {rest : List Char} (h : word? c = some (rest, t)) :
    t.Spelling (c :: rest) := by
  obtain ⟨front, behind, split, -⟩ := List.lookup_eq_some_iff.mp h
  have mem : (c, rest, t) ∈ front ++ (c, rest, t) :: behind := by simp
  rw [← split] at mem
  simp only [List.mem_cons, Prod.mk.injEq, List.not_mem_nil, or_false] at mem
  rcases mem with ⟨rfl, rfl, rfl⟩ | ⟨rfl, rfl, rfl⟩ | ⟨rfl, rfl, rfl⟩
  · exact .null
  · exact .true
  · exact .false

/-- A token ends with the last character. -/
theorem Reads.emit (written : Written ts cs) (spelled : t.Spelling xs) :
    (emit (ts.reverse ++ base) t).Reads base (cs ++ xs) := by
  have complete : Reads base ⟨.nothing, (ts ++ [t]).reverse ++ base⟩ (cs ++ xs) :=
    .nothing (written.concat spelled)
  simpa [Lexer.emit] using complete

theorem Reads.of_begin (written : Written ts cs) (begun : begin (ts.reverse ++ base) c = some l) :
    l.Reads base (cs ++ [c]) := by
  unfold begin at begun
  split at begun
  next space =>
    cases begun
    exact .nothing (written.append_blank (List.forall_mem_singleton.mpr space))
  next =>
    split at begun
    next quote =>
      cases begun
      rw [quote]
      exact .string written .nil
    next =>
      split at begun
      next token mark =>
        cases begun
        exact .emit written (spelling_of_punctuation? mark)
      next =>
        split at begun
        next rest token word =>
          cases begun
          exact .word written (spelling_of_word? word)
        next =>
          obtain ⟨phase, first, rfl⟩ := Option.map_eq_some_iff.mp begun
          have reads : NumberPhase.ofChars? [c].reverse = some phase := by
            simp [NumberPhase.ofChars?, first]
          exact .number written reads

theorem Reads.of_word {front rest : List Char} (written : Written ts cs)
    (spelled : t.Spelling (front ++ rest))
    (stepped : step ⟨.word rest t, ts.reverse ++ base⟩ c = some l) :
    l.Reads base (cs ++ front ++ [c]) := by
  rw [List.append_assoc]
  match rest with
  | [] => cases stepped
  | [d] =>
      obtain ⟨rfl, rfl⟩ : c = d ∧ _ = l := by simpa [step] using stepped
      exact .emit written spelled
  | d :: e :: rest =>
      obtain ⟨rfl, rfl⟩ : c = d ∧ _ = l := by simpa [step] using stepped
      exact .word written (by simpa using spelled)

theorem ofChars?_concat {read : List Char} {phase next : NumberPhase}
    (reads : NumberPhase.ofChars? read = some phase) (advanced : phase.next? c = some next) :
    NumberPhase.ofChars? (read ++ [c]) = some next := by
  cases read with
  | nil => cases reads
  | cons d read =>
      obtain ⟨first, begun, rest⟩ := Option.bind_eq_some_iff.mp reads
      simp [NumberPhase.ofChars?, begun, rest, advanced]

theorem spelling_number {read : List Char} {phase : NumberPhase}
    (reads : NumberPhase.ofChars? read = some phase) (complete : phase.complete = true) :
    (Token.number read).Spelling read :=
  .number (isNumber_iff.mp ⟨phase, reads, complete⟩)

theorem Reads.of_number {read : List Char} {phase : NumberPhase} (written : Written ts cs)
    (reads : NumberPhase.ofChars? read.reverse = some phase)
    (stepped : step ⟨.number phase read, ts.reverse ++ base⟩ c = some l) :
    l.Reads base (cs ++ read.reverse ++ [c]) := by
  simp only [step] at stepped
  split at stepped
  next next advanced =>
    cases stepped
    have longer : NumberPhase.ofChars? (c :: read).reverse = some next := by
      simpa using ofChars?_concat reads advanced
    simpa using Reads.number written longer
  next =>
    split at stepped
    next complete =>
      have ended := written.concat (spelling_number reads complete)
      exact .of_begin ended (by simpa using stepped)
    next => cases stepped

theorem Reads.of_string {body : List Char} {units : List Nat} (written : Written ts cs)
    (spells : Quoted.Spells body units.reverse)
    (stepped : step ⟨.string units, ts.reverse ++ base⟩ c = some l) :
    l.Reads base (cs ++ '"' :: body ++ [c]) := by
  rw [List.append_assoc]
  simp only [step] at stepped
  split at stepped
  next quote =>
    cases stepped
    rw [quote]
    exact .emit written (.string spells fun _ => Quoted.decode_eq_some_iff)
  next quote =>
    split at stepped
    next backslash =>
      cases stepped
      rw [backslash]
      exact .escape written spells
    next backslash =>
      split at stepped
      next => cases stepped
      next visible =>
        cases stepped
        have one : Quoted.Spells [c] [c.toNat] :=
          .plain quote backslash (Nat.le_of_not_lt visible) .nil
        have longer : Quoted.Spells (body ++ [c]) (c.toNat :: units).reverse := by
          simpa using spells.append one
        exact .string written longer

theorem Reads.of_escape {body : List Char} {units : List Nat} (written : Written ts cs)
    (spells : Quoted.Spells body units.reverse)
    (stepped : step ⟨.escape units, ts.reverse ++ base⟩ c = some l) :
    l.Reads base (cs ++ '"' :: (body ++ ['\\']) ++ [c]) := by
  simp only [step] at stepped
  split at stepped
  next isU =>
    cases stepped
    have begun : Reads base ⟨.hex units 4 0, ts.reverse ++ base⟩
        (cs ++ '"' :: (body ++ '\\' :: 'u' :: [])) := .hex written spells rfl (by decide) rfl
    simpa [isU] using begun
  next =>
    obtain ⟨d, escaped, rfl⟩ := Option.map_eq_some_iff.mp stepped
    have one : Quoted.Spells ['\\', c] [d.toNat] := .letter escaped .nil
    have longer : Quoted.Spells (body ++ ['\\', c]) (d.toNat :: units).reverse := by
      simpa using spells.append one
    simpa using Reads.string written longer

theorem Reads.of_hex {body digits : List Char} {units : List Nat} {needed value : Nat}
    (written : Written ts cs) (spells : Quoted.Spells body units.reverse)
    (length : digits.length + needed = 4) (positive : 0 < needed)
    (number : Quoted.hexFrom? 0 digits = some value)
    (stepped : step ⟨.hex units needed value, ts.reverse ++ base⟩ c = some l) :
    l.Reads base (cs ++ '"' :: (body ++ '\\' :: 'u' :: digits) ++ [c]) := by
  obtain ⟨digit, reads, rfl⟩ := Option.map_eq_some_iff.mp stepped
  have longer : Quoted.hexFrom? 0 (digits ++ [c]) = some (16 * value + digit) := by
    rw [Quoted.hexFrom?] at number
    simp [Quoted.hexFrom?, number, reads]
  split
  next last =>
    have one : Quoted.Spells ('\\' :: 'u' :: (digits ++ [c] ++ [])) [16 * value + digit] :=
      .code (by simp; omega) longer .nil
    have whole : Quoted.Spells (body ++ '\\' :: 'u' :: (digits ++ [c]))
        ((16 * value + digit) :: units).reverse := by
      simpa using spells.append one
    simpa using Reads.string written whole
  next more =>
    have begun : Reads base ⟨.hex units (needed - 1) (16 * value + digit), ts.reverse ++ base⟩
        (cs ++ '"' :: (body ++ '\\' :: 'u' :: (digits ++ [c]))) :=
      .hex written spells (by simp; omega) (by omega) longer
    simpa using begun

/-- One character more. -/
theorem Reads.step (h : l.Reads base cs) (stepped : l.step c = some l') :
    l'.Reads base (cs ++ [c]) := by
  cases h with
  | nothing written => exact .of_begin written stepped
  | word written spelled => exact .of_word written spelled stepped
  | number written reads => exact .of_number written reads stepped
  | string written body => exact .of_string written body stepped
  | escape written body => exact .of_escape written body stepped
  | hex written body length needed number => exact .of_hex written body length needed number stepped

/-- Characters more. -/
theorem Reads.foldlM (h : l.Reads base cs) (stepped : ds.foldlM Lexer.step l = some l') :
    l'.Reads base (cs ++ ds) := by
  induction ds generalizing l cs with
  | nil =>
      cases stepped
      simpa using h
  | cons c ds ih =>
      obtain ⟨next, first, rest⟩ := foldlM_cons_eq_some_iff.mp stepped
      simpa using ih (h.step first) rest

/-- A text that ends here is written in the tokens that are complete. -/
theorem Reads.finish (h : l.Reads base cs) (finished : l.finish = some ts) :
    ∃ us, ts = base.reverse ++ us ∧ Written us cs := by
  cases h with
  | nothing written =>
      cases finished
      exact ⟨_, by simp, written⟩
  | number written reads =>
      simp only [Lexer.finish] at finished
      split at finished
      next complete =>
        cases finished
        exact ⟨_, by simp, written.concat (spelling_number reads complete)⟩
      next => cases finished
  | word | string | escape | hex => cases finished

/-- The rest of a text is written in the tokens that it adds. -/
theorem exists_written (h : cs.foldlM step ⟨.nothing, base⟩ >>= finish = some ts) :
    ∃ us, ts = base.reverse ++ us ∧ Written us cs := by
  obtain ⟨l, passed, finished⟩ := Option.bind_eq_some_iff.mp h
  have begun : Reads base ⟨.nothing, base⟩ [] := .nothing (.nil blank_nil)
  exact (begun.foldlM passed).finish finished

/-- Every text that is read is written in its tokens. -/
theorem written_of_tokens? (h : tokens? cs = some ts) : Written ts cs := by
  obtain ⟨us, rfl, written⟩ := exists_written h
  exact written

end Lexer

/-! ## From the tokens to the text -/

/-- Whether a token may follow another with nothing between.  Behind a number only punctuation
may, of what follows numbers at all. -/
def Token.MayFollow : Token → Token → Prop
  | .number _, u => u = .comma ∨ u = .closeArray ∨ u = .closeObject
  | _, _ => True

/-- No token of a row depends on white space to be told from the next. -/
def Apart (ts : List Token) : Prop := ts.IsChain Token.MayFollow

namespace Lexer

variable {l : Lexer} {tokens : List Token}

theorem cuts_of_spelling (h : t.Spelling xs) : Cuts xs [t] := by
  cases h with
  | openArray => exact cuts_nil.mark isMark_openArray cuts_nil
  | closeArray => exact cuts_nil.mark isMark_closeArray cuts_nil
  | openObject => exact cuts_nil.mark isMark_openObject cuts_nil
  | closeObject => exact cuts_nil.mark isMark_closeObject cuts_nil
  | comma => exact cuts_nil.mark isMark_comma cuts_nil
  | colon => exact cuts_nil.mark isMark_colon cuts_nil
  | null | true | false => exact cuts_of_foldlM_eq fun _ => rfl
  | number numeral => exact cuts_number (isNumber_iff.mpr numeral)
  | @string body units text spells denotes =>
      have decoded : Quoted.decode units = text := by
        refine Option.ext fun cs => ?_
        rw [Quoted.decode_eq_some_iff, denotes]
      refine cuts_of_foldlM_eq fun tokens => ?_
      have opened : step ⟨.nothing, tokens⟩ '"' = some ⟨.string [], tokens⟩ := rfl
      have closed (units : List Nat) :
          step ⟨.string units, tokens⟩ '"' = some (emit tokens (stringToken units)) := by
        simp [step]
      simp [opened, closed, foldlM_spells spells, stringToken, decoded]

/-- Behind a token, a text that begins with a separator is read as if nothing were open. -/
theorem Behind.foldlM_separated (h : l.Behind tokens) (separates : c ∈ separators) :
    (c :: cs).foldlM step l = (c :: cs).foldlM step ⟨.nothing, tokens⟩ := by
  rw [List.foldlM_cons, List.foldlM_cons, h.step_separator separates]
  rfl

/-- What may follow a number begins with a separator. -/
theorem exists_separator (h : Written (u :: us) cs)
    (closes : u = .comma ∨ u = .closeArray ∨ u = .closeObject) :
    ∃ c rest, cs = c :: rest ∧ c ∈ separators := by
  cases h with
  | @cons _ _ ws _ rest blank spelled =>
      cases ws with
      | cons w ws =>
          exact ⟨w, _, rfl, mem_separators_of_isSpace (blank w List.mem_cons_self)⟩
      | nil =>
          rcases closes with rfl | rfl | rfl
          · cases spelled
            exact ⟨',', rest, rfl, by simp [separators]⟩
          · cases spelled
            exact ⟨']', rest, rfl, by simp [separators]⟩
          · cases spelled
            exact ⟨'\x7d', rest, rfl, by simp [separators]⟩

/-- A token in front of a text that does not continue it. -/
theorem Cuts.cons_append (h : Cuts xs [t]) (written : Written ts cs) (h' : Cuts cs ts)
    (apart : Apart (t :: ts)) : Cuts (xs ++ cs) (t :: ts) := by
  intro tokens
  obtain ⟨l, passed, behind⟩ := h tokens
  suffices rest : ∃ l', cs.foldlM step l = some l' ∧ l'.Behind (ts.reverse ++ (t :: tokens)) by
    obtain ⟨l', passed', behind'⟩ := rest
    exact ⟨l', by simp [passed, passed'], by simpa using behind'⟩
  have behind : l.Behind (t :: tokens) := by simpa using behind
  generalize whole : t :: tokens = stack at behind
  cases behind with
  | settled =>
      subst whole
      exact h' (t :: tokens)
  | @number phase read stack complete =>
      obtain ⟨rfl, rfl⟩ := List.cons.inj whole
      have behind : Behind ⟨.number phase read, tokens⟩ (.number read.reverse :: tokens) :=
        .number complete
      cases written with
      | nil blank => exact behind.foldlM_blank blank
      | cons blank spelled rest =>
          have follows : Token.MayFollow (.number read.reverse) _ := apart.rel
          obtain ⟨c, tail, same, separates⟩ := exists_separator (.cons blank spelled rest) follows
          rw [same, behind.foldlM_separated separates, ← same]
          exact h' _

/-- A text is read as the tokens it is written in, if they are told apart. -/
theorem Written.cuts (h : Written ts cs) (apart : Apart ts) : Cuts cs ts := by
  induction h with
  | nil blank => exact fun tokens => ⟨_, Lexer.foldlM_blank blank, .settled tokens⟩
  | cons blank spelled rest ih =>
      have joined := (cuts_of_spelling spelled).cons_append rest (ih apart.tail) apart
      exact joined.blank_append blank

end Lexer

end Hornbook.Json
