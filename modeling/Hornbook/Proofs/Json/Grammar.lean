import Hornbook.Proofs.Json.RoundTrip
import Hornbook.Proofs.Json.Spelling

/-!
# Texts of values

A text is read as a value exactly when it is written in the tokens of that value, with white
space anywhere between them (`ofChars?_eq_some_iff`).  One half needs what the reader's machine
has consumed.  That is a function of its state (`Reader.consumed`), because the arrays and
objects that are open hold all that was read of them.

Only white space can follow the text of an array or an object (`ofChars?_append_eq_none`).
-/

namespace Hornbook.Json

/-! ## From the tokens to the value -/

/-- The tokens of elements, each with a comma behind it. -/
def elementsWithComma (es : List Json) : List Token := es.flatMap fun e => e.tokens ++ [.comma]

/-- The tokens of members, each with a comma behind it. -/
def membersWithComma (ms : List (Option (List Char) × Json)) : List Token :=
  ms.flatMap fun m => .string m.1 :: .colon :: (m.2.tokens ++ [.comma])

theorem tokens_array_concat (es : List Json) (last : Json) :
    (array (es ++ [last])).tokens
      = .openArray :: (elementsWithComma es ++ last.tokens ++ [.closeArray]) := by
  have moved (e : Json) (es : List Json) : e.tokens ++ elementTokens (es ++ [last])
      = elementsWithComma (e :: es) ++ last.tokens := by
    induction es generalizing e with
    | nil => simp [elementTokens, elementsWithComma]
    | cons e' es ih => simp [elementTokens, elementsWithComma, ih e']
  cases es with
  | nil => simp [tokens, elementTokens, elementsWithComma]
  | cons e es => rw [List.cons_append, tokens, moved]

theorem tokens_object_concat (ms : List (Option (List Char) × Json)) (name : Option (List Char))
    (last : Json) : (object (ms ++ [(name, last)])).tokens
      = .openObject :: (membersWithComma ms ++ .string name :: .colon
          :: (last.tokens ++ [.closeObject])) := by
  have moved (m : Option (List Char) × Json) (ms : List (Option (List Char) × Json)) :
      .string m.1 :: .colon :: (m.2.tokens ++ memberTokens (ms ++ [(name, last)]))
        = membersWithComma (m :: ms) ++ .string name :: .colon :: last.tokens := by
    induction ms generalizing m with
    | nil => simp [memberTokens, membersWithComma]
    | cons m' ms ih => simp [memberTokens, membersWithComma, ih m']
  cases ms with
  | nil => simp [tokens, memberTokens, membersWithComma]
  | cons m ms =>
      have whole := congrArg (fun ts => .openObject :: (ts ++ [.closeObject])) (moved m ms)
      simpa [tokens] using whole

/-- The tokens of an array or an object up to the place where its next value comes. -/
def Frame.tokens : Frame → List Token
  | array before => .openArray :: elementsWithComma before.reverse
  | object before name =>
      .openObject :: (membersWithComma before.reverse ++ [.string name, .colon])

/-- The tokens of all that is open, up to the place where the next value comes. -/
def openTokens : List Frame → List Token
  | [] => []
  | frame :: outer => openTokens outer ++ frame.tokens

namespace Reader

/-- The tokens that bring the machine from its start to a state. -/
def consumed : Reader → List Token
  | value outer => openTokens outer
  | arrayStart outer => openTokens outer ++ [.openArray]
  | objectStart outer => openTokens outer ++ [.openObject]
  | name before outer => openTokens outer ++ .openObject :: membersWithComma before.reverse
  | colon before text outer =>
      openTokens outer ++ .openObject :: (membersWithComma before.reverse ++ [.string text])
  | after j outer => openTokens outer ++ j.tokens

variable {r r' : Reader} {t : Token} {ts : List Token} {outer : List Frame} {j : Json}

theorem consumed_takeValue (h : takeValue outer t = some r) :
    r.consumed = openTokens outer ++ [t] := by
  cases t <;> cases h <;> simp [consumed, tokens]

theorem step_arrayStart (h : t ≠ .closeArray) :
    step (arrayStart outer) t = takeValue (.array [] :: outer) t := by
  cases t with
  | closeArray => exact absurd rfl h
  | _ => rfl

theorem consumed_after (h : step (after j outer) t = some r) :
    r.consumed = openTokens outer ++ (j.tokens ++ [t]) := by
  match outer, t with
  | .array before :: outer, .comma =>
      cases h
      simp [consumed, openTokens, Frame.tokens, elementsWithComma]
  | .array before :: outer, .closeArray =>
      cases h
      simp [consumed, openTokens, Frame.tokens, tokens_array_concat]
  | .object before text :: outer, .comma =>
      cases h
      simp [consumed, openTokens, Frame.tokens, membersWithComma]
  | .object before text :: outer, .closeObject =>
      cases h
      simp [consumed, openTokens, Frame.tokens, tokens_object_concat]

/-- What is consumed grows by the token that is taken. -/
theorem consumed_step (h : r.step t = some r') : r'.consumed = r.consumed ++ [t] := by
  cases r with
  | value outer => exact consumed_takeValue h
  | arrayStart outer =>
      by_cases closing : t = .closeArray
      · subst closing
        cases h
        simp [consumed, tokens]
      · rw [step_arrayStart closing] at h
        rw [consumed_takeValue h]
        simp [consumed, openTokens, Frame.tokens, elementsWithComma]
  | objectStart outer =>
      match t with
      | .closeObject =>
          cases h
          simp [consumed, tokens]
      | .string text =>
          cases h
          simp [consumed, membersWithComma]
  | name before outer =>
      match t with
      | .string text =>
          cases h
          simp [consumed]
  | colon before text outer =>
      match t with
      | .colon =>
          cases h
          simp [consumed, openTokens, Frame.tokens]
  | after j outer => simpa [consumed] using consumed_after h

theorem consumed_foldlM (h : ts.foldlM step r = some r') : r'.consumed = r.consumed ++ ts := by
  induction ts generalizing r with
  | nil =>
      cases h
      simp
  | cons t ts ih =>
      obtain ⟨next, first, rest⟩ := foldlM_cons_eq_some_iff.mp h
      simp [ih rest, consumed_step first]

end Reader

/-- Tokens are read as a value exactly when they are the tokens of the value. -/
theorem value?_eq_some_iff {ts : List Token} {j : Json} :
    Reader.value? ts = some j ↔ ts = j.tokens := by
  constructor
  · intro h
    obtain ⟨r, passed, finished⟩ := Option.bind_eq_some_iff.mp h
    have whole : r = .after j [] := by
      unfold Reader.finish at finished
      split at finished
      · cases finished
        rfl
      · cases finished
    have consumed := Reader.consumed_foldlM passed
    simpa [whole, Reader.consumed, Reader.start, openTokens] using consumed.symm
  · rintro rfl
    exact value?_tokens j

/-! ## Texts -/

namespace Reader

variable {r r' : Reader} {t u : Token} {ts : List Token}

/-- Nothing but punctuation follows a complete value. -/
theorem closes_of_step_after {j : Json} {outer : List Frame} (h : step (after j outer) u = some r) :
    u = .comma ∨ u = .closeArray ∨ u = .closeObject := by
  match outer, u with
  | .array _ :: _, .comma | .object _ _ :: _, .comma => simp
  | .array _ :: _, .closeArray => simp
  | .object _ _ :: _, .closeObject => simp

theorem mayFollow_of_step (h : r.step t = some r') {r'' : Reader} (h' : r'.step u = some r'') :
    t.MayFollow u := by
  cases t with
  | number literal =>
      have complete : ∃ outer, r' = after (.number literal) outer := by
        match r with
        | value outer | arrayStart outer =>
            cases h
            exact ⟨_, rfl⟩
        | after j outer => rcases closes_of_step_after h with h | h | h <;> cases h
      obtain ⟨outer, rfl⟩ := complete
      exact closes_of_step_after h'
  | _ => trivial

/-- The machine takes only tokens that can be told apart. -/
theorem apart_of_foldlM (h : ts.foldlM step r = some r') : Apart ts := by
  induction ts generalizing r with
  | nil => exact .nil
  | cons t ts ih =>
      obtain ⟨next, first, rest⟩ := foldlM_cons_eq_some_iff.mp h
      cases ts with
      | nil => exact .singleton t
      | cons u ts =>
          obtain ⟨_, second, -⟩ := foldlM_cons_eq_some_iff.mp rest
          exact .cons_cons (mayFollow_of_step first second) (ih rest)

end Reader

theorem apart_tokens (j : Json) : Apart j.tokens := Reader.apart_of_foldlM (foldlM_tokens [] j)

/-- A text of a value: its tokens, each in one of its spellings, with white space anywhere
between them. -/
def IsWritten (j : Json) (cs : List Char) : Prop := Written j.tokens cs

/-- A text is read as a value exactly when it is a text of the value. -/
theorem ofChars?_eq_some_iff {cs : List Char} {j : Json} :
    ofChars? cs = some j ↔ j.IsWritten cs := by
  constructor
  · intro h
    obtain ⟨ts, cut, read⟩ := Option.bind_eq_some_iff.mp h
    rw [IsWritten, ← value?_eq_some_iff.mp read]
    exact Lexer.written_of_tokens? cut
  · intro written
    have cut := (Lexer.Written.cuts written j.apart_tokens).tokens?_eq
    simp [ofChars?, cut, value?_tokens]

/-! ## Behind a text -/

/-- An array or an object. -/
def IsComposite (j : Json) : Prop := (∃ es, j = array es) ∨ ∃ ms, j = object ms

theorem IsComposite.exists_last_token {j : Json} (h : j.IsComposite) :
    ∃ ts t, j.tokens = ts ++ [t] ∧ ∀ literal, t ≠ .number literal := by
  rcases h with ⟨es, rfl⟩ | ⟨ms, rfl⟩
  · cases es with
    | nil => exact ⟨[.openArray], .closeArray, rfl, nofun⟩
    | cons e es => exact ⟨.openArray :: (e.tokens ++ elementTokens es), .closeArray, rfl, nofun⟩
  · cases ms with
    | nil => exact ⟨[.openObject], .closeObject, rfl, nofun⟩
    | cons m ms =>
        exact ⟨.openObject :: .string m.1 :: .colon :: (m.2.tokens ++ memberTokens ms),
          .closeObject, rfl, nofun⟩

theorem Lexer.Behind.eq_settled {l : Lexer} {t : Token} {tokens : List Token}
    (h : l.Behind (t :: tokens)) (other : ∀ literal, t ≠ .number literal) :
    l = ⟨.nothing, t :: tokens⟩ := by
  generalize whole : t :: tokens = stack at h
  cases h with
  | settled => rfl
  | number => exact absurd (List.cons.inj whole).1 (other _)

/-- Behind the text of an array or an object, nothing is open. -/
theorem IsWritten.foldlM_step {j : Json} {cs : List Char} (h : j.IsWritten cs)
    (composite : j.IsComposite) :
    cs.foldlM Lexer.step Lexer.start = some ⟨.nothing, j.tokens.reverse⟩ := by
  obtain ⟨l, passed, behind⟩ := Lexer.Written.cuts h j.apart_tokens []
  obtain ⟨ts, t, split, other⟩ := composite.exists_last_token
  have last : l.Behind (t :: ts.reverse) := by simpa [split] using behind
  rw [Lexer.start, passed, split, last.eq_settled other, List.reverse_concat]

/-- Nothing but white space follows the text of an array or an object. -/
theorem IsWritten.ofChars?_append_eq_none {j : Json} {front behind : List Char}
    (h : j.IsWritten front) (composite : j.IsComposite) (more : ¬ Blank behind) :
    ofChars? (front ++ behind) = none := by
  rw [Option.eq_none_iff_forall_ne_some]
  intro j' read
  obtain ⟨ts, cut, value⟩ := Option.bind_eq_some_iff.mp read
  rw [Lexer.tokens?, List.foldlM_append, h.foldlM_step composite] at cut
  obtain ⟨us, rfl, written⟩ := Lexer.exists_written cut
  cases us with
  | nil =>
      cases written with
      | nil blank => exact more blank
  | cons u us =>
      obtain ⟨r, passed, -⟩ := Option.bind_eq_some_iff.mp value
      rw [List.reverse_reverse, List.foldlM_append, Reader.start, foldlM_tokens] at passed
      cases passed

end Hornbook.Json
