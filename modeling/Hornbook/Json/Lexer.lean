import Hornbook.Json.Quoted

/-!
# JSON tokens

A text is cut into tokens by a machine that takes one character at a time.  Its state
says what is open: nothing, a word, a number, or a string.  A number ends where a
character comes that cannot continue it, and that character is then taken as the first
of what follows.  Every other token ends with a character of its own.

Running the machine over a text is a fold, so what it does to `xs ++ ys` is what it does
to `xs` and then to `ys`.
-/

namespace Hornbook.Json

/-- A token. -/
inductive Token where
  | openArray
  | closeArray
  | openObject
  | closeObject
  | comma
  | colon
  | null
  | bool (value : Bool)
  /-- A number, by its literal. -/
  | number (literal : List Char)
  /-- A string, by the text it denotes, if any. -/
  | string (text : Option (List Char))
  deriving DecidableEq

/-- What a number has had so far. -/
inductive NumberPhase where
  /-- A minus sign. -/
  | sign
  /-- A zero as its whole part. -/
  | zero
  /-- Digits of its whole part. -/
  | whole
  /-- A decimal point and no digit behind it. -/
  | point
  /-- Digits behind the point. -/
  | fraction
  /-- The letter of an exponent. -/
  | exponent
  /-- The sign of an exponent. -/
  | exponentSign
  /-- Digits of an exponent. -/
  | exponentDigits
  deriving DecidableEq

namespace NumberPhase

/-- The phase after the first character of a number. -/
def first? (c : Char) : Option NumberPhase :=
  if c = '-' then some sign
  else if c = '0' then some zero
  else if c.isDigit then some whole
  else none

/-- The phase after a decimal point or the letter of an exponent. -/
def afterWhole? (c : Char) : Option NumberPhase :=
  if c = '.' then some point
  else if c = 'e' ∨ c = 'E' then some exponent
  else none

/-- The phase after one more character, if it continues the number. -/
def next? : NumberPhase → Char → Option NumberPhase
  | sign, c => if c = '0' then some zero else if c.isDigit then some whole else none
  | zero, c => afterWhole? c
  | whole, c => if c.isDigit then some whole else afterWhole? c
  | point, c => if c.isDigit then some fraction else none
  | fraction, c =>
      if c.isDigit then some fraction
      else if c = 'e' ∨ c = 'E' then some exponent
      else none
  | exponent, c =>
      if c = '+' ∨ c = '-' then some exponentSign
      else if c.isDigit then some exponentDigits
      else none
  | exponentSign, c => if c.isDigit then some exponentDigits else none
  | exponentDigits, c => if c.isDigit then some exponentDigits else none

/-- Whether a number may end in a phase. -/
def complete : NumberPhase → Bool
  | zero => true
  | whole => true
  | fraction => true
  | exponentDigits => true
  | _ => false

end NumberPhase

/-- What is open while a text is cut. -/
inductive Pending where
  /-- Nothing. -/
  | nothing
  /-- A word, with the characters it still needs. -/
  | word (rest : List Char) (token : Token)
  /-- A number, with its characters, last first. -/
  | number (phase : NumberPhase) (read : List Char)
  /-- A string, with its code units, last first. -/
  | string (units : List Nat)
  /-- A string, behind a backslash. -/
  | escape (units : List Nat)
  /-- A string, behind `\u`, with the number of digits still needed and the value of
  those that came. -/
  | hex (units : List Nat) (needed value : Nat)
  deriving DecidableEq

/-- The state of the machine. -/
structure Lexer where
  /-- What is open. -/
  state : Pending
  /-- The tokens that are complete, last first. -/
  tokens : List Token
  deriving DecidableEq

namespace Lexer

/-- The machine before a text. -/
def start : Lexer := ⟨.nothing, []⟩

/-- White space between tokens. -/
def isSpace (c : Char) : Bool := c = ' ' || c = '\n' || c = '\t' || c = '\r'

/-- The machine after a complete token. -/
def emit (tokens : List Token) (token : Token) : Lexer := ⟨.nothing, token :: tokens⟩

/-- The token that is a single character. -/
def punctuation? (c : Char) : Option Token :=
  [('[', Token.openArray), (']', .closeArray), ('\x7b', .openObject), ('\x7d', .closeObject),
   (',', .comma), (':', .colon)].lookup c

/-- The word that begins with a character, without that character. -/
def word? (c : Char) : Option (List Char × Token) :=
  [('n', ("ull".toList, Token.null)), ('t', ("rue".toList, .bool true)),
   ('f', ("alse".toList, .bool false))].lookup c

/-- One character when nothing is open. -/
def begin (tokens : List Token) (c : Char) : Option Lexer :=
  if isSpace c then some ⟨.nothing, tokens⟩
  else if c = '"' then some ⟨.string [], tokens⟩
  else match punctuation? c with
    | some token => some (emit tokens token)
    | none =>
      match word? c with
      | some (rest, token) => some ⟨.word rest token, tokens⟩
      | none => (NumberPhase.first? c).map fun phase => ⟨.number phase [c], tokens⟩

/-- The token of a string whose code units are given last first. -/
def stringToken (units : List Nat) : Token :=
  .string (Quoted.decode units.reverse)

/-- One character. -/
def step : Lexer → Char → Option Lexer
  | ⟨.nothing, tokens⟩, c => begin tokens c
  | ⟨.word [] _, _⟩, _ => none
  | ⟨.word [d] token, tokens⟩, c => if c = d then some (emit tokens token) else none
  | ⟨.word (d :: rest) token, tokens⟩, c =>
      if c = d then some ⟨.word rest token, tokens⟩ else none
  | ⟨.number phase read, tokens⟩, c =>
      match phase.next? c with
      | some phase' => some ⟨.number phase' (c :: read), tokens⟩
      | none => if phase.complete then begin (.number read.reverse :: tokens) c else none
  | ⟨.string units, tokens⟩, c =>
      if c = '"' then some (emit tokens (stringToken units))
      else if c = '\\' then some ⟨.escape units, tokens⟩
      else if c.toNat < 0x20 then none
      else some ⟨.string (c.toNat :: units), tokens⟩
  | ⟨.escape units, tokens⟩, c =>
      if c = 'u' then some ⟨.hex units 4 0, tokens⟩
      else (Quoted.escaped? c).map fun d => ⟨.string (d.toNat :: units), tokens⟩
  | ⟨.hex units needed value, tokens⟩, c =>
      (Quoted.hexValue? c).map fun digit =>
        if needed ≤ 1 then ⟨.string ((16 * value + digit) :: units), tokens⟩
        else ⟨.hex units (needed - 1) (16 * value + digit), tokens⟩

/-- The tokens of a text that ends here. -/
def finish : Lexer → Option (List Token)
  | ⟨.nothing, tokens⟩ => some tokens.reverse
  | ⟨.number phase read, tokens⟩ =>
      if phase.complete then some (.number read.reverse :: tokens).reverse else none
  | _ => none

/-- The tokens of a text. -/
def tokens? (cs : List Char) : Option (List Token) := cs.foldlM step start >>= finish

example : tokens? "[-1.5e+3, null]".toList
    = some [.openArray, .number "-1.5e+3".toList, .comma, .null, .closeArray] := by decide

example : tokens? "1.".toList = none := by decide

example : tokens? ['"', '\\', 'u', '0', '0', '4', '1', '"'] = some [.string (some ['A'])] := by
  decide

end Lexer

end Hornbook.Json
