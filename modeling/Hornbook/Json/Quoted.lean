/-!
# Quoted text

How a text stands in JSON.  Writing escapes the quotation mark, the backslash and the
control characters below U+0020, by a letter where there is one and by four hexadecimal
digits otherwise.  Every other character is written as it stands.

Reading goes through code units.  A literal is first a list of numbers, one for each
character and each `\u`.  `decode` joins surrogate pairs and refuses half a pair.  A
plain character is never a surrogate, so only two `\u` in a row make a pair.
-/

namespace Hornbook.Json.Quoted

/-- The characters that have a letter to escape them with, letter first. -/
def letters : List (Char × Char) :=
  [('"', '"'), ('\\', '\\'), ('b', '\x08'), ('f', '\x0c'), ('n', '\n'), ('r', '\r'), ('t', '\t')]

/-- The hexadecimal digit of a number below 16. -/
def hexDigit (n : Nat) : Char := if n < 10 then Char.ofNat (48 + n) else Char.ofNat (87 + n)

/-- The value of a hexadecimal digit of either case. -/
def hexValue? (c : Char) : Option Nat :=
  if '0' ≤ c ∧ c ≤ '9' then some (c.toNat - 48)
  else if 'a' ≤ c ∧ c ≤ 'f' then some (c.toNat - 87)
  else if 'A' ≤ c ∧ c ≤ 'F' then some (c.toNat - 55)
  else none

/-- A character inside a quoted text. -/
def encodeChar (c : Char) : List Char :=
  match letters.find? (fun l => l.2 = c) with
  | some l => ['\\', l.1]
  | none =>
      if c.toNat < 0x20 then
        ['\\', 'u', '0', '0', hexDigit (c.toNat / 16), hexDigit (c.toNat % 16)]
      else [c]

/-- A text between quotation marks. -/
def encode (cs : List Char) : List Char := '"' :: (cs.flatMap encodeChar ++ ['"'])

/-- The character that a letter behind a backslash stands for. -/
def escaped? (letter : Char) : Option Char :=
  if letter = '/' then some '/' else letters.lookup letter

/-- The first half of a surrogate pair. -/
def isHigh (unit : Nat) : Bool := 0xD800 ≤ unit && unit < 0xDC00

/-- The second half of a surrogate pair. -/
def isLow (unit : Nat) : Bool := 0xDC00 ≤ unit && unit < 0xE000

/-- The character of a surrogate pair. -/
def pair (high low : Nat) : Char :=
  Char.ofNat (0x10000 + (high - 0xD800) * 0x400 + (low - 0xDC00))

/-- The text of a list of code units, unless half of a pair stands alone. -/
def decode : List Nat → Option (List Char)
  | [] => some []
  | unit :: rest =>
      if isHigh unit then
        match rest with
        | low :: rest' => if isLow low then (decode rest').map (pair unit low :: ·) else none
        | [] => none
      else if isLow unit then none
      else (decode rest).map (Char.ofNat unit :: ·)
termination_by structural units => units

/-- Reading a hexadecimal digit undoes writing it. -/
theorem hexValue?_hexDigit : ∀ n < 16, hexValue? (hexDigit n) = some n := by decide

example : encode "a\"\x01\n\x7f".toList = "\"a\\\"\\u0001\\n\x7f\"".toList := by decide

example : decode [0xD83D, 0xDE00] = some ['😀'] := by decide

example : decode [0xD83D, 97] = none := by decide

end Hornbook.Json.Quoted
