import Hornbook.Proofs.Json.Lexer

/-!
# Literals

How a number and a string may be written, said without a machine.  A number has a sign, a whole
part, a fraction and an exponent (`IsNumeral`).  The body of a string stands for code units, and
the code units for a text (`Quoted.Spells`, `Quoted.Denotes`).

The machine takes a number phase by phase.  Each phase is described by what may still follow
(`NumberPhase.Ends`), the last phase first.
-/

namespace Hornbook.Json

/-! ## Numbers -/

/-- One digit or more. -/
def IsDigits (cs : List Char) : Prop := cs ≠ [] ∧ ∀ c ∈ cs, c.isDigit = true

/-- The whole part of a number.  Its first digit is a zero only if it is the only one. -/
inductive IsWhole : List Char → Prop where
  | zero : IsWhole ['0']
  | digits {c : Char} {cs : List Char} :
      c ≠ '0' → c.isDigit = true → (∀ d ∈ cs, d.isDigit = true) → IsWhole (c :: cs)

/-- A decimal point with digits behind it, or nothing. -/
inductive IsFraction : List Char → Prop where
  | absent : IsFraction []
  | digits {cs : List Char} : IsDigits cs → IsFraction ('.' :: cs)

/-- The letter of an exponent with a sign and digits behind it, or nothing. -/
inductive IsExponent : List Char → Prop where
  | absent : IsExponent []
  | digits {letter : Char} {sign cs : List Char} : letter = 'e' ∨ letter = 'E' →
      sign ∈ [[], ['+'], ['-']] → IsDigits cs → IsExponent (letter :: (sign ++ cs))

/-- A number as it may be written. -/
inductive IsNumeral : List Char → Prop where
  | parts {sign whole fraction exponent : List Char} : sign ∈ [[], ['-']] → IsWhole whole →
      IsFraction fraction → IsExponent exponent →
      IsNumeral (sign ++ (whole ++ (fraction ++ exponent)))

namespace NumberPhase

/-- Characters that bring a number from a phase to its end. -/
def Ends (phase : NumberPhase) (cs : List Char) : Prop :=
  ∃ last, cs.foldlM next? phase = some last ∧ last.complete = true

variable {phase : NumberPhase} {c : Char} {cs ds : List Char}

@[simp] theorem ends_nil : phase.Ends [] ↔ phase.complete = true := by simp [Ends]

theorem ends_cons : phase.Ends (c :: cs) ↔ ∃ next, phase.next? c = some next ∧ next.Ends cs := by
  simp only [Ends, List.foldlM_cons, Option.bind_eq_bind, Option.bind_eq_some_iff]
  grind

theorem ends_exponentDigits : exponentDigits.Ends cs ↔ ∀ c ∈ cs, c.isDigit = true := by
  induction cs with
  | nil => simp [complete]
  | cons c cs ih => by_cases digit : c.isDigit <;> simp [ends_cons, next?, digit, ih]

theorem ends_exponentSign : exponentSign.Ends cs ↔ IsDigits cs := by
  cases cs with
  | nil => simp [complete, IsDigits]
  | cons c cs =>
      by_cases digit : c.isDigit <;>
        simp [ends_cons, next?, digit, ends_exponentDigits, IsDigits]

theorem ends_exponent :
    exponent.Ends cs ↔ ∃ sign ∈ [[], ['+'], ['-']], ∃ ds, IsDigits ds ∧ cs = sign ++ ds := by
  cases cs with
  | nil => simp [complete, IsDigits]
  | cons c cs =>
      by_cases sign : c = '+' ∨ c = '-'
      · rcases sign with rfl | rfl <;>
          simp [ends_cons, next?, ends_exponentSign, IsDigits]
      · obtain ⟨plus, minus⟩ := not_or.mp sign
        by_cases digit : c.isDigit <;>
          simp [ends_cons, next?, plus, minus, digit, ends_exponentDigits, IsDigits]

theorem isExponent_cons : IsExponent (c :: cs) ↔ (c = 'e' ∨ c = 'E') ∧ exponent.Ends cs := by
  rw [ends_exponent]
  constructor
  · rintro (_ | ⟨letter, sign, digits⟩)
    exact ⟨letter, _, sign, _, digits, rfl⟩
  · rintro ⟨letter, sign, allowed, ds, digits, rfl⟩
    exact .digits letter allowed digits

/-- Digits in front make no difference to a phase that they do not leave. -/
theorem ends_digits_append (stays : ∀ c, c.isDigit = true → phase.next? c = some phase)
    (digits : ∀ d ∈ ds, d.isDigit = true) : phase.Ends (ds ++ cs) ↔ phase.Ends cs := by
  induction ds with
  | nil => rfl
  | cons d ds ih =>
      obtain ⟨first, rest⟩ := List.forall_mem_cons.mp digits
      simp [ends_cons, stays d first, ih rest]

/-- A text begins with digits, perhaps none, and goes on with something else. -/
theorem exists_digits_append (cs : List Char) :
    ∃ ds rest, cs = ds ++ rest ∧ (∀ d ∈ ds, d.isDigit = true) ∧
      ∀ c ∈ rest.head?, c.isDigit = false := by
  induction cs with
  | nil => exact ⟨[], [], rfl, by simp, by simp⟩
  | cons c cs ih =>
      by_cases digit : c.isDigit = true
      · obtain ⟨ds, rest, rfl, digits, stops⟩ := ih
        exact ⟨c :: ds, rest, rfl, List.forall_mem_cons.mpr ⟨digit, digits⟩, stops⟩
      · exact ⟨[], c :: cs, rfl, by simp, by simpa using digit⟩

/-- Where no digit comes next, a fraction goes on with its exponent. -/
theorem ends_fraction_of_stop (stops : ∀ c ∈ cs.head?, c.isDigit = false) :
    fraction.Ends cs ↔ IsExponent cs := by
  cases cs with
  | nil => simp [complete, IsExponent.absent]
  | cons c cs =>
      have other : c.isDigit = false := by simpa using stops
      by_cases letter : c = 'e' ∨ c = 'E' <;>
        simp [ends_cons, isExponent_cons, next?, other, letter]

theorem stop_of_isExponent (h : IsExponent cs) : ∀ c ∈ cs.head?, c.isDigit = false := by
  cases h with
  | absent => simp
  | digits letter => rcases letter with rfl | rfl <;> simp

theorem ends_fraction :
    fraction.Ends cs ↔ ∃ ds ex, (∀ d ∈ ds, d.isDigit = true) ∧ IsExponent ex ∧ cs = ds ++ ex := by
  have stays (c : Char) (digit : c.isDigit = true) : fraction.next? c = some fraction := by
    simp [next?, digit]
  constructor
  · intro ends
    obtain ⟨ds, rest, rfl, digits, stops⟩ := exists_digits_append cs
    rw [ends_digits_append stays digits, ends_fraction_of_stop stops] at ends
    exact ⟨ds, rest, digits, ends, rfl⟩
  · rintro ⟨ds, rest, digits, ends, rfl⟩
    rwa [ends_digits_append stays digits, ends_fraction_of_stop (stop_of_isExponent ends)]

theorem ends_point :
    point.Ends cs ↔ ∃ ds ex, IsDigits ds ∧ IsExponent ex ∧ cs = ds ++ ex := by
  have one (c : Char) (rest : List Char) :
      point.Ends (c :: rest) ↔ c.isDigit = true ∧ fraction.Ends rest := by
    by_cases digit : c.isDigit = true <;> simp [ends_cons, next?, digit]
  constructor
  · intro ends
    cases cs with
    | nil => simp [complete] at ends
    | cons c cs =>
        obtain ⟨digit, rest⟩ := (one c cs).mp ends
        obtain ⟨ds, ex, digits, exponent, rfl⟩ := ends_fraction.mp rest
        exact ⟨c :: ds, ex, ⟨by simp, List.forall_mem_cons.mpr ⟨digit, digits⟩⟩, exponent, rfl⟩
  · rintro ⟨ds, ex, ⟨nonempty, digits⟩, exponent, rfl⟩
    obtain ⟨d, ds, rfl⟩ := List.exists_cons_of_ne_nil nonempty
    obtain ⟨digit, digits⟩ := List.forall_mem_cons.mp digits
    exact (one d _).mpr ⟨digit, ends_fraction.mpr ⟨ds, ex, digits, exponent, rfl⟩⟩

/-- Behind its whole part a number has a fraction and an exponent. -/
theorem ends_zero :
    zero.Ends cs ↔ ∃ fr ex, IsFraction fr ∧ IsExponent ex ∧ cs = fr ++ ex := by
  constructor
  · intro ends
    cases cs with
    | nil => exact ⟨[], [], .absent, .absent, rfl⟩
    | cons c cs =>
        by_cases dot : c = '.'
        · have rest : point.Ends cs := by simpa [ends_cons, next?, afterWhole?, dot] using ends
          obtain ⟨ds, ex, digits, exponent, rfl⟩ := ends_point.mp rest
          exact ⟨c :: ds, ex, dot ▸ .digits digits, exponent, rfl⟩
        · by_cases letter : c = 'e' ∨ c = 'E'
          · have rest : exponent.Ends cs := by
              simpa [ends_cons, next?, afterWhole?, dot, letter] using ends
            exact ⟨[], c :: cs, .absent, isExponent_cons.mpr ⟨letter, rest⟩, rfl⟩
          · simp [ends_cons, next?, afterWhole?, dot, letter] at ends
  · rintro ⟨fr, ex, fraction, exponent, rfl⟩
    cases fraction with
    | absent =>
        cases ex with
        | nil => simp [complete]
        | cons c ex =>
            obtain ⟨letter, ends⟩ := isExponent_cons.mp exponent
            have noDot : c ≠ '.' := by rintro rfl; simp at letter
            simp [ends_cons, next?, afterWhole?, noDot, letter, ends]
    | @digits ds digits =>
        have rest : point.Ends (ds ++ ex) := ends_point.mpr ⟨ds, ex, digits, exponent, rfl⟩
        simpa [ends_cons, next?, afterWhole?] using rest

theorem ends_whole_of_stop (stops : ∀ c ∈ cs.head?, c.isDigit = false) :
    whole.Ends cs ↔ zero.Ends cs := by
  cases cs with
  | nil => simp [complete]
  | cons c cs =>
      have other : c.isDigit = false := by simpa using stops
      simp [ends_cons, next?, other]

theorem stop_of_ends_zero (h : zero.Ends cs) : ∀ c ∈ cs.head?, c.isDigit = false := by
  obtain ⟨fr, ex, fraction, exponent, rfl⟩ := ends_zero.mp h
  cases fraction with
  | absent => exact stop_of_isExponent exponent
  | digits => simp

theorem ends_whole :
    whole.Ends cs ↔ ∃ ds rest, (∀ d ∈ ds, d.isDigit = true) ∧ zero.Ends rest ∧ cs = ds ++ rest := by
  have stays (c : Char) (digit : c.isDigit = true) : whole.next? c = some whole := by
    simp [next?, digit]
  constructor
  · intro ends
    obtain ⟨ds, rest, rfl, digits, stops⟩ := exists_digits_append cs
    rw [ends_digits_append stays digits, ends_whole_of_stop stops] at ends
    exact ⟨ds, rest, digits, ends, rfl⟩
  · rintro ⟨ds, rest, digits, ends, rfl⟩
    rwa [ends_digits_append stays digits, ends_whole_of_stop (stop_of_ends_zero ends)]

theorem ends_sign :
    sign.Ends cs ↔ ∃ wh rest, IsWhole wh ∧ zero.Ends rest ∧ cs = wh ++ rest := by
  constructor
  · intro ends
    cases cs with
    | nil => simp [complete] at ends
    | cons c cs =>
        by_cases isZero : c = '0'
        · have rest : zero.Ends cs := by simpa [ends_cons, next?, isZero] using ends
          exact ⟨[c], cs, isZero ▸ .zero, rest, rfl⟩
        · by_cases digit : c.isDigit = true
          · have rest : whole.Ends cs := by simpa [ends_cons, next?, isZero, digit] using ends
            obtain ⟨ds, tail, digits, behind, rfl⟩ := ends_whole.mp rest
            exact ⟨c :: ds, tail, .digits isZero digit digits, behind, rfl⟩
          · simp [ends_cons, next?, isZero, digit] at ends
  · rintro ⟨wh, rest, isWhole, ends, rfl⟩
    cases isWhole with
    | zero => simpa [ends_cons, next?] using ends
    | @digits c ds notZero digit digits =>
        have tail : whole.Ends (ds ++ rest) := ends_whole.mpr ⟨ds, rest, digits, ends, rfl⟩
        simpa [ends_cons, next?, notZero, digit] using tail

end NumberPhase

open NumberPhase

/-- A number is one without a sign, or a minus sign and such a number. -/
theorem isNumber_iff_ends {cs : List Char} :
    IsNumber cs ↔ ∃ minus ∈ [[], ['-']], ∃ rest, sign.Ends rest ∧ cs = minus ++ rest := by
  cases cs with
  | nil => simp [IsNumber, NumberPhase.ofChars?, complete]
  | cons c cs =>
      have begun : IsNumber (c :: cs) ↔ ∃ phase, first? c = some phase ∧ phase.Ends cs := by
        simp only [IsNumber, NumberPhase.ofChars?, Ends, Option.bind_eq_bind, Option.bind_eq_some_iff]
        grind
      by_cases minus : c = '-'
      · subst minus
        simp [begun, first?, ends_cons, next?]
      · simp [begun, first?, ends_cons, next?, minus]

/-- The machine takes as a number what may be written as one. -/
theorem isNumber_iff {cs : List Char} : IsNumber cs ↔ IsNumeral cs := by
  rw [isNumber_iff_ends]
  constructor
  · rintro ⟨minus, allowed, rest, ends, rfl⟩
    obtain ⟨wh, tail, isWhole, behind, rfl⟩ := ends_sign.mp ends
    obtain ⟨fr, ex, fraction, exponent, rfl⟩ := ends_zero.mp behind
    exact .parts allowed isWhole fraction exponent
  · rintro ⟨allowed, isWhole, fraction, exponent⟩
    have behind := ends_zero.mpr ⟨_, _, fraction, exponent, rfl⟩
    exact ⟨_, allowed, _, ends_sign.mpr ⟨_, _, isWhole, behind, rfl⟩, rfl⟩

/-! ## Strings -/

namespace Quoted

/-- The number that a number becomes with hexadecimal digits behind it. -/
def hexFrom? (value : Nat) (digits : List Char) : Option Nat :=
  digits.foldlM (fun value c => (hexValue? c).map fun digit => 16 * value + digit) value

/-- The characters between the quotation marks of a string, and the code units they stand for. -/
inductive Spells : List Char → List Nat → Prop where
  | nil : Spells [] []
  | plain {c : Char} {cs : List Char} {units : List Nat} : c ≠ '"' → c ≠ '\\' → 0x20 ≤ c.toNat →
      Spells cs units → Spells (c :: cs) (c.toNat :: units)
  | letter {l c : Char} {cs : List Char} {units : List Nat} : escaped? l = some c →
      Spells cs units → Spells ('\\' :: l :: cs) (c.toNat :: units)
  | code {digits cs : List Char} {unit : Nat} {units : List Nat} : digits.length = 4 →
      hexFrom? 0 digits = some unit → Spells cs units →
      Spells ('\\' :: 'u' :: (digits ++ cs)) (unit :: units)

/-- The text that code units stand for. -/
inductive Denotes : List Nat → List Char → Prop where
  | nil : Denotes [] []
  | unit {unit : Nat} {units : List Nat} {cs : List Char} : isHigh unit = false →
      isLow unit = false → Denotes units cs → Denotes (unit :: units) (Char.ofNat unit :: cs)
  | pair {high low : Nat} {units : List Nat} {cs : List Char} : isHigh high = true →
      isLow low = true → Denotes units cs → Denotes (high :: low :: units) (pair high low :: cs)

variable {cs ds : List Char} {units more : List Nat}

theorem denotes_of_decode (h : decode units = some cs) : Denotes units cs := by
  fun_induction decode units generalizing cs with
  | case1 =>
      cases h
      exact .nil
  | case2 high first low rest second ih =>
      obtain ⟨ds, decoded, rfl⟩ := Option.map_eq_some_iff.mp h
      exact .pair first second (ih decoded)
  | case3 | case4 | case5 => cases h
  | case6 unit rest notHigh notLow ih =>
      obtain ⟨ds, decoded, rfl⟩ := Option.map_eq_some_iff.mp h
      exact .unit (by simpa using notHigh) (by simpa using notLow) (ih decoded)

theorem decode_of_denotes (h : Denotes units cs) : decode units = some cs := by
  induction h with
  | nil => rfl
  | unit high low _ ih =>
      rw [decode.eq_def]
      simp [high, low, ih]
  | pair high low _ ih =>
      rw [decode.eq_def]
      simp [high, low, ih]

theorem decode_eq_some_iff : decode units = some cs ↔ Denotes units cs :=
  ⟨denotes_of_decode, decode_of_denotes⟩

theorem escaped?_u : escaped? 'u' = none := by decide

theorem Spells.append (h : Spells cs units) (h' : Spells ds more) :
    Spells (cs ++ ds) (units ++ more) := by
  induction h with
  | nil => exact h'
  | plain quote backslash visible _ ih => exact .plain quote backslash visible ih
  | letter escaped _ ih => exact .letter escaped ih
  | code length number _ ih =>
      have longer := Spells.code length number ih
      simpa using longer

end Quoted

namespace Lexer

open Quoted

variable {more : List Nat} {cs : List Char} {value unit : Nat}

/-- The digits of a code are read as its unit. -/
theorem foldlM_hexFrom? (units : List Nat) (tokens : List Token) (nonempty : cs ≠ [])
    (number : hexFrom? value cs = some unit) :
    cs.foldlM step ⟨.hex units cs.length value, tokens⟩
      = some ⟨.string (unit :: units), tokens⟩ := by
  induction cs generalizing value with
  | nil => exact absurd rfl nonempty
  | cons c cs ih =>
      simp only [hexFrom?, List.foldlM_cons, Option.bind_eq_bind, Option.bind_eq_some_iff,
        Option.map_eq_some_iff] at number
      obtain ⟨_, ⟨digit, reads, rfl⟩, rest⟩ := number
      cases cs with
      | nil =>
          cases rest
          simp [step, reads]
      | cons d cs =>
          simpa [step, reads] using ih (by simp) rest

/-- The body of a string is read as its code units. -/
theorem foldlM_spells (h : Spells cs more) (units : List Nat) (tokens : List Token) :
    cs.foldlM step ⟨.string units, tokens⟩ = some ⟨.string (more.reverse ++ units), tokens⟩ := by
  induction h generalizing units with
  | nil => rfl
  | plain quote backslash visible _ ih =>
      simp [step, quote, backslash, Nat.not_lt.mpr visible, ih]
  | @letter l c cs _ escaped _ ih =>
      have notU : l ≠ 'u' := by
        rintro rfl
        rw [escaped?_u] at escaped
        cases escaped
      simp [step, notU, escaped, ih]
  | @code digits unit more cs length number _ ih =>
      have nonempty : digits ≠ [] := by
        rintro rfl
        cases length
      have read := foldlM_hexFrom? units tokens nonempty number
      rw [length] at read
      simp [step, read, ih]

end Lexer

end Hornbook.Json
