import Hornbook.Proofs.Lists
import Hornbook.Proofs.Sexp.Reader

/-!
# Texts that the reader passes over

The machine passes over a comment until the line ends.  A text that stands in a comment is
passed over as a whole if what is behind each of its line breaks is blank or begins with a
semicolon again (`Quiet`).  A line ends at a line feed here.  For a reader that also ends it at
a carriage return, fewer texts are passed over: what is behind a line feed counts for both.

From any other text the machine reads something, or it fails at a parenthesis that closes
nothing.  What it has once read it keeps.  Every character of a word and every row that is
opened adds to its size (`Reader.size`), and nothing takes away from that.
-/

namespace Hornbook.Sexp

variable {x : Sexp} {items xs ys row : List Sexp} {outer : List (List Sexp)}
  {cs : List Char} {c : Char}

/-! ## How much has been read -/

mutual

/-- The number of characters in the words of an expression and of rows in it. -/
def size : Sexp → Nat
  | .atom word => word.toList.length
  | .list items => rowSize items + 1
termination_by structural x => x

/-- The same number for the expressions of a row together, the row itself not counted. -/
def rowSize : List Sexp → Nat
  | [] => 0
  | x :: rest => x.size + rowSize rest
termination_by structural xs => xs

end

@[simp] theorem size_atom (word : String) : (atom word).size = word.toList.length := rfl

@[simp] theorem size_list (items : List Sexp) : (list items).size = rowSize items + 1 := rfl

@[simp] theorem rowSize_nil : rowSize [] = 0 := rfl

@[simp] theorem rowSize_cons (x : Sexp) (rest : List Sexp) :
    rowSize (x :: rest) = x.size + rowSize rest := rfl

@[simp] theorem rowSize_append (xs ys : List Sexp) :
    rowSize (xs ++ ys) = rowSize xs + rowSize ys := by
  induction xs with
  | nil => simp
  | cons x xs ih => simp [ih, Nat.add_assoc]

@[simp] theorem rowSize_reverse (xs : List Sexp) : rowSize xs.reverse = rowSize xs := by
  induction xs with
  | nil => rfl
  | cons x xs ih => simp [ih, Nat.add_comm]

namespace Reader

variable {r r' : Reader}

/-- The number of characters in words and of rows that the machine has met. -/
def size (r : Reader) : Nat :=
  r.word.length + rowSize r.row + rowSize (r.outer.map Sexp.list)

/-- In a comment the machine has no word. -/
def Settled (r : Reader) : Prop := r.inComment = true → r.word = []

theorem word_endWord (r : Reader) : r.endWord.word = [] := by
  unfold endWord
  split
  next empty => exact empty
  next => rfl

/-- The end of a word is not the beginning of another. -/
theorem size_endWord (r : Reader) : r.endWord.size = r.size := by
  unfold endWord
  split
  next => rfl
  next c cs word => simp [size, word]

theorem size_openRow (r : Reader) : r.openRow.size = r.size + 1 := by
  simp [size, openRow]
  omega

theorem word_of_closeRow? (h : r.closeRow? = some r') : r'.word = r.word := by
  unfold closeRow? at h
  split at h
  next => cases h
  next => cases h; rfl

/-- A closed row has been counted when it was opened. -/
theorem size_of_closeRow? (h : r.closeRow? = some r') : r'.size = r.size := by
  unfold closeRow? at h
  split at h
  next => cases h
  next row outer rows =>
    cases h
    simp [size, rows]
    omega

/-- Everything that one character can do to the machine. -/
theorem step_cases (h : r.step c = some r') :
    (r.inComment = true ∧ r' = { r with inComment := c ≠ '\n' })
      ∨ (isBlank c = true ∧ r' = r.endWord)
      ∨ (c = '(' ∧ r' = r.endWord.openRow)
      ∨ (c = ')' ∧ r.endWord.closeRow? = some r')
      ∨ (c = ';' ∧ r' = { r.endWord with inComment := true })
      ∨ (r.inComment = false ∧ r' = { r with word := c :: r.word }) := by
  unfold step at h
  split at h
  next inComment => exact .inl ⟨inComment, (Option.some.inj h).symm⟩
  next outside =>
    refine .inr ?_
    split at h
    next blank => exact .inl ⟨blank, (Option.some.inj h).symm⟩
    refine .inr ?_
    split at h
    next opening => exact .inl ⟨opening, (Option.some.inj h).symm⟩
    refine .inr ?_
    split at h
    next closing => exact .inl ⟨closing, h⟩
    refine .inr ?_
    split at h
    next semicolon => exact .inl ⟨semicolon, (Option.some.inj h).symm⟩
    exact .inr ⟨by simpa using outside, (Option.some.inj h).symm⟩

theorem Settled.step (settled : r.Settled) (h : r.step c = some r') : r'.Settled := by
  intro inComment
  rcases step_cases h with ⟨before, rfl⟩ | ⟨-, rfl⟩ | ⟨-, rfl⟩ | ⟨-, closed⟩ | ⟨-, rfl⟩ |
    ⟨before, rfl⟩
  · exact settled before
  · exact r.word_endWord
  · exact r.word_endWord
  · rw [word_of_closeRow? closed, word_endWord]
  · exact r.word_endWord
  · exact absurd inComment (by simp [before])

/-- What has been read does not become less. -/
theorem size_le_of_step (h : r.step c = some r') : r.size ≤ r'.size := by
  rcases step_cases h with ⟨-, rfl⟩ | ⟨-, rfl⟩ | ⟨-, rfl⟩ | ⟨-, closed⟩ | ⟨-, rfl⟩ | ⟨-, rfl⟩
  · exact Nat.le_refl r.size
  · exact Nat.le_of_eq (size_endWord r).symm
  · rw [size_openRow, size_endWord]
    omega
  · exact Nat.le_of_eq ((size_of_closeRow? closed).trans (size_endWord r)).symm
  · exact Nat.le_of_eq (size_endWord r).symm
  · simp [size]

/-- What has been read does not become less over a whole text either. -/
theorem Settled.foldlM (settled : r.Settled) (h : cs.foldlM Reader.step r = some r') :
    r'.Settled ∧ r.size ≤ r'.size := by
  induction cs generalizing r with
  | nil =>
      cases h
      exact ⟨settled, Nat.le_refl _⟩
  | cons c cs ih =>
      obtain ⟨r₁, first, rest⟩ := foldlM_cons_eq_some_iff.mp h
      obtain ⟨settled', more⟩ := ih (settled.step first) rest
      exact ⟨settled', Nat.le_trans (size_le_of_step first) more⟩

/-- A line break ends a word, or else a comment. -/
theorem Settled.step_newline (settled : r.Settled) :
    r.step '\n' = some { r.endWord with inComment := false } := by
  obtain ⟨inComment, word, row, outer⟩ := r
  cases inComment with
  | true =>
      obtain rfl : word = [] := settled rfl
      rfl
  | false =>
      show some (endWord _) = _
      cases word <;> rfl

/-- A line break behind a text adds nothing to it. -/
theorem step_newline_bind_finish (r : Reader) : r.step '\n' >>= finish = r.finish := by
  obtain ⟨inComment, word, row, outer⟩ := r
  cases inComment <;> cases word <;> cases outer <;> rfl

end Reader

/-! ## Quiet texts -/

/-- Nothing but blanks stands in front of the first semicolon of a text, or it is all blanks. -/
def CommentFirst (cs : List Char) : Prop := ∀ c ∈ (cs.dropWhile isBlank).head?, c = ';'

/-- What stands behind a line break of a text is blank or a comment again. -/
def Quiet (cs : List Char) : Prop := ∀ behind, '\n' :: behind <:+ cs → CommentFirst behind

theorem quiet_nil : Quiet [] := fun _ suffix => by simp at suffix

theorem quiet_cons : Quiet (c :: cs) ↔ (c = '\n' → CommentFirst cs) ∧ Quiet cs := by
  simp only [Quiet, List.suffix_cons_iff, List.cons.injEq]
  constructor
  · exact fun quiet => ⟨fun newline => quiet cs (.inl ⟨newline.symm, rfl⟩),
      fun behind suffix => quiet behind (.inr suffix)⟩
  · rintro ⟨first, rest⟩ behind (⟨newline, rfl⟩ | suffix)
    · exact first newline.symm
    · exact rest behind suffix

theorem ne_semicolon (blank : isBlank c = true) : c ≠ ';' := by
  rintro rfl
  cases blank

theorem commentFirst_cons :
    CommentFirst (c :: cs) ↔ c = ';' ∨ isBlank c = true ∧ CommentFirst cs := by
  cases blank : isBlank c with
  | true => simp [CommentFirst, blank, ne_semicolon blank]
  | false => simp [CommentFirst, blank]

/-- What a text has to be to be passed over, in a comment or not. -/
def Passes (inComment : Bool) (cs : List Char) : Prop :=
  (inComment = false → CommentFirst cs) ∧ Quiet cs

theorem passes_true : Passes true cs ↔ Quiet cs := by simp [Passes]

/-- Whether a character that is passed over has a comment behind it. -/
def commentAfter (inComment : Bool) (c : Char) : Bool := if inComment then c ≠ '\n' else c = ';'

/-- In a comment every character is passed over, and outside of one blanks and semicolons. -/
theorem passes_cons {inComment : Bool} : Passes inComment (c :: cs) ↔
    (inComment = false → isBlank c = true ∨ c = ';') ∧ Passes (commentAfter inComment c) cs := by
  have newline : c = '\n' → isBlank c = true := by
    rintro rfl
    rfl
  cases inComment with
  | true => by_cases same : c = '\n' <;> simp [Passes, quiet_cons, commentAfter, same]
  | false =>
      by_cases same : c = ';'
      · subst same
        simp [Passes, quiet_cons, commentFirst_cons, commentAfter]
      · simp only [Passes, quiet_cons, commentFirst_cons, commentAfter, same]
        grind

namespace Reader

variable {b : Bool}

/-- Outside of all rows the machine stands still over what is passed over. -/
theorem step_idle (passed : b = false → isBlank c = true ∨ c = ';') :
    (Reader.mk b [] row []).step c = some ⟨commentAfter b c, [], row, []⟩ := by
  cases b with
  | true => simp [step, commentAfter]
  | false =>
      rcases passed rfl with blank | rfl
      · simp [step, blank, commentAfter, ne_semicolon blank, endWord]
      · rfl

/-- Outside of all rows the machine reads every other character, if it can. -/
theorem lt_size_of_step (other : ¬ (b = false → isBlank c = true ∨ c = ';'))
    (h : (Reader.mk b [] row []).step c = some r) : rowSize row < r.size := by
  obtain ⟨rfl, notBlank, notSemicolon⟩ : b = false ∧ isBlank c ≠ true ∧ c ≠ ';' := by
    simpa using other
  rcases step_cases h with ⟨inComment, -⟩ | ⟨blank, -⟩ | ⟨-, rfl⟩ | ⟨-, closed⟩ | ⟨semicolon, -⟩ |
    ⟨-, rfl⟩
  · cases inComment
  · exact absurd blank notBlank
  · simp [size, openRow, endWord]
  · cases closed
  · exact absurd semicolon notSemicolon
  · simp [size]

theorem foldlM_passes (row : List Sexp) (h : Passes b cs) :
    ∃ b', cs.foldlM step ⟨b, [], row, []⟩ = some ⟨b', [], row, []⟩ := by
  induction cs generalizing b with
  | nil => exact ⟨b, rfl⟩
  | cons c cs ih =>
      obtain ⟨first, rest⟩ := passes_cons.mp h
      obtain ⟨b', run⟩ := ih rest
      exact ⟨b', by simp [step_idle first, run]⟩

/-- What is not passed over is read. -/
theorem passes_or_lt_size (h : cs.foldlM step ⟨b, [], row, []⟩ = some r) :
    Passes b cs ∨ rowSize row < r.size := by
  induction cs generalizing b with
  | nil => exact .inl ⟨fun _ => nofun, quiet_nil⟩
  | cons c cs ih =>
      obtain ⟨r₁, first, rest⟩ := foldlM_cons_eq_some_iff.mp h
      by_cases passed : b = false → isBlank c = true ∨ c = ';'
      · rw [step_idle passed] at first
        cases first
        rcases ih rest with quiet | more
        · exact .inl (passes_cons.mpr ⟨passed, quiet⟩)
        · exact .inr more
      · have settled : r₁.Settled := Settled.step (fun _ => rfl) first
        exact .inr (Nat.lt_of_lt_of_le (lt_size_of_step passed first) (settled.foldlM rest).2)

end Reader

end Hornbook.Sexp
