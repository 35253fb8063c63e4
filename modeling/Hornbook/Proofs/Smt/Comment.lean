import Hornbook.Proofs.Sexp.Comment
import Hornbook.Proofs.Smt.Script
import Hornbook.Proofs.Text.Separated

/-!
# When comments are inert

A script is read as the expressions of its commands, comments apart, exactly when the text of
every comment is quiet (`Script.inert_comments_exact`).  A comment prints its semicolons once.
If its text has a line break, what stands behind that is read, unless it is blank or begins
with a semicolon of its own.  A line break is a line feed.  Where a carriage return ends a
comment too, a comment can also let something out behind one of those.
-/

namespace Hornbook

open Sexp

namespace Command

variable {x : Sexp}

/-- Whether a command is a note for the reader. -/
def isComment : Command → Bool
  | comment _ => true
  | _ => false

/-- The expression that a command is printed as.  A comment is none. -/
def expression? (c : Command) : Option Sexp := c.items?.map Sexp.list

theorem isNone_expression? (c : Command) : c.expression?.isNone = c.isComment := by
  cases c <;> rfl

theorem chars_of_expression? {c : Command} (h : c.expression? = some x) : c.chars = x.chars := by
  obtain ⟨items, printed, rfl⟩ := Option.map_eq_some_iff.mp h
  exact chars_of_items? printed

theorem eq_comment_of_expression? {c : Command} (h : c.expression? = none) :
    ∃ note, c = comment note :=
  eq_comment_of_items? (Option.map_eq_none_iff.mp h)

end Command

namespace Script

variable {s : Script} {c : Command} {cs : List Command} {x : Sexp} {row : List Sexp}
  {outer : List (List Sexp)} {r r' : Reader}

/-- The expressions that a script is printed as, in order. -/
def expressions (s : Script) : List Sexp := s.commands.filterMap Command.expression?

/-- The script with its comments taken out. -/
def withoutComments (s : Script) : Script := ⟨s.commands.filter (!·.isComment)⟩

theorem expressions_withoutComments (s : Script) :
    s.withoutComments.expressions = s.expressions := by
  rw [expressions, expressions, withoutComments, List.filterMap_filter]
  refine List.filterMap_congr fun c _ => ?_
  rw [← c.isNone_expression?]
  cases c.expression? <;> rfl

theorem comment_notMem_withoutComments (s : Script) (note : String) :
    .comment note ∉ s.withoutComments.commands := by
  simp [withoutComments, Command.isComment]

/-- The characters of commands, each with a line break behind it. -/
def lineChars (cs : List Command) : List Char := cs.flatMap fun c => c.chars ++ ['\n']

theorem foldlM_lineChars_cons (r : Reader) : (lineChars (c :: cs)).foldlM Reader.step r
    = (c.chars ++ ['\n']).foldlM Reader.step r >>= (lineChars cs).foldlM Reader.step := by
  rw [lineChars, List.flatMap_cons, List.foldlM_append]
  rfl

theorem chars_append_newline (nonempty : s.commands ≠ []) :
    s.chars ++ ['\n'] = lineChars s.commands := by
  rw [chars, intercalate_append_separator (by simpa using nonempty), List.flatMap_map]
  rfl

/-- A line break at the end of a script makes no difference to what is read. -/
theorem ofChars?_chars (s : Script) :
    ofChars? s.chars
      = (lineChars s.commands).foldlM Reader.step Reader.start >>= Reader.finish := by
  by_cases empty : s.commands = []
  · simp [chars, lineChars, empty, ofChars?]
  · rw [← chars_append_newline empty, List.foldlM_append, ofChars?]
    simp only [List.foldlM_cons, List.foldlM_nil, bind_pure, bind_assoc,
      Reader.step_newline_bind_finish]

/-- The line of an expression is read as the expression. -/
theorem foldlM_expression (tidy : x.Tidy) (printed : c.expression? = some x) :
    (c.chars ++ ['\n']).foldlM Reader.step ⟨false, [], row, outer⟩
      = some ⟨false, [], x :: row, outer⟩ := by
  obtain ⟨r, taken, behind⟩ := tidy.takes row outer
  have settled : r.Settled := by
    intro inComment
    rw [behind.inComment] at inComment
    cases inComment
  rw [Command.chars_of_expression? printed, List.foldlM_append, taken]
  simp [settled.step_newline, show r.endWord = _ from behind]

theorem passes_comment (note : String) :
    Passes false (Command.comment note).chars ↔ Quiet note.toList := by
  simp [Command.chars, passes_cons, commentAfter, passes_true]

/-- The line of a comment is passed over if its text is quiet. -/
theorem foldlM_comment {note : String} (quiet : Quiet note.toList) :
    ((Command.comment note).chars ++ ['\n']).foldlM Reader.step ⟨false, [], row, []⟩
      = some ⟨false, [], row, []⟩ := by
  obtain ⟨b, passed⟩ := Reader.foldlM_passes row ((passes_comment note).mpr quiet)
  rw [List.foldlM_append, passed]
  simp [Reader.step_idle, isBlank, commentAfter]

/-- What a line leaves behind is at rest, and it is no less than what was before and the
expression of the line. -/
theorem size_of_line (tidy : ∀ x, c.expression? = some x → x.Tidy)
    (h : (c.chars ++ ['\n']).foldlM Reader.step ⟨false, [], row, outer⟩ = some r) :
    ∃ row' outer', r = ⟨false, [], row', outer'⟩ ∧
      (Reader.mk false [] row outer).size + rowSize c.expression?.toList ≤ r.size := by
  cases printed : c.expression? with
  | some x =>
      rw [foldlM_expression (tidy x printed) printed] at h
      cases h
      refine ⟨x :: row, outer, rfl, ?_⟩
      simp [Reader.size]
      omega
  | none =>
      obtain ⟨before, taken, ended⟩ := foldlM_append_eq_some_iff.mp h
      obtain ⟨settled, more⟩ := Reader.Settled.foldlM (fun _ => rfl) taken
      simp only [List.foldlM_cons, List.foldlM_nil, bind_pure, settled.step_newline] at ended
      cases ended
      refine ⟨before.endWord.row, before.endWord.outer, ?_, ?_⟩
      · simp [before.word_endWord]
      · rw [← before.size_endWord] at more
        simpa [Reader.size] using more

/-- The same for the lines of a script. -/
theorem size_of_lines (tidy : ∀ c ∈ cs, ∀ x, c.expression? = some x → x.Tidy)
    (h : (lineChars cs).foldlM Reader.step ⟨false, [], row, outer⟩ = some r) :
    ∃ row' outer', r = ⟨false, [], row', outer'⟩ ∧
      (Reader.mk false [] row outer).size + rowSize (cs.filterMap Command.expression?)
        ≤ r.size := by
  induction cs generalizing row outer with
  | nil =>
      cases h
      exact ⟨row, outer, rfl, by simp⟩
  | cons c cs ih =>
      obtain ⟨first, rest⟩ := List.forall_mem_cons.mp tidy
      rw [foldlM_lineChars_cons] at h
      obtain ⟨r₁, line, lines⟩ := Option.bind_eq_some_iff.mp h
      obtain ⟨row₁, outer₁, rfl, more⟩ := size_of_line first line
      obtain ⟨row', outer', rfl, more'⟩ := ih rest lines
      have together : rowSize ((c :: cs).filterMap Command.expression?)
          = rowSize c.expression?.toList + rowSize (cs.filterMap Command.expression?) := by
        rw [← rowSize_append]
        cases printed : c.expression? <;> simp [printed]
      exact ⟨row', outer', rfl, by omega⟩

/-- Lines are read as their expressions if the comments are quiet. -/
theorem foldlM_lineChars (tidy : ∀ c ∈ cs, ∀ x, c.expression? = some x → x.Tidy)
    (quiet : ∀ note, .comment note ∈ cs → Quiet note.toList) :
    (lineChars cs).foldlM Reader.step ⟨false, [], row, []⟩
      = some ⟨false, [], (cs.filterMap Command.expression?).reverse ++ row, []⟩ := by
  induction cs generalizing row with
  | nil => rfl
  | cons c cs ih =>
      obtain ⟨first, rest⟩ := List.forall_mem_cons.mp tidy
      have others := fun note mem => quiet note (List.mem_cons_of_mem c mem)
      rw [foldlM_lineChars_cons]
      cases printed : c.expression? with
      | some x =>
          rw [foldlM_expression (first x printed) printed, List.filterMap_cons_some printed,
            List.reverse_cons, List.append_assoc]
          exact ih rest others
      | none =>
          obtain ⟨note, rfl⟩ := Command.eq_comment_of_expression? printed
          rw [foldlM_comment (quiet note List.mem_cons_self), List.filterMap_cons_none printed]
          exact ih rest others

/-- What the line of a comment leaves is more than what was before, if its text is not quiet. -/
theorem quiet_or_lt_size {note : String}
    (h : ((Command.comment note).chars ++ ['\n']).foldlM Reader.step ⟨false, [], row, []⟩
      = some r) :
    Quiet note.toList ∨ rowSize row < r.size := by
  obtain ⟨before, taken, ended⟩ := foldlM_append_eq_some_iff.mp h
  obtain ⟨settled, -⟩ := Reader.Settled.foldlM (fun _ => rfl) taken
  rw [← passes_comment]
  exact (Reader.passes_or_lt_size taken).imp id
    fun more => Nat.lt_of_lt_of_le more (settled.foldlM ended).2

/-- The comments are quiet if nothing but the expressions is read from the lines. -/
theorem quiet_of_size_le (tidy : ∀ c ∈ cs, ∀ x, c.expression? = some x → x.Tidy)
    (h : (lineChars cs).foldlM Reader.step ⟨false, [], row, []⟩ = some r)
    (small : r.size ≤ rowSize row + rowSize (cs.filterMap Command.expression?)) :
    ∀ note, .comment note ∈ cs → Quiet note.toList := by
  induction cs generalizing row with
  | nil => exact fun _ => nofun
  | cons c cs ih =>
      obtain ⟨first, rest⟩ := List.forall_mem_cons.mp tidy
      rw [foldlM_lineChars_cons] at h
      obtain ⟨r₁, line, lines⟩ := Option.bind_eq_some_iff.mp h
      cases printed : c.expression? with
      | some x =>
          rw [foldlM_expression (first x printed) printed] at line
          cases line
          rw [List.filterMap_cons_some printed] at small
          intro note mem
          refine ih rest lines ?_ note ?_
          · simpa [Nat.add_comm x.size, Nat.add_assoc] using small
          · rcases List.mem_cons.mp mem with rfl | mem
            · cases printed
            · exact mem
      | none =>
          obtain ⟨note, rfl⟩ := Command.eq_comment_of_expression? printed
          rw [List.filterMap_cons_none printed] at small
          rcases quiet_or_lt_size line with quiet | more
          · rw [foldlM_comment quiet] at line
            cases line
            intro note' mem
            rcases List.mem_cons.mp mem with same | mem
            · cases same
              exact quiet
            · exact ih rest lines small note' mem
          · -- what the comment left stays, and the other lines add their expressions to it
            obtain ⟨row₁, outer₁, rfl, -⟩ := size_of_line first line
            obtain ⟨-, -, -, rest⟩ := size_of_lines rest lines
            omega

/-- A script whose expressions are tidy is read as them exactly when its comments are quiet. -/
theorem ofChars?_chars_eq_some_iff (tidy : ∀ x ∈ s.expressions, x.Tidy) :
    ofChars? s.chars = some s.expressions ↔
      ∀ note, .comment note ∈ s.commands → Quiet note.toList := by
  have lines : ∀ c ∈ s.commands, ∀ x, c.expression? = some x → x.Tidy :=
    fun c mem x printed => tidy x (List.mem_filterMap.mpr ⟨c, mem, printed⟩)
  rw [ofChars?_chars]
  constructor
  · intro read
    obtain ⟨r, run, finished⟩ := Option.bind_eq_some_iff.mp read
    obtain ⟨row, outer, rfl, -⟩ := size_of_lines lines run
    cases outer with
    | nil =>
        have same : row.reverse = s.expressions := Option.some.inj finished
        refine quiet_of_size_le lines run ?_
        simp [Reader.size, ← rowSize_reverse row, same, expressions]
    | cons => cases finished
  · intro quiet
    rw [Reader.start, foldlM_lineChars lines quiet]
    simp [Reader.finish, Reader.endWord, expressions]

/-- Which comments are inert.  Without its comments, a script is read as its expressions.  With
them it is read as the same exactly when the text of every comment is quiet. -/
theorem inert_comments_exact (tidy : ∀ x ∈ s.expressions, x.Tidy) :
    ofChars? s.withoutComments.text.toList = some s.expressions ∧
      (ofChars? s.text.toList = ofChars? s.withoutComments.text.toList ↔
        ∀ note, .comment note ∈ s.commands → Quiet note.toList) := by
  have plain : ofChars? s.withoutComments.chars = some s.expressions := by
    have read := ofChars?_chars_eq_some_iff (s := s.withoutComments)
      (by rwa [expressions_withoutComments])
    rw [expressions_withoutComments] at read
    exact read.mpr fun note mem => absurd mem (comment_notMem_withoutComments s note)
  rw [toList_text, toList_text, plain]
  exact ⟨rfl, ofChars?_chars_eq_some_iff tidy⟩

/-- The text is read as without the comment, although the comment has two lines. -/
theorem inert_comments_exact_quiet :
    (∀ x ∈ (Script.mk [.comment "f\n; (exit)", .checkSat]).expressions, x.Tidy) ∧
      ofChars? (Script.mk [.comment "f\n; (exit)", .checkSat]).text.toList
        = ofChars? (Script.mk [.comment "f\n; (exit)", .checkSat]).withoutComments.text.toList := by
  have tidy : ∀ x ∈ (Script.mk [.comment "f\n; (exit)", .checkSat]).expressions, x.Tidy := by
    have checkSat : (Sexp.list [.atom "check-sat"]).Tidy := Command.Legible.checkSat.tidy rfl
    simpa [expressions, Command.expression?, Command.items?] using checkSat
  refine ⟨tidy, (inert_comments_exact tidy).2.mpr fun note mem => ?_⟩
  obtain rfl : note = "f\n; (exit)" := by simpa using mem
  simp [quiet_cons, commentFirst_cons, quiet_nil]

/-- Not every comment is inert.  The second line of this one is read as a command. -/
theorem exists_comment_not_inert :
    ¬ ∀ s : Script, (∀ x ∈ s.expressions, x.Tidy) →
      ofChars? s.text.toList = ofChars? s.withoutComments.text.toList := by
  intro inert
  have tidy : ∀ x ∈ (Script.mk [.comment "f\n(exit)", .checkSat]).expressions, x.Tidy := by
    have checkSat : (Sexp.list [.atom "check-sat"]).Tidy := Command.Legible.checkSat.tidy rfl
    simpa [expressions, Command.expression?, Command.items?] using checkSat
  have same := congrArg (Option.map List.length) (inert _ tidy)
  rw [toList_text, toList_text] at same
  revert same
  decide

end Script

end Hornbook
