import Hornbook.Sexp.Reader

/-!
# Printed expressions are read back

An expression whose words are words (`Sexp.Tidy`) is read back from its printed form, with
nothing lost and nothing added (`ofText?_text`).  The machine does not know that an
expression is complete before it sees what comes next, so what is proved of a part of a
text is that the machine is `Behind` it.

The printed form is one word, or it is one expression in parentheses.  The second is said
without a reader, by counting parentheses (`IsBracketed`).
-/

namespace Hornbook.Sexp

/-- One word: at least one character, and none that ends a word. -/
def IsWord (cs : List Char) : Prop := cs ≠ [] ∧ ∀ c ∈ cs, isDelimiter c = false

/-- All atoms of an expression are words. -/
inductive Tidy : Sexp → Prop where
  | atom {word : String} : IsWord word.toList → Tidy (.atom word)
  | list {items : List Sexp} : (∀ x ∈ items, Tidy x) → Tidy (.list items)

variable {x : Sexp} {items row : List Sexp} {outer : List (List Sexp)} {c : Char}
  {cs word front behind : List Char}

theorem Tidy.nil : Tidy (.list []) := .list (List.forall_mem_nil Tidy)

theorem Tidy.cons (h : x.Tidy) (h' : Tidy (.list items)) : Tidy (.list (x :: items)) := by
  cases h' with
  | list rest => exact .list (List.forall_mem_cons.mpr ⟨h, rest⟩)

/-! ## Reading -/

namespace Reader

variable {r : Reader}

/-- The machine after a text that is complete up to the end of its last word. -/
def Behind (r : Reader) (row : List Sexp) (outer : List (List Sexp)) : Prop :=
  r.endWord = ⟨false, [], row, outer⟩

theorem behind_of_row (row : List Sexp) (outer : List (List Sexp)) :
    Behind ⟨false, [], row, outer⟩ row outer := rfl

theorem inComment_endWord (r : Reader) : r.endWord.inComment = r.inComment := by
  unfold endWord
  split
  · rfl
  · rfl

theorem Behind.inComment (h : r.Behind row outer) : r.inComment = false := by
  rw [← inComment_endWord, h]

theorem Behind.step_blank (h : r.Behind row outer) :
    r.step ' ' = some ⟨false, [], row, outer⟩ := by
  rw [step, h.inComment, h]
  rfl

theorem Behind.step_close {above : List Sexp} (h : r.Behind row (above :: outer)) :
    r.step ')' = some ⟨false, [], .list row.reverse :: above, outer⟩ := by
  rw [step, h.inComment, h]
  rfl

theorem Behind.finish (h : r.Behind row []) : r.finish = some row.reverse := by
  have same : r.endWord.outer = r.outer := by
    unfold endWord
    split
    · rfl
    · rfl
  rw [h] at same
  rw [Reader.finish, ← same, h]

theorem step_of_not_delimiter (h : isDelimiter c = false) :
    step ⟨false, word, row, outer⟩ c = some ⟨false, c :: word, row, outer⟩ := by
  simp only [isDelimiter, Bool.or_eq_false_iff, decide_eq_false_iff_not] at h
  obtain ⟨⟨⟨blank, opening⟩, closing⟩, semicolon⟩ := h
  simp [step, blank, opening, closing, semicolon]

theorem foldlM_word (h : ∀ c ∈ cs, isDelimiter c = false) :
    cs.foldlM step ⟨false, word, row, outer⟩ = some ⟨false, cs.reverse ++ word, row, outer⟩ := by
  induction cs generalizing word with
  | nil => rfl
  | cons c cs ih =>
      obtain ⟨first, rest⟩ := List.forall_mem_cons.mp h
      rw [List.foldlM_cons, step_of_not_delimiter first, List.reverse_cons, List.append_assoc]
      exact ih rest

/-- In a comment the machine stands still until the line ends. -/
theorem foldlM_inComment (h : '\n' ∉ cs) :
    cs.foldlM step ⟨true, word, row, outer⟩ = some ⟨true, word, row, outer⟩ := by
  induction cs with
  | nil => rfl
  | cons c cs ih =>
      rw [List.mem_cons, not_or] at h
      obtain ⟨first, rest⟩ := h
      have passed : step ⟨true, word, row, outer⟩ c = some ⟨true, word, row, outer⟩ := by
        simp [step, Ne.symm first]
      simp [passed, ih rest]

/-- The characters of an expression bring the machine behind it. -/
def Takes (x : Sexp) : Prop :=
  ∀ row outer, ∃ r, x.chars.foldlM step ⟨false, [], row, outer⟩ = some r ∧
    r.Behind (x :: row) outer

theorem takes_atom {word : String} (h : IsWord word.toList) : Takes (.atom word) := by
  intro row outer
  refine ⟨_, foldlM_word h.2, ?_⟩
  rw [List.append_nil, Behind, endWord]
  split
  next empty => exact absurd (List.reverse_eq_nil_iff.mp empty) h.1
  next c cs reversed =>
    have chars : c :: cs = word.toList.reverse := reversed.symm
    simp only [chars, List.reverse_reverse, String.ofList_toList]

theorem foldlM_tailChars (h : ∀ x ∈ items, Takes x) (before : r.Behind row outer) :
    ∃ r', (tailChars items).foldlM step r = some r' ∧
      r'.Behind (items.reverse ++ row) outer := by
  induction items generalizing r row with
  | nil => exact ⟨r, rfl, before⟩
  | cons x items ih =>
      obtain ⟨first, rest⟩ := List.forall_mem_cons.mp h
      obtain ⟨r₁, taken, behind⟩ := first row outer
      obtain ⟨r', takenRest, behindRest⟩ := ih rest behind
      refine ⟨r', ?_, ?_⟩
      · rw [tailChars_cons, List.foldlM_cons, before.step_blank]
        show (x.chars ++ tailChars items).foldlM step _ = some r'
        rw [List.foldlM_append, taken]
        exact takenRest
      · rwa [List.reverse_cons, List.append_assoc]

theorem foldlM_rowChars (h : ∀ x ∈ items, Takes x) (outer : List (List Sexp)) :
    ∃ r, (rowChars items).foldlM step ⟨false, [], [], outer⟩ = some r ∧
      r.Behind items.reverse outer := by
  cases items with
  | nil => exact ⟨_, rfl, behind_of_row [] outer⟩
  | cons x items =>
      obtain ⟨first, rest⟩ := List.forall_mem_cons.mp h
      obtain ⟨r₁, taken, behind⟩ := first [] outer
      obtain ⟨r, takenRest, behindRest⟩ := foldlM_tailChars rest behind
      refine ⟨r, ?_, ?_⟩
      · rw [rowChars_cons, List.foldlM_append, taken]
        exact takenRest
      · rwa [List.reverse_cons]

theorem takes_list (h : ∀ x ∈ items, Takes x) : Takes (.list items) := by
  intro row outer
  obtain ⟨r, taken, behind⟩ := foldlM_rowChars h (row :: outer)
  refine ⟨⟨false, [], .list items :: row, outer⟩, ?_, behind_of_row _ outer⟩
  have opened : step ⟨false, [], row, outer⟩ '(' = some ⟨false, [], [], row :: outer⟩ := rfl
  rw [chars_list, List.foldlM_cons, opened]
  show (rowChars items ++ [')']).foldlM step ⟨false, [], [], row :: outer⟩ = _
  rw [List.foldlM_append, taken]
  show [')'].foldlM step r = _
  rw [List.foldlM_cons, behind.step_close, List.reverse_reverse]
  rfl

end Reader

theorem Tidy.takes (h : x.Tidy) : Reader.Takes x := by
  induction h with
  | atom isWord => exact Reader.takes_atom isWord
  | list _ ih => exact Reader.takes_list ih

theorem Tidy.ofChars?_chars (h : x.Tidy) : ofChars? x.chars = some [x] := by
  obtain ⟨r, taken, behind⟩ := h.takes [] []
  rw [ofChars?, Reader.start, taken]
  exact behind.finish

/-- A printed expression is read back. -/
theorem Tidy.ofText?_text (h : x.Tidy) : ofText? x.text = some x := by
  rw [ofText?, toList_text, h.ofChars?_chars]

/-- A comment that nothing stands in front of is no expression. -/
theorem ofChars?_comment (h : '\n' ∉ cs) : ofChars? (';' :: cs) = some [] := by
  have begun : Reader.step Reader.start ';' = some ⟨true, [], [], []⟩ := rfl
  simp [ofChars?, begun, Reader.foldlM_inComment h, Reader.finish, Reader.endWord]

/-! ## Characters -/

theorem mem_tailChars (h : c ∈ tailChars items) : c = ' ' ∨ ∃ x ∈ items, c ∈ x.chars := by
  induction items with
  | nil => cases h
  | cons x items ih =>
      simp only [tailChars_cons, List.mem_cons, List.mem_append] at h
      rcases h with blank | here | there
      · exact .inl blank
      · exact .inr ⟨x, List.mem_cons_self, here⟩
      · obtain blank | ⟨y, mem, here⟩ := ih there
        · exact .inl blank
        · exact .inr ⟨y, List.mem_cons_of_mem x mem, here⟩

theorem mem_rowChars (h : c ∈ rowChars items) : c = ' ' ∨ ∃ x ∈ items, c ∈ x.chars := by
  cases items with
  | nil => cases h
  | cons x items => exact mem_tailChars (List.mem_cons_of_mem ' ' h)

/-- Of the characters that end words, a printed expression has only blanks and parentheses. -/
theorem Tidy.of_mem_chars (h : x.Tidy) (mem : c ∈ x.chars) :
    isDelimiter c = false ∨ c = ' ' ∨ c = '(' ∨ c = ')' := by
  induction h with
  | atom isWord => exact .inl (isWord.2 c mem)
  | list _ ih =>
      simp only [chars_list, List.mem_cons, List.mem_append, List.not_mem_nil, or_false] at mem
      rcases mem with opening | inside | closing
      · exact .inr (.inr (.inl opening))
      · obtain blank | ⟨y, member, here⟩ := mem_rowChars inside
        · exact .inr (.inl blank)
        · exact ih y member here
      · exact .inr (.inr (.inr closing))

/-- A printed expression stands on one line. -/
theorem Tidy.newline_notMem (h : x.Tidy) : '\n' ∉ x.chars := by
  intro mem
  rcases h.of_mem_chars mem with other | blank | opening | closing
  · cases other
  · cases blank
  · cases opening
  · cases closing

/-! ## Parentheses -/

/-- How many parentheses are open behind a text. -/
def depth (cs : List Char) : Int := cs.count '(' - cs.count ')'

/-- One expression in parentheses.  The first parenthesis is closed by the last character
and not before. -/
structure IsBracketed (cs : List Char) : Prop where
  opened : cs.head? = some '('
  closed : depth cs = 0
  inside : ∀ front behind, cs = front ++ behind → front ≠ [] → behind ≠ [] → 0 < depth front

/-- Every parenthesis of a text is closed in it, and none closes one from before. -/
def Level (cs : List Char) : Prop :=
  depth cs = 0 ∧ ∀ front behind, cs = front ++ behind → 0 ≤ depth front

theorem depth_append (front behind : List Char) :
    depth (front ++ behind) = depth front + depth behind := by
  simp only [depth, List.count_append]
  omega

theorem depth_open (cs : List Char) : depth ('(' :: cs) = 1 + depth cs := by
  rw [← List.singleton_append, depth_append]
  rfl

theorem level_of_notMem (noOpen : '(' ∉ cs) (noClose : ')' ∉ cs) : Level cs := by
  have flat : ∀ front : List Char, (∀ c ∈ front, c ∈ cs) → depth front = 0 := by
    intro front inside
    rw [depth, List.count_eq_zero.mpr (mt (inside _) noOpen),
      List.count_eq_zero.mpr (mt (inside _) noClose)]
    rfl
  refine ⟨flat cs fun c mem => mem, ?_⟩
  rintro front behind rfl
  exact Int.le_of_eq (flat front fun c mem => List.mem_append_left _ mem).symm

theorem Level.append (h : Level front) (h' : Level behind) : Level (front ++ behind) := by
  refine ⟨by rw [depth_append, h.1, h'.1]; rfl, ?_⟩
  intro a b split
  rcases List.append_eq_append_iff.mp split with ⟨middle, rfl, rest⟩ | ⟨middle, rest, -⟩
  · have tail := h'.2 middle b rest
    rw [depth_append, h.1]
    omega
  · exact h.2 a middle rest

/-- A level text in parentheses is one expression. -/
theorem Level.isBracketed (h : Level cs) : IsBracketed ('(' :: (cs ++ [')'])) := by
  have closing : depth [')'] = -1 := rfl
  refine ⟨rfl, by rw [depth_open, depth_append, h.1, closing]; rfl, ?_⟩
  intro front behind split nonempty rest
  cases front with
  | nil => exact absurd rfl nonempty
  | cons c front =>
      obtain ⟨rfl, tail⟩ := List.cons.inj split
      rw [depth_open]
      rcases List.append_eq_append_iff.mp tail with ⟨middle, longer, last⟩ | ⟨middle, shorter, -⟩
      · -- the last parenthesis is not in front, because something is behind
        have empty : middle = [] := by
          cases middle with
          | nil => rfl
          | cons d middle =>
              obtain ⟨-, nothing⟩ := List.cons.inj last
              exact absurd (List.append_eq_nil_iff.mp nothing.symm).2 rest
        rw [longer, empty, List.append_nil, h.1]
        decide
      · have inner := h.2 front middle shorter
        omega

theorem IsBracketed.level (h : IsBracketed cs) : Level cs := by
  refine ⟨h.closed, ?_⟩
  intro front behind split
  by_cases empty : front = []
  · rw [empty]
    exact Int.le_refl 0
  · by_cases full : behind = []
    · rw [full, List.append_nil] at split
      rw [← split]
      exact Int.le_of_eq h.closed.symm
    · exact Int.le_of_lt (h.inside front behind split empty full)

theorem IsWord.level (h : IsWord cs) : Level cs := by
  refine level_of_notMem ?_ ?_
  · intro mem
    cases h.2 _ mem
  · intro mem
    cases h.2 _ mem

theorem level_tailChars (h : ∀ x ∈ items, Level x.chars) : Level (tailChars items) := by
  have blank : Level [' '] := level_of_notMem (by decide) (by decide)
  induction items with
  | nil => exact level_of_notMem (by simp) (by simp)
  | cons x items ih =>
      obtain ⟨first, rest⟩ := List.forall_mem_cons.mp h
      exact blank.append (first.append (ih rest))

theorem level_rowChars (h : ∀ x ∈ items, Level x.chars) : Level (rowChars items) := by
  cases items with
  | nil => exact level_of_notMem (by simp) (by simp)
  | cons x items =>
      obtain ⟨first, rest⟩ := List.forall_mem_cons.mp h
      exact first.append (level_tailChars rest)

/-- A printed expression is one word or one expression in parentheses. -/
theorem Tidy.isWord_or_isBracketed (h : x.Tidy) : IsWord x.chars ∨ IsBracketed x.chars := by
  induction h with
  | atom isWord => exact .inl isWord
  | list _ ih =>
      refine .inr (Level.isBracketed (level_rowChars fun x mem => ?_))
      rcases ih x mem with isWord | isBracketed
      · exact isWord.level
      · exact isBracketed.level

end Hornbook.Sexp
