import Hornbook.Proofs.Smt.Command

/-!
# The lines of a script are its commands

No command of a legible script has a line break in it, so the lines of the script's text are
the texts of its commands (`Script.Legible.textLines_text`).  Whatever a line tells of its
command, the text of the script therefore tells of all commands, in order
(`Script.told_by_lines`).

The script without commands prints no text, and that has one line.  So it is set apart here.
-/

namespace Hornbook.Script

/-- Every command of a script is legible. -/
def Legible (s : Script) : Prop := ∀ c ∈ s.commands, c.Legible

variable {s t : Script}

theorem chars_eq_nil_iff : s.chars = [] ↔ s.commands = [] := by
  obtain ⟨commands⟩ := s
  cases commands with
  | nil => simp [chars]
  | cons c cs => cases cs <;> simp [chars, c.chars_ne_nil]

theorem text_inj : s.text = t.text ↔ s.chars = t.chars := by
  rw [← String.toList_inj, toList_text, toList_text]

/-- The lines of a script that has commands are the commands. -/
theorem Legible.textLines_text (h : s.Legible) (nonempty : s.commands ≠ []) :
    textLines s.text = s.commands.map Command.text := by
  have lines : ∀ cs ∈ s.commands.map Command.chars, '\n' ∉ cs :=
    List.forall_mem_map.mpr fun c mem => (h c mem).newline_notMem
  have split : s.chars.splitOn '\n' = s.commands.map Command.chars :=
    List.splitOn_intercalate '\n' lines (by simpa using nonempty)
  rw [textLines, toList_text, split, List.map_map]
  rfl

/-- The names that the lines of a script declare are the names that the script declares. -/
theorem Legible.filterMap_declaredName? (h : s.Legible) :
    (textLines s.text).filterMap Command.declaredName? = s.declaredSymbols := by
  by_cases empty : s.commands = []
  · have nothing : s.text = "" := by simp [text, chars, empty]
    rw [nothing, declaredSymbols, empty]
    decide
  · rw [h.textLines_text empty, List.filterMap_map, declaredSymbols]
    exact List.filterMap_congr fun c mem => (h c mem).declaredName?_text

/-- Scripts have one text when their commands have the same texts. -/
theorem Legible.text_eq_iff_map (h : s.Legible) (h' : t.Legible) :
    s.text = t.text ↔ s.commands.map Command.text = t.commands.map Command.text := by
  constructor
  · intro same
    by_cases empty : s.commands = []
    · have none : t.commands = [] := by
        rwa [← chars_eq_nil_iff, ← text_inj.mp same, chars_eq_nil_iff]
      rw [empty, none]
    · have some : t.commands ≠ [] := by
        rwa [← chars_eq_nil_iff.ne, ← text_inj.mp same, chars_eq_nil_iff.ne]
      rw [← h.textLines_text empty, same, h'.textLines_text some]
  · intro same
    have pieces : s.commands.map Command.chars = t.commands.map Command.chars := by
      simpa [Function.comp_def, Command.text] using congrArg (List.map String.toList) same
    rw [text_inj, chars, chars, pieces]

/-- Two legible scripts have one text when their commands are alike, one by one. -/
theorem Legible.text_eq_iff (h : s.Legible) (h' : t.Legible) :
    s.text = t.text ↔ List.Forall₂ Command.Alike s.commands t.commands := by
  have texts := forall₂_iff_map_eq (R := fun c d => c.text = d.text) (fun _ _ => .rfl)
    s.commands t.commands
  rw [h.text_eq_iff_map h', ← texts]
  exact forall₂_congr_of_mem fun c mem d mem' => (h c mem).text_eq_iff (h' d mem')

/-- What the text of a script tells.  Its lines are the commands, and the names that its lines
declare are the names that the script declares.  Another script has this text only if it has as
many commands and each is alike. -/
theorem told_by_lines (h : s.Legible) :
    (s.commands ≠ [] →
        textLines s.text = s.commands.map Command.text ∧ (textLines s.text).length = s.length)
      ∧ (textLines s.text).filterMap Command.declaredName? = s.declaredSymbols
      ∧ ∀ t : Script, t.Legible →
          (t.text = s.text ↔ List.Forall₂ Command.Alike t.commands s.commands) := by
  refine ⟨fun nonempty => ?_, h.filterMap_declaredName?, fun t legible => legible.text_eq_iff h⟩
  have lines := h.textLines_text nonempty
  exact ⟨lines, by rw [lines, List.length_map, length]⟩

/-- Two spellings of one script print alike.  A comment that looks like a declaration declares
nothing. -/
theorem told_by_lines_declaration :
    (horn.extend [.comment "(declare-fun q () Bool)",
        .declareFun ⟨"p_0", ⟨[.uninterpreted "S"], .bool⟩⟩, .assert (.app "p_0" [])]).text
      = (horn.extend [.comment "(declare-fun q () Bool)",
        .declareFun ⟨"p_0", ⟨[.datatype "S"], .bool⟩⟩, .assert (.const "p_0")]).text
    ∧ (textLines (horn.extend [.comment "(declare-fun q () Bool)",
        .declareFun ⟨"p_0", ⟨[.datatype "S"], .bool⟩⟩, .assert (.const "p_0")]).text).filterMap
          Command.declaredName? = ["p_0"] := by
  have name : IsName "p_0" := by decide
  have sortName : IsSortName "S" := by decide
  have legible (s : SmtSort) (t : Term) (sort : s.Legible) (term : t.Legible) :
      (horn.extend [.comment "(declare-fun q () Bool)",
        .declareFun ⟨"p_0", ⟨[s], .bool⟩⟩, .assert t]).Legible := by
    have logic : Sexp.IsWord "HORN".toList := isWord_of_isSimpleSymbol rfl
    have symbol : Sexp.IsWord "p_0".toList := isWord_of_isSimpleSymbol name.1
    simp only [Legible, horn, commands_extend, List.cons_append, List.nil_append,
      List.forall_mem_cons]
    exact ⟨.setLogic logic, .comment (by decide),
      .declareFun symbol (List.forall_mem_singleton.mpr sort) .bool, .assert term,
      List.forall_mem_nil _⟩
  have plain := legible (.datatype "S") (.const "p_0") (.datatype sortName) (.const name)
  have spelled := legible (.uninterpreted "S") (.app "p_0" []) (.uninterpreted sortName)
    (.app name (List.forall_mem_nil _))
  obtain ⟨-, declares, tells⟩ := told_by_lines plain
  refine ⟨(tells _ spelled).mpr ?_, declares⟩
  exact .cons (.refl _) <| .cons (.refl _) <|
    .cons (.declareFun "p_0" (Signature.alike_iff.mpr rfl)) <|
      .cons (.assert (.bare "p_0")) .nil

end Hornbook.Script
