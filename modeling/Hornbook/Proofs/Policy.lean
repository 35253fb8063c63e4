import Hornbook.Event
import Hornbook.Proofs.Lists
import Hornbook.Proofs.Text.Blank

/-!
# Which texts name a policy

`Spells` says when a text is a word: blanks stand around it, and its letters are small or
capital.  It mentions neither trimming nor lower case.  A text names a policy exactly when it
spells one of the four words.  Every other text is refused and quoted as it was given
(`DuplicatePolicy.ReadsExactly`).

Only ASCII letters have two forms here.  The tables of lower case know other letters with an
ASCII letter in their lower case, and none of them widens what is accepted.  The result does not
depend on the tables at all, so long as they are right about ASCII and about the two exceptions
(`DuplicatePolicy.ofTextBy_eq`).

A variable always gives a policy.  It warns exactly when it is set to a text that names none
(`DuplicatePolicy.policy_texts_exact`).  It can also be set to bytes that are no text.  Those are
ignored without a warning, so such a variable looks as if it had not been set
(`DuplicatePolicy.heeded_iff`).
-/

namespace Hornbook

namespace Text

/-- A text is a word with blanks around it and with its letters in either case. -/
def Spells (s word : String) : Prop :=
  ∃ front cs back, s.toList = front ++ cs ++ back ∧ (∀ c ∈ front, isBlank c = true) ∧
    (∀ c ∈ back, isBlank c = true) ∧ cs.map Char.toLower = word.toList

/-- What becomes a word in small letters has no blanks to be trimmed. -/
theorem trim_eq_self_of_wordly {cs : List Char}
    (wordly : ∀ c ∈ cs.map Char.toLower, isWordChar c = true) : trim cs = cs := by
  refine trim_of_forall_not fun c mem => ?_
  obtain ⟨above, below, -⟩ := isWordChar_iff.mp (wordly c.toLower (List.mem_map_of_mem mem))
  rw [← isBlank_toLower, isBlank_eq_false_of_visible above below]

/-- To spell a word is to be that word when trimmed and in small letters. -/
theorem spells_iff {s word : String} (wordly : word.toList.all isWordChar = true) :
    Spells s word ↔ (trim s.toList).map Char.toLower = word.toList := by
  constructor
  · rintro ⟨front, cs, back, split, blankFront, blankBack, same⟩
    rw [List.all_eq_true, ← same] at wordly
    rw [split, trim_append blankFront blankBack, trim_eq_self_of_wordly wordly, same]
  · intro same
    obtain ⟨front, back, split, blankFront, blankBack⟩ := exists_trim s.toList
    exact ⟨front, trim s.toList, back, split, blankFront, blankBack, same⟩

end Text

namespace DuplicatePolicy

open Text

variable {s t : String} {policy : DuplicatePolicy} {lowering : List Char → List Char}

/-! ## The words -/

theorem words_distinct : (words.map Prod.fst).Nodup := by decide

theorem words_wordly : (words.all fun entry => entry.1.all isWordChar) = true := by decide

theorem isWordChar_of_mem_words {entry : List Char × DuplicatePolicy} (mem : entry ∈ words) :
    ∀ c ∈ entry.1, isWordChar c = true :=
  List.all_eq_true.mp (List.all_eq_true.mp words_wordly entry mem)

/-! ## Lower-casings -/

/-- The policy that a text names, if this is its lower case. -/
def ofTextBy (lowering : List Char → List Char) (s : String) :
    Except UnknownPolicy DuplicatePolicy :=
  match words.lookup (lowering (trim s.toList)) with
  | some policy => .ok policy
  | none => .error ⟨s⟩

theorem ofText_eq_ofTextBy (s : String) : ofText s = ofTextBy lower s := rfl

/-- Small letters are as good as any lower-casing. -/
theorem ofTextBy_eq_small (lawful : IsLowerCasing lowering) (s : String) :
    ofTextBy lowering s = ofTextBy (List.map Char.toLower) s := by
  have sameEntry : words.lookup (lowering (trim s.toList))
      = words.lookup ((trim s.toList).map Char.toLower) :=
    lookup_congr fun entry mem => lawful.eq_iff (isWordChar_of_mem_words mem) _
  rw [ofTextBy, ofTextBy, sameEntry]

/-- A text names the same policy under every lower-casing. -/
theorem ofTextBy_eq (lawful : IsLowerCasing lowering) (s : String) :
    ofTextBy lowering s = ofText s := by
  rw [ofText_eq_ofTextBy, ofTextBy_eq_small lawful, ofTextBy_eq_small lower_isLowerCasing]

/-! ## Accepted and refused texts -/

theorem ofText_eq_ok_iff :
    ofText s = .ok policy ↔ ((trim s.toList).map Char.toLower, policy) ∈ words := by
  rw [ofText_eq_ofTextBy, ofTextBy_eq_small lower_isLowerCasing, ofTextBy,
    ← lookup_eq_some_iff_mem words_distinct]
  split
  next found => simp [found]
  next missing => simp [missing]

theorem given_of_ofText {fault : UnknownPolicy} (answer : ofText s = .error fault) :
    fault = ⟨s⟩ := by
  unfold ofText at answer
  split at answer
  · cases answer
  · exact (Except.error.inj answer).symm

theorem ofText_of_refused (refused : ∀ policy, ofText s ≠ .ok policy) :
    ofText s = .error ⟨s⟩ := by
  cases answer : ofText s with
  | ok policy => exact absurd answer (refused policy)
  | error fault => rw [given_of_ofText answer]

theorem ofText_eq_reject_iff : ofText s = .ok .reject ↔ Spells s "reject" := by
  rw [ofText_eq_ok_iff, spells_iff (by decide)]
  simp [words]

theorem ofText_eq_reuseIdentical_iff :
    ofText s = .ok .reuseIdentical ↔
      Spells s "reuse-identical" ∨ Spells s "reuse_identical" ∨ Spells s "reuse" := by
  rw [ofText_eq_ok_iff, spells_iff (by decide), spells_iff (by decide), spells_iff (by decide)]
  simp [words]

theorem ofText_append_blanks {front back : String}
    (blankFront : ∀ c ∈ front.toList, isBlank c = true)
    (blankBack : ∀ c ∈ back.toList, isBlank c = true) :
    ofText (front ++ s ++ back) = .ok policy ↔ ofText s = .ok policy := by
  rw [ofText_eq_ok_iff, ofText_eq_ok_iff, String.toList_append, String.toList_append,
    trim_append blankFront blankBack]

theorem ofText_congr_case (same : t.toList.map Char.toLower = s.toList.map Char.toLower) :
    ofText t = .ok policy ↔ ofText s = .ok policy := by
  rw [ofText_eq_ok_iff, ofText_eq_ok_iff, ← trim_map_toLower, same, trim_map_toLower]

/-- What is neither ASCII nor blank keeps a text from naming a policy. -/
theorem ofText_ne_ok_of_beyond {c : Char} (mem : c ∈ s.toList) (outside : 128 ≤ c.toNat)
    (solid : isBlank c = false) : ofText s ≠ .ok policy := by
  intro named
  rw [ofText_eq_ok_iff] at named
  obtain ⟨front, back, split, blankFront, blankBack⟩ := exists_trim s.toList
  have inside : c ∈ trim s.toList := by
    rw [split, List.mem_append, List.mem_append] at mem
    rcases mem with (inFront | inside) | inBack
    · exact absurd (blankFront c inFront) (by simp [solid])
    · exact inside
    · exact absurd (blankBack c inBack) (by simp [solid])
  have wordly := isWordChar_of_mem_words named c.toLower (List.mem_map_of_mem inside)
  rw [toLower_of_not_capital (by omega)] at wordly
  exact Nat.not_lt.mpr outside (isWordChar_iff.mp wordly).2.1

/-- All that there is to say about reading a policy from a text. -/
structure ReadsExactly (s : String) : Prop where
  reject : ofText s = .ok .reject ↔ Spells s "reject"
  reuseIdentical : ofText s = .ok .reuseIdentical ↔
    Spells s "reuse-identical" ∨ Spells s "reuse_identical" ∨ Spells s "reuse"
  /-- Any other text is refused, and the wording has it as it was given. -/
  refused : (∀ policy, ofText s ≠ .ok policy) → ∃ fault, ofText s = .error fault ∧
    fault.message
      = "Unknown duplicate policy: " ++ s ++ ". Valid options: reject, reuse-identical"
  /-- More blanks around the text change nothing. -/
  blanks : ∀ front back : String, (∀ c ∈ front.toList, isBlank c = true) →
    (∀ c ∈ back.toList, isBlank c = true) → ∀ policy,
      ofText (front ++ s ++ back) = .ok policy ↔ ofText s = .ok policy
  /-- The case of ASCII letters changes nothing. -/
  letters : ∀ t : String, t.toList.map Char.toLower = s.toList.map Char.toLower → ∀ policy,
    ofText t = .ok policy ↔ ofText s = .ok policy
  /-- No accepted text has a letter outside ASCII. -/
  ascii : ∀ c ∈ s.toList, 128 ≤ c.toNat → isBlank c = false → ∀ policy, ofText s ≠ .ok policy
  /-- The tables of lower case change nothing. -/
  lowering : ∀ lowering, IsLowerCasing lowering → ofTextBy lowering s = ofText s

theorem readsExactly (s : String) : ReadsExactly s where
  reject := ofText_eq_reject_iff
  reuseIdentical := ofText_eq_reuseIdentical_iff
  refused refused := ⟨⟨s⟩, ofText_of_refused refused, rfl⟩
  blanks _ _ blankFront blankBack _ := ofText_append_blanks blankFront blankBack
  letters _ same _ := ofText_congr_case same
  ascii _ mem outside solid _ := ofText_ne_ok_of_beyond mem outside solid
  lowering _ lawful := ofTextBy_eq lawful s

/-! ## Settings -/

theorem ofSetting_of_ok (named : ofText s = .ok policy) : ofSetting (some s) = (policy, []) := by
  rw [ofSetting, named]

theorem ofSetting_of_error {fault : UnknownPolicy} (refused : ofText s = .error fault) :
    ofSetting (some s) = (standard, [.policyIgnored fault]) := by
  rw [ofSetting, refused]

/-! ## Variables -/

variable {bytes : ByteArray}

/-- Bytes are read as a text exactly when they are its encoding. -/
theorem fromUTF8?_eq_some_iff : String.fromUTF8? bytes = some s ↔ s.toUTF8 = bytes := by
  unfold String.fromUTF8?
  constructor
  · intro read
    split at read
    · obtain rfl := Option.some.inj read
      rfl
    · cases read
  · rintro rfl
    rw [String.toUTF8_eq_toByteArray, dif_pos s.isValidUTF8]
    rfl

theorem ofVariable_toUTF8 (s : String) : ofVariable (some s.toUTF8) = ofSetting (some s) := by
  rw [ofVariable, Option.bind_some, fromUTF8?_eq_some_iff.mpr rfl]

/-- Bytes that are no text are dropped without a word. -/
theorem ofVariable_of_not_text (noText : ∀ t : String, t.toUTF8 ≠ bytes) :
    ofVariable (some bytes) = (.reject, []) := by
  have unread : String.fromUTF8? bytes = none :=
    Option.eq_none_iff_forall_ne_some.mpr fun t read => noText t (fromUTF8?_eq_some_iff.mp read)
  rw [ofVariable, Option.bind_some, unread]
  rfl

/-- A variable that is set to these bytes is not passed over.  Either they are a text, and the
variable silently gives the policy that it names, or there is one warning. -/
def Heeded (bytes : ByteArray) : Prop :=
  (∃ t policy, t.toUTF8 = bytes ∧ ofText t = .ok policy ∧ ofVariable (some bytes) = (policy, [])) ∨
  ∃ event, ofVariable (some bytes) = (.reject, [event]) ∧ event.level = .warn

/-- A variable is heeded exactly when it is set to a text. -/
theorem heeded_iff : Heeded bytes ↔ ∃ t : String, t.toUTF8 = bytes := by
  constructor
  · rintro (⟨t, -, isText, -⟩ | ⟨event, warned, -⟩)
    · exact ⟨t, isText⟩
    · by_contra noText
      rw [ofVariable_of_not_text (not_exists.mp noText)] at warned
      cases warned
  · rintro ⟨t, rfl⟩
    rw [Heeded, ofVariable_toUTF8]
    cases answer : ofText t with
    | ok policy => exact .inl ⟨t, policy, rfl, answer, ofSetting_of_ok answer⟩
    | error fault => exact .inr ⟨_, ofSetting_of_error answer, rfl⟩

/-- No character is encoded with a byte that has all bits set. -/
theorem toUTF8_ne_ff (t : String) : t.toUTF8 ≠ ⟨#[0xFF]⟩ := by
  have unread : String.fromUTF8? ⟨#[0xFF]⟩ = none := by decide +kernel
  intro isText
  cases unread.symm.trans (fromUTF8?_eq_some_iff.mpr isText)

/-- Every text is read as `ReadsExactly` says.  A variable that is set to a text gives the policy
that the text names, silently.  If the text names none, the variable refuses duplicates, and it
gives one warning that has the whole wording of the refusal.  A variable that is not set refuses
duplicates silently.  So does one that is set to bytes that are no text, which makes these the
bytes that are not heeded. -/
theorem policy_texts_exact (s : String) :
    ReadsExactly s ∧
    (∀ policy, ofText s = .ok policy → ofVariable (some s.toUTF8) = (policy, [])) ∧
    ((∀ policy, ofText s ≠ .ok policy) → ∃ event,
      ofVariable (some s.toUTF8) = (.reject, [event]) ∧
      event.level = .warn ∧ event.fields = [] ∧
      event.message = "SOL_CHC_DUPLICATE_POLICY: " ++ ("Unknown duplicate policy: " ++ s
        ++ ". Valid options: reject, reuse-identical")) ∧
    ofVariable none = (.reject, []) ∧
    ∀ bytes : ByteArray,
      ((∀ t : String, t.toUTF8 ≠ bytes) → ofVariable (some bytes) = (.reject, [])) ∧
      (Heeded bytes ↔ ∃ t : String, t.toUTF8 = bytes) := by
  refine ⟨readsExactly s, fun policy named => ?_, fun refused => ?_, rfl,
    fun _ => ⟨ofVariable_of_not_text, heeded_iff⟩⟩
  · rw [ofVariable_toUTF8, ofSetting_of_ok named]
  · rw [ofVariable_toUTF8]
    exact ⟨_, ofSetting_of_error (ofText_of_refused refused), rfl, rfl, rfl⟩

/-- Wide blanks and mixed case are accepted.  A capital I with a dot above is no variant of an
`i`, though its lower case begins with one, and the warning has it as it was given.  A byte with
all bits set begins no text. -/
theorem policy_texts_exact_dotted_i :
    ofText "\u3000rEUSE-Identical\n" = .ok .reuseIdentical ∧
    ofVariable (some "\u3000rEUSE-Identical\n".toUTF8) = (.reuseIdentical, []) ∧
    (∃ event, ofVariable (some " Reuse-\u0130dentical".toUTF8) = (.reject, [event]) ∧
      event.level = .warn ∧ event.message
        = "SOL_CHC_DUPLICATE_POLICY: Unknown duplicate policy:  Reuse-\u0130dentical. "
          ++ "Valid options: reject, reuse-identical") ∧
    ofVariable (some ⟨#[0xFF]⟩) = (.reject, []) := by
  obtain ⟨reads, named, -⟩ := policy_texts_exact "\u3000rEUSE-Identical\n"
  obtain ⟨reads', -, unnamed, -, values⟩ := policy_texts_exact " Reuse-\u0130dentical"
  have accepted : ofText "\u3000rEUSE-Identical\n" = .ok .reuseIdentical :=
    reads.reuseIdentical.mpr (.inl ⟨['\u3000'], "rEUSE-Identical".toList, ['\n'],
      by decide, List.forall_mem_singleton.mpr rfl, List.forall_mem_singleton.mpr rfl, by decide⟩)
  obtain ⟨event, warned, level, -, message⟩ :=
    unnamed (reads'.ascii '\u0130' (by decide) (by decide) (by decide))
  exact ⟨accepted, named _ accepted, ⟨event, warned, level, message.trans (by decide)⟩,
    (values _).1 toUTF8_ne_ff⟩

/-- Not every variable that is set is heeded.  One that is set to a single byte with all bits set
gives neither a policy that it names nor a warning. -/
theorem variable_not_heeded :
    ofVariable (some ⟨#[0xFF]⟩) = (.reject, []) ∧ ¬ Heeded ⟨#[0xFF]⟩ := by
  refine ⟨ofVariable_of_not_text toUTF8_ne_ff, fun heeded => ?_⟩
  obtain ⟨t, isText⟩ := heeded_iff.mp heeded
  exact toUTF8_ne_ff t isText

end DuplicatePolicy

end Hornbook
