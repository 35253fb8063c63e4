import Mathlib.Data.List.Perm.Basic
import Hornbook.Json.Basic
import Hornbook.Proofs.Lists

/-!
# Records in JSON

A value gives a record if it is an array of its fields in order, or an object with a member for
each field and any other members, in any order (`Json.IsRecord`).  What else a value may be is
listed in `Json.RecordFlaw`.  A value that has a flaw gives no record whose fields are all right,
and a value that has none gives one (`Json.recordFlaw_iff`).
-/

namespace Hornbook.Json

variable {names : List (List Char)} {values : List Json}
  {members others : List (Option (List Char) × Json)} {name : List Char} {value : Json}

/-- The members that have these names and values. -/
def namedMembers (names : List (List Char)) (values : List Json) :
    List (Option (List Char) × Json) :=
  (names.zip values).map fun field => (some field.1, field.2)

/-- A value gives a record, with the values of its fields in the order of their names. -/
inductive IsRecord (names : List (List Char)) (values : List Json) : Json → Prop where
  | array : values.length = names.length → IsRecord names values (.array values)
  | object {members others : List (Option (List Char) × Json)} : values.length = names.length →
      members.Perm (namedMembers names values ++ others) →
      (∀ m ∈ others, ∃ name, m.1 = some name ∧ name ∉ names) →
      IsRecord names values (.object members)

/-! ## Reading -/

theorem member?_eq_some_iff :
    member? members name = some value ↔
      members.filter (fun m => m.1 = some name) = [(some name, value)] := by
  have named : ∀ m ∈ members.filter (fun m => m.1 = some name), m.1 = some name := by simp
  rw [member?]
  split
  next m only =>
    have same : m.1 = some name := named m (by simp [only])
    simp [only, Prod.ext_iff, same]
  next other =>
    simp only [reduceCtorEq, false_iff]
    exact other (some name, value)

/-- A name finds its value among members that have it once. -/
theorem member?_of_perm (distinct : names.Nodup) (same : values.length = names.length)
    (perm : members.Perm (namedMembers names values ++ others))
    (other : ∀ m ∈ others, ∃ name, m.1 = some name ∧ name ∉ names)
    (field : (name, value) ∈ names.zip values) : member? members name = some value := by
  rw [member?_eq_some_iff, ← List.perm_singleton]
  refine (perm.filter _).trans ?_
  have listed : name ∈ names := (List.of_mem_zip field).1
  have noOther : others.filter (fun m => m.1 = some name) = [] := by
    rw [List.filter_eq_nil_iff]
    intro m mem
    obtain ⟨other, named, unlisted⟩ := other m mem
    have different : other ≠ name := fun same => unlisted (same ▸ listed)
    simpa [named] using different
  have keys : ((names.zip values).map Prod.fst).Nodup := by
    rwa [List.map_fst_zip (by omega)]
  have once := filter_key_eq_singleton keys field
  rw [List.filter_append, noOther, List.append_nil, namedMembers, List.filter_map]
  simp [Function.comp_def, once]

/-- Another name finds the same among the members without a name. -/
theorem member?_filter_ne {other : List Char} (different : name ≠ other) :
    member? (members.filter fun m => m.1 ≠ some other) name = member? members name := by
  have unmoved (m : Option (List Char) × Json) :
      (m.1 = some name ∧ m.1 ≠ some other) ↔ m.1 = some name :=
    ⟨And.left, fun named => ⟨named, by simpa [named] using different⟩⟩
  simp only [member?, List.filter_filter, ← Bool.decide_and, unmoved]

/-- Members that have each name once are the fields and members of other names. -/
theorem perm_of_member? (distinct : names.Nodup)
    (found : List.Forall₂ (fun name value => member? members name = some value) names values) :
    members.Perm (namedMembers names values
      ++ members.filter fun m => ∀ name ∈ names, m.1 ≠ some name) := by
  induction names generalizing members values with
  | nil =>
      cases found
      simp [namedMembers]
  | cons name names ih =>
      obtain ⟨value, values, first, later, rfl⟩ := List.forall₂_cons_left_iff.mp found
      obtain ⟨unlisted, distinct⟩ := List.nodup_cons.mp distinct
      have others : List.Forall₂ (fun name' value =>
          member? (members.filter fun m => m.1 ≠ some name) name' = some value) names values := by
        refine (forall₂_congr_of_mem fun name' mem value _ => ?_).mpr later
        have different : name' ≠ name := fun same => unlisted (same ▸ mem)
        rw [member?_filter_ne different]
      have once : members.filter (fun m => m.1 = some name) = [(some name, value)] :=
        member?_eq_some_iff.mp first
      have split := List.filter_append_perm (fun m => decide (m.1 = some name)) members
      rw [once] at split
      refine split.symm.trans ?_
      simpa [namedMembers, List.filter_filter, Bool.and_comm] using ih distinct others

theorem isSome_of_perm (perm : members.Perm (namedMembers names values ++ others))
    (other : ∀ m ∈ others, ∃ name, m.1 = some name ∧ name ∉ names) :
    ∀ m ∈ members, m.1.isSome = true := by
  intro m mem
  rcases List.mem_append.mp (perm.mem_iff.mp mem) with field | rest
  · obtain ⟨field, -, rfl⟩ := List.mem_map.mp field
    rfl
  · obtain ⟨name, named, -⟩ := other m rest
    rw [named]
    rfl

/-- A record is read as the values of its fields. -/
theorem record?_eq_some_iff {j : Json} (distinct : names.Nodup) :
    j.record? names = some values ↔ j.IsRecord names values := by
  constructor
  · intro read
    cases j with
    | array es =>
        obtain ⟨same, rfl⟩ : es.length = names.length ∧ es = values := by
          simpa [record?] using read
        exact .array same
    | object members =>
        obtain ⟨readable, read⟩ : (∀ m ∈ members, m.1.isSome = true) ∧
            names.mapM (member? members) = some values := by
          simpa [record?] using read
        have found := mapM_eq_some_iff.mp read
        refine .object found.length_eq.symm (perm_of_member? distinct found) fun m mem => ?_
        obtain ⟨mem, unlisted⟩ := List.mem_filter.mp mem
        obtain ⟨name, named⟩ := Option.isSome_iff_exists.mp (readable m mem)
        exact ⟨name, named, fun listed => (of_decide_eq_true unlisted) name listed named⟩
    | _ => cases read
  · intro record
    cases record with
    | array same => simp [record?, same]
    | @object members others same perm other =>
        have readable := isSome_of_perm perm other
        have found : names.mapM (member? members) = some values := by
          rw [mapM_eq_some_iff, List.forall₂_iff_zip]
          exact ⟨same.symm, member?_of_perm distinct same perm other⟩
        rw [record?, if_pos (List.all_eq_true.mpr readable), found]

/-! ## Flaws -/

/-- The ways in which a value fails to give a record.  A field is a name and what it is for a
value to be wrong there. -/
inductive RecordFlaw (fields : List (List Char × (Json → Prop))) : Json → Prop where
  /-- Neither an array nor an object. -/
  | shape {j : Json} : (∀ es, j ≠ array es) → (∀ ms, j ≠ object ms) → RecordFlaw fields j
  /-- Fewer or more elements than fields. -/
  | length {es : List Json} : es.length ≠ fields.length → RecordFlaw fields (array es)
  /-- An element that is wrong as the field in its place. -/
  | element {es : List Json} {field : List Char × (Json → Prop)} {value : Json} :
      (field, value) ∈ fields.zip es → field.2 value → RecordFlaw fields (array es)
  /-- A member without a name that can be read. -/
  | unreadable {members : List (Option (List Char) × Json)} {value : Json} :
      (none, value) ∈ members → RecordFlaw fields (object members)
  /-- No member for a field. -/
  | missing {members : List (Option (List Char) × Json)} {field : List Char × (Json → Prop)} :
      field ∈ fields → (∀ m ∈ members, m.1 ≠ some field.1) → RecordFlaw fields (object members)
  /-- More than one member for a field. -/
  | twice {members : List (Option (List Char) × Json)} {field : List Char × (Json → Prop)}
      {value other : Json} : field ∈ fields →
      [(some field.1, value), (some field.1, other)].Sublist members →
      RecordFlaw fields (object members)
  /-- A member that is wrong as the field it names. -/
  | member {members : List (Option (List Char) × Json)} {field : List Char × (Json → Prop)}
      {value : Json} : field ∈ fields → (some field.1, value) ∈ members → field.2 value →
      RecordFlaw fields (object members)

variable {fields : List (List Char × (Json → Prop))} {j : Json}

theorem IsRecord.length_eq (h : j.IsRecord names values) : values.length = names.length := by
  cases h with
  | array same => exact same
  | object same => exact same

theorem IsRecord.isSome (h : (Json.object members).IsRecord names values) :
    ∀ m ∈ members, m.1.isSome = true := by
  cases h with
  | object _ perm other => exact isSome_of_perm perm other

/-- An object that gives a record has one member for each field. -/
theorem IsRecord.filter_eq_singleton (h : (Json.object members).IsRecord names values)
    (distinct : names.Nodup) (field : (name, value) ∈ names.zip values) :
    members.filter (fun m => m.1 = some name) = [(some name, value)] := by
  cases h with
  | object same perm other =>
      exact member?_eq_some_iff.mp (member?_of_perm distinct same perm other field)

theorem IsRecord.mem_members (h : (Json.object members).IsRecord names values)
    (distinct : names.Nodup) (field : (name, value) ∈ names.zip values) :
    (some name, value) ∈ members :=
  List.mem_of_mem_filter (h.filter_eq_singleton distinct field ▸ List.mem_singleton_self _)

/-- The value of a field. -/
theorem IsRecord.exists_value (h : j.IsRecord (fields.map Prod.fst) values)
    {field : List Char × (Json → Prop)} (mem : field ∈ fields) :
    ∃ value, (field, value) ∈ fields.zip values ∧
      (field.1, value) ∈ (fields.map Prod.fst).zip values := by
  obtain ⟨i, inside, rfl⟩ := List.getElem_of_mem mem
  have same : values.length = fields.length := by simpa using h.length_eq
  have here : (fields[i], values[i]) ∈ fields.zip values :=
    List.mem_iff_getElem.mpr ⟨i, by simp; omega, by simp⟩
  refine ⟨values[i], here, ?_⟩
  rw [List.zip_map_left]
  exact List.mem_map_of_mem here

/-- A flaw leaves no record whose fields are all right. -/
theorem RecordFlaw.exists_wrong (flaw : RecordFlaw fields j)
    (distinct : (fields.map Prod.fst).Nodup) (record : j.IsRecord (fields.map Prod.fst) values) :
    ∃ p ∈ fields.zip values, p.1.2 p.2 := by
  cases flaw with
  | shape noArray noObject =>
      cases record with
      | array => exact absurd rfl (noArray _)
      | object => exact absurd rfl (noObject _)
  | length differs =>
      cases record with
      | array same => exact absurd (by simpa using same) differs
  | element mem wrong =>
      cases record with
      | array => exact ⟨_, mem, wrong⟩
  | unreadable mem => cases record.isSome _ mem
  | missing listed absent =>
      obtain ⟨value, -, field⟩ := record.exists_value listed
      exact absurd rfl (absent _ (record.mem_members distinct field))
  | @twice _ field _ _ listed both =>
      obtain ⟨value, -, inside⟩ := record.exists_value listed
      have more := (both.filter fun m => decide (m.1 = some field.1)).length_le
      rw [record.filter_eq_singleton distinct inside] at more
      simp at more
  | @member _ field value listed mem wrong =>
      obtain ⟨found, here, inside⟩ := record.exists_value listed
      have same : (some field.1, value) ∈ [(some field.1, found)] := by
        rw [← record.filter_eq_singleton distinct inside]
        simpa using mem
      obtain rfl : value = found := by simpa using same
      exact ⟨_, here, wrong⟩

/-- A name that finds no value stands at no member or at two. -/
theorem absent_or_twice_of_member?_eq_none (h : member? members name = none) :
    (∀ m ∈ members, m.1 ≠ some name) ∨
      ∃ value other, [(some name, value), (some name, other)].Sublist members := by
  have inside : (members.filter fun m => m.1 = some name).Sublist members := List.filter_sublist
  have named : ∀ m ∈ members.filter (fun m => m.1 = some name), m.1 = some name := by simp
  match found : members.filter (fun m => decide (m.1 = some name)) with
  | [] =>
      left
      simpa using List.filter_eq_nil_iff.mp found
  | [m] =>
      rw [member?, found] at h
      cases h
  | (first, value) :: (second, other) :: more =>
      rw [found] at inside named
      obtain rfl : first = some name := named (first, value) (by simp)
      obtain rfl : second = some name := named (second, other) (by simp)
      have both : [(some name, value), (some name, other)].Sublist
          ((some name, value) :: (some name, other) :: more) := by simp
      exact .inr ⟨value, other, both.trans inside⟩

/-- An object gives a record, or names of its members are unreadable, missing or repeated. -/
theorem exists_isRecord_or_recordFlaw (distinct : (fields.map Prod.fst).Nodup)
    (members : List (Option (List Char) × Json)) :
    (∃ values, (object members).IsRecord (fields.map Prod.fst) values) ∨
      RecordFlaw fields (object members) := by
  by_cases unreadable : ∃ value, (none, value) ∈ members
  · obtain ⟨value, mem⟩ := unreadable
    exact .inr (.unreadable mem)
  · have readable : ∀ m ∈ members, m.1.isSome = true := by
      rintro ⟨name, value⟩ mem
      cases name with
      | none => exact absurd ⟨value, mem⟩ unreadable
      | some name => rfl
    cases found : (fields.map Prod.fst).mapM (member? members) with
    | some values =>
        refine .inl ⟨values, (record?_eq_some_iff distinct).mp ?_⟩
        rw [record?, if_pos (List.all_eq_true.mpr readable), found]
    | none =>
        obtain ⟨name, named, missing⟩ := mapM_eq_none_iff.mp found
        obtain ⟨field, listed, rfl⟩ := List.mem_map.mp named
        rcases absent_or_twice_of_member?_eq_none missing with absent | ⟨_, _, both⟩
        · exact .inr (.missing listed absent)
        · exact .inr (.twice listed both)

/-- What gives no record whose fields are all right has a flaw. -/
theorem recordFlaw_of_forall (distinct : (fields.map Prod.fst).Nodup)
    (h : ∀ values, j.IsRecord (fields.map Prod.fst) values → ∃ p ∈ fields.zip values, p.1.2 p.2) :
    RecordFlaw fields j := by
  cases j with
  | array es =>
      by_cases same : es.length = fields.length
      · obtain ⟨p, mem, wrong⟩ := h es (.array (by simpa using same))
        exact .element mem wrong
      · exact .length same
  | object members =>
      rcases exists_isRecord_or_recordFlaw distinct members with ⟨values, record⟩ | flaw
      · obtain ⟨⟨field, value⟩, mem, wrong⟩ := h values record
        have inside : (field.1, value) ∈ (fields.map Prod.fst).zip values := by
          rw [List.zip_map_left]
          exact List.mem_map_of_mem mem
        exact .member (List.of_mem_zip mem).1 (record.mem_members distinct inside) wrong
      · exact flaw
  | _ => exact .shape nofun nofun

/-- A value has a flaw exactly when it gives no record whose fields are all right. -/
theorem recordFlaw_iff (distinct : (fields.map Prod.fst).Nodup) :
    RecordFlaw fields j ↔
      ∀ values, j.IsRecord (fields.map Prod.fst) values → ∃ p ∈ fields.zip values, p.1.2 p.2 :=
  ⟨fun flaw _ record => flaw.exists_wrong distinct record, recordFlaw_of_forall distinct⟩

/-- A record is read, and then its fields. -/
theorem record?_bind_eq_some_iff {α : Type} {read : List Json → Option α} {a : α}
    (distinct : names.Nodup) :
    j.record? names >>= read = some a ↔
      ∃ values, j.IsRecord names values ∧ read values = some a := by
  simp only [Option.bind_eq_bind, Option.bind_eq_some_iff, record?_eq_some_iff distinct]

theorem record?_bind_eq_none_iff {α : Type} {read : List Json → Option α}
    (distinct : (fields.map Prod.fst).Nodup)
    (unread : ∀ values, values.length = fields.length →
      (read values = none ↔ ∃ p ∈ fields.zip values, p.1.2 p.2)) :
    j.record? (fields.map Prod.fst) >>= read = none ↔ RecordFlaw fields j := by
  rw [recordFlaw_iff distinct, Option.bind_eq_bind, Option.bind_eq_none_iff]
  refine forall_congr' fun values => ?_
  rw [record?_eq_some_iff distinct]
  refine forall_congr' fun record => unread values ?_
  simpa using record.length_eq

/-! ## Fields -/

/-- Not a string that denotes a text. -/
def NotText (j : Json) : Prop := ∀ cs, j ≠ string (some cs)

theorem text?_eq_some_iff {cs : List Char} : j.text? = some cs ↔ j = string (some cs) := by
  cases j <;> simp [text?]

theorem text?_eq_none_iff : j.text? = none ↔ j.NotText := by
  rw [Option.eq_none_iff_forall_ne_some, NotText]
  exact forall_congr' fun cs => not_congr text?_eq_some_iff

/-- Not an array, or an array with an element that is wrong. -/
inductive ListFlaw (wrong : Json → Prop) : Json → Prop where
  | shape {j : Json} : (∀ es, j ≠ array es) → ListFlaw wrong j
  | element {es : List Json} {e : Json} : e ∈ es → wrong e → ListFlaw wrong (array es)

/-- The elements of an array are read one by one. -/
theorem elements?_mapM_eq_some_iff {α : Type} {read : Json → Option α} {gives : α → Json → Prop}
    (reads : ∀ e a, read e = some a ↔ gives a e) {as : List α} :
    j.elements? >>= List.mapM read = some as ↔ ∃ es, j = array es ∧ List.Forall₂ gives as es := by
  have turned : (fun e a => read e = some a) = flip gives :=
    funext₂ fun e a => propext (reads e a)
  have both (es : List Json) : List.Forall₂ (flip gives) es as ↔ List.Forall₂ gives as es :=
    ⟨List.Forall₂.flip, List.Forall₂.flip⟩
  cases j <;> simp [elements?, mapM_eq_some_iff, turned, both]

theorem elements?_mapM_eq_none_iff {α : Type} {read : Json → Option α} {wrong : Json → Prop}
    (unread : ∀ e, read e = none ↔ wrong e) :
    j.elements? >>= List.mapM read = none ↔ ListFlaw wrong j := by
  constructor
  · intro h
    cases j with
    | array es =>
        obtain ⟨e, mem, none⟩ := mapM_eq_none_iff.mp h
        exact .element mem ((unread e).mp none)
    | _ => exact .shape nofun
  · rintro (shape | ⟨mem, wrong⟩)
    · cases j with
      | array es => exact absurd rfl (shape es)
      | _ => rfl
    · exact mapM_eq_none_iff.mpr ⟨_, mem, (unread _).mpr wrong⟩

end Hornbook.Json
