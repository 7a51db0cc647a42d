import AresaDb.Schemas.Registry
import AresaDb.Store.IdText

/-! # Validation of properties

`Schema::validate` and `FieldType::matches` (`schema/registry.rs`).  Null matches every type, the
check of nullability being another one, but the other check asks only whether the field is there.
So a map passes when its nulls are overlooked (`Schema.validate_ok_iff`), which is what the schema
says unless a null stands where none may (`schema_validate_exact`). -/

namespace AresaDb.Schemas

open AresaDb.Store

/-! ### The checks -/

/-- `FieldType::matches`; the parser of UUIDs is the library's. -/
def FieldType.matches (T : UuidText) : FieldType → Value → Bool
  | _, .null => true
  | .string, .string _ => true
  | .int, .int _ => true
  | .float, .float _ => true
  | .float, .int _ => true
  | .bool, .bool _ => true
  | .json, .object _ => true
  | .json, .array _ => true
  | .bytes, .bytes _ => true
  | .uuid, .string s => (T.parse s).isSome
  | .enum values, .string s => values.contains s
  | .array inner, .array arr => arr.all fun v => FieldType.matches T inner v
  | .reference _, .string s => (T.parse s).isSome
  | _, _ => false

inductive ValidationError where
  | missing (name : String)
  | mismatch (key : String) (expected : FieldType) (got : Value)

def Schema.getField (s : Schema) (name : String) : Option SchemaField :=
  s.fields.find? fun f => f.name == name

def Schema.missing (s : Schema) (properties : Props) : List ValidationError :=
  (s.fields.filter fun f => !f.nullable && (properties[f.name]?).isNone).map fun f =>
    .missing f.name

def Schema.mismatches (T : UuidText) (s : Schema) (properties : Props) : List ValidationError :=
  properties.toList.filterMap fun e =>
    (s.getField e.1).bind fun f =>
      if f.fieldType.matches T e.2 then none else some (.mismatch e.1 f.fieldType e.2)

def Schema.validate (T : UuidText) (s : Schema) (properties : Props) :
    Except (List ValidationError) Unit :=
  let errors := s.missing properties ++ s.mismatches T properties
  if errors.isEmpty then .ok () else .error errors

/-! ### What the schema says -/

/-- The values of a type, null being one of none.  A type of arrays does not say whether an element
may be null: `nulls` is the reading. -/
def FieldType.domain (T : UuidText) (nulls : Bool) : FieldType → Set Value
  | .string => Set.range .string
  | .int => Set.range .int
  | .float => Set.range .float ∪ Set.range .int
  | .bool => Set.range .bool
  | .dateTime => ∅
  | .json => Set.range .object ∪ Set.range .array
  | .bytes => Set.range .bytes
  | .uuid | .reference _ => {v | ∃ s, v = .string s ∧ (T.parse s).isSome}
  | .enum values => {v | ∃ s ∈ values, v = .string s}
  | .array inner =>
      {v | ∃ l, v = .array l ∧ ∀ x ∈ l, x ∈ inner.domain T nulls ∨ nulls = true ∧ x = .null}

/-- The map is one of the schema. -/
structure Schema.Valid (T : UuidText) (nulls : Bool) (s : Schema) (properties : Props) : Prop where
  required : ∀ f ∈ s.fields, f.nullable = false → ∃ v, properties[f.name]? = some v ∧ v ≠ .null
  typed : ∀ f ∈ s.fields, ∀ v, properties[f.name]? = some v →
    v = .null ∧ f.nullable = true ∨ v ∈ f.fieldType.domain T nulls

/-- A null among the elements, at any depth of the type. -/
def FieldType.nullElement : FieldType → Value → Bool
  | .array inner, .array l => l.any fun v => v.isNull || inner.nullElement v
  | _, _ => false

/-- A null stands where none may. -/
def Schema.StrayNull (nulls : Bool) (s : Schema) (properties : Props) : Prop :=
  ∃ f ∈ s.fields, ∃ v, properties[f.name]? = some v ∧
    (v = .null ∧ f.nullable = false ∨ nulls = false ∧ f.fieldType.nullElement v = true)

/-- A field is not there, or its value does not match. -/
def Schema.Fails (T : UuidText) (s : Schema) (properties : Props) : Prop :=
  ∃ f ∈ s.fields, f.nullable = false ∧ properties[f.name]? = none ∨
    ∃ v, properties[f.name]? = some v ∧ f.fieldType.matches T v = false

/-! ### The check of types -/

@[simp] theorem FieldType.matches_null (T : UuidText) (t : FieldType) :
    t.matches T .null = true := by
  cases t <;> rfl

theorem isNull_iff (v : Value) : v.isNull = true ↔ v = .null := by
  cases v <;> simp [Value.isNull]

/-- An element that matches is one of the type, but for its nulls. -/
theorem element_iff {nulls m n : Bool} {v : Value} {P : Prop}
    (h : P ↔ v ≠ .null ∧ m = true ∧ (nulls = true ∨ n = false)) (hm : v = .null → m = true) :
    P ∨ nulls = true ∧ v = .null ↔ m = true ∧ (nulls = true ∨ v.isNull = false ∧ n = false) := by
  have hnull : v.isNull = false ↔ v ≠ .null := by
    rw [← Bool.not_eq_true, isNull_iff]
  rw [h, hnull]
  tauto

/-- The values of a type are what matches it, but for null and, as `nulls` says, null elements. -/
theorem FieldType.mem_domain_iff (T : UuidText) (nulls : Bool) (t : FieldType) (v : Value) :
    v ∈ t.domain T nulls ↔
      v ≠ .null ∧ t.matches T v = true ∧ (nulls = true ∨ t.nullElement v = false) := by
  induction t generalizing v with
  | array inner ih =>
      cases v with
      | array l =>
          have helement : ∀ x ∈ l, (x ∈ inner.domain T nulls ∨ nulls = true ∧ x = .null) ↔
              inner.matches T x = true ∧
                (nulls = true ∨ x.isNull = false ∧ inner.nullElement x = false) := by
            intro x _
            exact element_iff (ih x) fun hx => by rw [hx, matches_null]
          have hdomain : Value.array l ∈ (FieldType.array inner).domain T nulls ↔
              ∀ x ∈ l, x ∈ inner.domain T nulls ∨ nulls = true ∧ x = .null := by
            simp [domain]
          rw [hdomain, forall₂_congr helement]
          cases nulls <;> simp [FieldType.matches, nullElement, forall_and]
      | _ => simp [domain, FieldType.matches]
  | _ => cases v <;> simp [domain, FieldType.matches, nullElement]

/-! ### The two loops -/

variable {s : Schema} {properties : Props}

theorem Schema.getField_eq_some_iff (h : (s.fields.map SchemaField.name).Nodup) (key : String)
    (f : SchemaField) : s.getField key = some f ↔ f ∈ s.fields ∧ f.name = key := by
  unfold getField
  constructor
  · intro hf
    exact ⟨List.mem_of_find?_eq_some hf, by simpa using List.find?_some hf⟩
  · rintro ⟨hf, rfl⟩
    obtain ⟨g, hg⟩ : ∃ g, s.fields.find? (fun g => g.name == f.name) = some g := by
      rw [← Option.isSome_iff_exists, List.find?_isSome]
      exact ⟨f, hf, by simp⟩
    have hname : g.name = f.name := by simpa using List.find?_some hg
    rw [hg, List.inj_on_of_nodup_map h (List.mem_of_find?_eq_some hg) hf hname]

theorem Schema.missing_eq_nil_iff : s.missing properties = [] ↔
    ∀ f ∈ s.fields, f.nullable = false → properties[f.name]? ≠ none := by
  simp [missing, List.filter_eq_nil_iff]

theorem Schema.mismatches_eq_nil_iff (T : UuidText) (h : (s.fields.map SchemaField.name).Nodup) :
    s.mismatches T properties = [] ↔
      ∀ f ∈ s.fields, ∀ v, properties[f.name]? = some v → f.fieldType.matches T v = true := by
  unfold mismatches
  rw [List.filterMap_eq_nil_iff]
  constructor
  · intro hall f hf v hv
    have hnone := hall (f.name, v) ((OrdMap.mem_toList _ _ _).mpr hv)
    rw [(getField_eq_some_iff h f.name f).mpr ⟨hf, rfl⟩] at hnone
    simpa using hnone
  · rintro hall ⟨key, v⟩ he
    rw [OrdMap.mem_toList] at he
    cases hf : s.getField key with
    | none => rfl
    | some f =>
        obtain ⟨hmem, rfl⟩ := (getField_eq_some_iff h key f).mp hf
        simp [hall f hmem v he]

/-- What passes: nulls are overlooked, wherever they are. -/
theorem Schema.validate_ok_iff (T : UuidText) (h : (s.fields.map SchemaField.name).Nodup) :
    s.validate T properties = .ok () ↔ ¬ s.Fails T properties := by
  have hok : s.validate T properties = .ok () ↔
      s.missing properties = [] ∧ s.mismatches T properties = [] := by
    rw [← List.append_eq_nil_iff, ← List.isEmpty_iff, validate]
    split_ifs with he <;> simp [he]
  rw [hok, missing_eq_nil_iff, mismatches_eq_nil_iff T h, Fails]
  push Not
  rw [← forall₂_and]
  simp

/-- A map of the schema is one that passes and has no null where none may stand. -/
theorem Schema.valid_iff (T : UuidText) (nulls : Bool) :
    s.Valid T nulls properties ↔ ¬ s.Fails T properties ∧ ¬ s.StrayNull nulls properties := by
  constructor
  · intro h
    constructor
    · rintro ⟨f, hf, ⟨hnullable, hnone⟩ | ⟨v, hv, hmatch⟩⟩
      · obtain ⟨v, hv, -⟩ := h.required f hf hnullable
        rw [hnone] at hv
        cases hv
      · rw [Bool.eq_false_iff] at hmatch
        obtain ⟨rfl, -⟩ | hdomain := h.typed f hf v hv
        · exact hmatch (f.fieldType.matches_null T)
        · exact hmatch ((f.fieldType.mem_domain_iff T nulls v).mp hdomain).2.1
    · rintro ⟨f, hf, v, hv, ⟨rfl, hnullable⟩ | ⟨hnulls, helement⟩⟩
      · obtain ⟨w, hw, hne⟩ := h.required f hf hnullable
        exact hne (Option.some.inj (hw.symm.trans hv))
      · obtain ⟨rfl, -⟩ | hdomain := h.typed f hf v hv
        · cases ht : f.fieldType <;> simp [ht, FieldType.nullElement] at helement
        · have hno := ((f.fieldType.mem_domain_iff T nulls v).mp hdomain).2.2
          simp [hnulls, helement] at hno
  · rintro ⟨hpass, hstray⟩
    refine ⟨fun f hf hnullable => ?_, fun f hf v hv => ?_⟩
    · cases hv : properties[f.name]? with
      | none => exact (hpass ⟨f, hf, .inl ⟨hnullable, hv⟩⟩).elim
      | some v =>
          refine ⟨v, rfl, fun hnull => hstray ⟨f, hf, v, hv, .inl ⟨hnull, hnullable⟩⟩⟩
    · by_cases hnull : v = .null
      · refine .inl ⟨hnull, ?_⟩
        by_contra hnullable
        exact hstray ⟨f, hf, v, hv, .inl ⟨hnull, Bool.eq_false_iff.mpr hnullable⟩⟩
      · refine .inr ((f.fieldType.mem_domain_iff T nulls v).mpr ⟨hnull, ?_, ?_⟩)
        · by_contra hmatch
          exact hpass ⟨f, hf, .inr ⟨v, hv, Bool.eq_false_iff.mpr hmatch⟩⟩
        · by_contra hno
          rw [not_or, Bool.not_eq_true, Bool.not_eq_false] at hno
          exact hstray ⟨f, hf, v, hv, .inr hno⟩

/-! ### Exactness -/

/-- Validation is exact just when no null stands where none may, or the map fails anyway. -/
theorem schema_validate_exact (T : UuidText) (nulls : Bool) (s : Schema) (properties : Props)
    (h : (s.fields.map SchemaField.name).Nodup) :
    (s.validate T properties = .ok () ↔ s.Valid T nulls properties) ↔
      ¬ s.StrayNull nulls properties ∨ s.Fails T properties := by
  rw [s.validate_ok_iff T h, s.valid_iff T nulls]
  tauto

/-- A name that must not be null. -/
def namedSchema : Schema where
  name := "users"
  fields :=
    [{ name := "name", fieldType := .string, nullable := false, unique := false, indexed := false,
       default := none, description := none }]
  version := 1
  createdAt := 0
  updatedAt := 0

def nullName : Props := (∅ : Props).insert "name" .null

theorem nullName_get : nullName["name"]? = some .null := OrdMap.get_insert_self _ _ _

/-- A null in a field that must not be null passes. -/
theorem schema_validate_null :
    ¬ (namedSchema.validate hexText nullName = .ok () ↔
        namedSchema.Valid hexText true nullName) := by
  have hok : namedSchema.validate hexText nullName = .ok () := by
    rw [namedSchema.validate_ok_iff hexText (by decide)]
    rintro ⟨f, hf, hcase⟩
    obtain rfl := List.mem_singleton.mp hf
    simp [nullName_get] at hcase
  intro h
  obtain ⟨v, hv, hne⟩ := (h.mp hok).required _ (List.mem_singleton_self _) rfl
  exact hne (Option.some.inj (hv.symm.trans nullName_get))

def plainField (name : String) (fieldType : FieldType) (nullable : Bool) : SchemaField where
  name := name
  fieldType := fieldType
  nullable := nullable
  unique := false
  indexed := false
  default := none
  description := none

/-- A name that must not be null, an age and a list of grades. -/
def pupilSchema : Schema where
  name := "pupils"
  fields :=
    [plainField "name" .string false, plainField "age" .int true,
      plainField "grades" (.array (.enum ["A", "B"])) true]
  version := 1
  createdAt := 0
  updatedAt := 0

def pupil (name age : Value) (grades : List Value) : Props :=
  (((∅ : Props).insert "name" name).insert "age" age).insert "grades" (.array grades)

/-- A pupil without an age, one with a grade that is none, and one with a null for a grade. -/
theorem schema_validate_exact_pupils :
    ((pupilSchema.validate hexText (pupil (.string "Ann") .null [.string "A"])).isOk = true ∧
      (pupilSchema.validate hexText (pupil (.string "Bob") (.int 9) [.string "C"])).isOk = false ∧
      (pupilSchema.validate hexText (pupil (.string "Cid") (.int 9) [.null])).isOk = true) ∧
    ((pupilSchema.validate hexText (pupil (.string "Ann") .null [.string "A"]) = .ok () ↔
        pupilSchema.Valid hexText false (pupil (.string "Ann") .null [.string "A"])) ↔
      ¬ pupilSchema.StrayNull false (pupil (.string "Ann") .null [.string "A"]) ∨
        pupilSchema.Fails hexText (pupil (.string "Ann") .null [.string "A"])) ∧
    ((pupilSchema.validate hexText (pupil (.string "Bob") (.int 9) [.string "C"]) = .ok () ↔
        pupilSchema.Valid hexText false (pupil (.string "Bob") (.int 9) [.string "C"])) ↔
      ¬ pupilSchema.StrayNull false (pupil (.string "Bob") (.int 9) [.string "C"]) ∨
        pupilSchema.Fails hexText (pupil (.string "Bob") (.int 9) [.string "C"])) ∧
    ((pupilSchema.validate hexText (pupil (.string "Cid") (.int 9) [.null]) = .ok () ↔
        pupilSchema.Valid hexText false (pupil (.string "Cid") (.int 9) [.null])) ↔
      ¬ pupilSchema.StrayNull false (pupil (.string "Cid") (.int 9) [.null]) ∨
        pupilSchema.Fails hexText (pupil (.string "Cid") (.int 9) [.null])) := by
  refine ⟨⟨by decide +kernel, by decide +kernel, by decide +kernel⟩, ?_, ?_, ?_⟩
  · exact schema_validate_exact hexText false pupilSchema _ (by decide)
  · exact schema_validate_exact hexText false pupilSchema _ (by decide)
  · exact schema_validate_exact hexText false pupilSchema _ (by decide)

end AresaDb.Schemas
