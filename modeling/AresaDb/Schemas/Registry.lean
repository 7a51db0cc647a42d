import AresaDb.Store.Json

/-! # Schemas

Schemas and field types (`schema/registry.rs`) with their JSON.  A schema that went through the
storage of values is read back as it was exactly when it has fields and its enumerations have
values; else it is read back as nothing (`Schema.fromJson_collapse`). -/

namespace AresaDb.Schemas

open AresaDb.Store

inductive FieldType where
  | string
  | int
  | float
  | bool
  | dateTime
  | json
  | bytes
  | uuid
  /-- One of the values. -/
  | enum (values : List String)
  | array (inner : FieldType)
  /-- A reference to another schema. -/
  | reference (target : String)
deriving DecidableEq

structure SchemaField where
  name : String
  fieldType : FieldType
  nullable : Bool
  unique : Bool
  indexed : Bool
  /-- As a JSON string. -/
  default : Option String
  description : Option String
deriving DecidableEq

structure Schema where
  name : String
  fields : List SchemaField
  version : UInt32
  createdAt : Int64
  updatedAt : Int64
deriving DecidableEq

/-! ### To JSON -/

def FieldType.toJson : FieldType → Json
  | .string => .string "String"
  | .int => .string "Int"
  | .float => .string "Float"
  | .bool => .string "Bool"
  | .dateTime => .string "DateTime"
  | .json => .string "Json"
  | .bytes => .string "Bytes"
  | .uuid => .string "Uuid"
  | .enum values => .object [("Enum", .array (values.map .string))]
  | .array inner => .object [("Array", inner.toJson)]
  | .reference target => .object [("Reference", .string target)]

def optionToJson : Option String → Json
  | some s => .string s
  | none => .null

def SchemaField.toJson (f : SchemaField) : Json :=
  .object
    [("default", optionToJson f.default),
      ("description", optionToJson f.description),
      ("field_type", f.fieldType.toJson),
      ("indexed", .bool f.indexed),
      ("name", .string f.name),
      ("nullable", .bool f.nullable),
      ("unique", .bool f.unique)]

def Schema.toJson (s : Schema) : Json :=
  .object
    [("created_at", .int s.createdAt.toInt),
      ("fields", .array (s.fields.map SchemaField.toJson)),
      ("name", .string s.name),
      ("updated_at", .int s.updatedAt.toInt),
      ("version", .int s.version.toNat)]

/-! ### From JSON -/

def asString : Json → Option String
  | .string s => some s
  | _ => none

def asBool : Json → Option Bool
  | .bool b => some b
  | _ => none

def asI64 : Json → Option Int64
  | .int i => if -2 ^ 63 ≤ i ∧ i < 2 ^ 63 then some (.ofInt i) else none
  | _ => none

def asU32 : Json → Option UInt32
  | .int i => if 0 ≤ i ∧ i < 2 ^ 32 then some (.ofNat i.toNat) else none
  | _ => none

/-- An optional field is absent or null for `None`. -/
def asOption : Option Json → Option (Option String)
  | none | some .null => some none
  | some j => (asString j).map some

def FieldType.ofTag : String → Option FieldType
  | "String" => some .string
  | "Int" => some .int
  | "Float" => some .float
  | "Bool" => some .bool
  | "DateTime" => some .dateTime
  | "Json" => some .json
  | "Bytes" => some .bytes
  | "Uuid" => some .uuid
  | _ => none

/-- A variant is its name, or an object of its name and its content. -/
def FieldType.fromJson : Json → Option FieldType
  | .string tag => ofTag tag
  | .object [("Enum", j)] => ((asArray j).bind fun l => l.mapM asString).map .enum
  | .object [("Array", j)] => (FieldType.fromJson j).map .array
  | .object [("Reference", j)] => (asString j).map .reference
  | .object [(tag, .null)] => ofTag tag
  | _ => none

def SchemaField.fromJson : Json → Option SchemaField
  | .object o => do
      return {
        name := ← (o.lookup "name").bind asString
        fieldType := ← (o.lookup "field_type").bind FieldType.fromJson
        nullable := ← (o.lookup "nullable").bind asBool
        unique := ← (o.lookup "unique").bind asBool
        indexed := ← (o.lookup "indexed").bind asBool
        default := ← asOption (o.lookup "default")
        description := ← asOption (o.lookup "description") }
  | _ => none

def Schema.fromJson : Json → Option Schema
  | .object o => do
      return {
        name := ← (o.lookup "name").bind asString
        fields := ← ((o.lookup "fields").bind asArray).bind fun l => l.mapM SchemaField.fromJson
        version := ← (o.lookup "version").bind asU32
        createdAt := ← (o.lookup "created_at").bind asI64
        updatedAt := ← (o.lookup "updated_at").bind asI64 }
  | _ => none

/-! ### Through the storage -/

/-- Every enumeration in the type has values. -/
def FieldType.inhabited : FieldType → Bool
  | .enum values => !values.isEmpty
  | .array inner => inner.inhabited
  | _ => true

/-- The levels of nesting of the type's document. -/
def FieldType.levels : FieldType → ℕ
  | .enum _ => 2
  | .array inner => inner.levels + 1
  | .reference _ => 1
  | _ => 0

/-- No array of the document is empty. -/
def Schema.filled (s : Schema) : Bool :=
  !s.fields.isEmpty && s.fields.all fun f => f.fieldType.inhabited

theorem tame_strings (l : List String) : Json.TameArray (l.map .string) := by
  induction l with
  | nil => trivial
  | cons s l ih => exact ⟨rfl, trivial, ih⟩

theorem FieldType.tame (t : FieldType) : t.toJson.Tame := by
  induction t with
  | enum values => exact ⟨vectorForm_of_ne (by decide) _, tame_strings values, trivial⟩
  | array inner ih => exact ⟨vectorForm_of_ne (by decide) _, ih, trivial⟩
  | reference target => exact ⟨vectorForm_of_ne (by decide) _, trivial, trivial⟩
  | _ => trivial

theorem collapse_strings (l : List String) :
    (Json.collapseArray (l.map .string)).mapM asString = some l := by
  induction l with
  | nil => rfl
  | cons s l ih =>
      rw [List.map_cons, Json.collapseArray, List.mapM_cons, ih]
      rfl

theorem FieldType.fromJson_enum (j : Json) :
    FieldType.fromJson (.object [("Enum", j)]) =
      ((asArray j).bind fun l => l.mapM asString).map .enum := by
  rw [FieldType.fromJson]

theorem FieldType.fromJson_array (j : Json) :
    FieldType.fromJson (.object [("Array", j)]) = (FieldType.fromJson j).map .array := by
  rw [FieldType.fromJson]

theorem FieldType.fromJson_collapse (t : FieldType) :
    FieldType.fromJson t.toJson.collapse = if t.inhabited then some t else none := by
  induction t with
  | enum values =>
      change FieldType.fromJson (.object [("Enum", (Json.array (values.map .string)).collapse)]) = _
      rw [fromJson_enum]
      cases values with
      | nil => rfl
      | cons v vs => exact congrArg (Option.map FieldType.enum) (collapse_strings (v :: vs))
  | array inner ih =>
      change FieldType.fromJson (.object [("Array", inner.toJson.collapse)]) = _
      rw [fromJson_array, ih, inhabited]
      split_ifs <;> rfl
  | reference target => rfl
  | _ => rfl

theorem depth_strings (l : List String) : Json.depthArray (l.map .string) = 0 := by
  induction l with
  | nil => rfl
  | cons s l ih => exact (congrArg (max 0) ih).trans (max_self 0)

theorem FieldType.depth_toJson (t : FieldType) : t.toJson.depth = t.levels := by
  induction t with
  | enum values =>
      change max (Json.depthArray (values.map .string) + 1) 0 + 1 = 2
      rw [depth_strings]
      rfl
  | array inner ih => exact congrArg (· + 1) ((Nat.max_zero _).trans ih)
  | reference target => rfl
  | _ => rfl

theorem asOption_collapse (s : Option String) :
    asOption (some (optionToJson s).collapse) = some s := by
  cases s <;> rfl

theorem SchemaField.tame (f : SchemaField) : f.toJson.Tame := by
  have hoption : ∀ s : Option String, (optionToJson s).Tame := by
    intro s
    cases s <;> trivial
  exact ⟨rfl, hoption f.default, hoption f.description, f.fieldType.tame, trivial, trivial, trivial,
    trivial, trivial⟩

theorem SchemaField.fromJson_collapse (f : SchemaField) :
    SchemaField.fromJson f.toJson.collapse = if f.fieldType.inhabited then some f else none := by
  simp [toJson, Json.collapse, Json.collapseObject, fromJson, List.lookup, asString, asBool,
    f.fieldType.fromJson_collapse, asOption_collapse]
  split_ifs <;> rfl

theorem SchemaField.depth_toJson (f : SchemaField) : f.toJson.depth = f.fieldType.levels + 1 := by
  have hoption : ∀ s : Option String, (optionToJson s).depth = 0 := by
    intro s
    cases s <;> rfl
  simp only [toJson, Json.depth, Json.depthObject, hoption, f.fieldType.depth_toJson]
  simp

theorem tame_fields (fields : List SchemaField) :
    Json.TameArray (fields.map SchemaField.toJson) := by
  induction fields with
  | nil => trivial
  | cons f fields ih => exact ⟨rfl, f.tame, ih⟩

/-- A document of a schema has no number in an array. -/
theorem Schema.tame (s : Schema) : s.toJson.Tame := by
  have hversion : (s.version.toNat : ℤ) < 2 ^ 63 := by
    have := s.version.toNat_lt
    omega
  exact ⟨rfl, s.createdAt.toInt_lt, tame_fields s.fields, trivial, s.updatedAt.toInt_lt, hversion,
    trivial⟩

theorem collapse_fields (fields : List SchemaField) :
    (Json.collapseArray (fields.map SchemaField.toJson)).mapM SchemaField.fromJson =
      if fields.all fun f => f.fieldType.inhabited then some fields else none := by
  induction fields with
  | nil => rfl
  | cons f fields ih =>
      rw [List.map_cons, Json.collapseArray, List.mapM_cons, f.fromJson_collapse, ih,
        List.all_cons]
      cases f.fieldType.inhabited <;> cases fields.all fun f => f.fieldType.inhabited <;> rfl

theorem asI64_toInt (t : Int64) : asI64 (.int t.toInt) = some t := by
  have hrange : -2 ^ 63 ≤ t.toInt ∧ t.toInt < 2 ^ 63 := ⟨t.le_toInt, t.toInt_lt⟩
  rw [asI64, if_pos hrange, t.ofInt_toInt]

theorem asU32_toNat (v : UInt32) : asU32 (.int v.toNat) = some v := by
  have hrange : 0 ≤ (v.toNat : ℤ) ∧ (v.toNat : ℤ) < 2 ^ 32 := by
    have := v.toNat_lt
    omega
  rw [asU32, if_pos hrange, Int.toNat_natCast, UInt32.ofNat_toNat]

/-- The fields of a document, read one by one. -/
theorem Schema.fromJson_object (created fields name updated version : Json) :
    Schema.fromJson (.object [("created_at", created), ("fields", fields), ("name", name),
      ("updated_at", updated), ("version", version)]) = do
      return {
        name := ← asString name
        fields := ← (asArray fields).bind fun l => l.mapM SchemaField.fromJson
        version := ← asU32 version
        createdAt := ← asI64 created
        updatedAt := ← asI64 updated } := by
  simp [fromJson, List.lookup]

/-- What is read back of the stored document of a schema. -/
theorem Schema.fromJson_collapse (s : Schema) :
    Schema.fromJson s.toJson.collapse = if s.filled then some s else none := by
  obtain ⟨name, fields, version, created, updated⟩ := s
  refine (Schema.fromJson_object (.int created.toInt)
    (Json.array (fields.map SchemaField.toJson)).collapse (.string name)
    (.int updated.toInt) (.int version.toNat)).trans ?_
  rw [asU32_toNat, asI64_toInt, asI64_toInt, Schema.filled]
  cases fields with
  | nil => rfl
  | cons f fields =>
      have hread : ((asArray (Json.array ((f :: fields).map SchemaField.toJson)).collapse).bind
          fun l => l.mapM SchemaField.fromJson) =
            if (f :: fields).all fun f => f.fieldType.inhabited then some (f :: fields) else none :=
        collapse_fields (f :: fields)
      rw [hread]
      cases (f :: fields).all fun f => f.fieldType.inhabited <;> simp [asString]

theorem depth_fields (fields : List SchemaField) {n : ℕ} :
    Json.depthArray (fields.map SchemaField.toJson) ≤ n + 1 ↔
      ∀ f ∈ fields, f.fieldType.levels ≤ n := by
  induction fields with
  | nil => simp [Json.depthArray]
  | cons f fields ih =>
      rw [List.map_cons, Json.depthArray, max_le_iff, ih, f.depth_toJson, List.forall_mem_cons,
        Nat.add_le_add_iff_right]

/-- Of the 127 levels that the parser admits, four are around a field type. -/
theorem Schema.depth_toJson (s : Schema) :
    s.toJson.depth < 127 ↔ ∀ f ∈ s.fields, f.fieldType.levels ≤ 123 := by
  rw [← depth_fields]
  simp only [toJson, Json.depth, Json.depthObject]
  omega

end AresaDb.Schemas
