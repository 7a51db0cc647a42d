import AresaDb.Store.Value

/-! # Values as JSON

There are two ways between values and JSON documents (`storage/node.rs`).  `fromJson` and `toJson`
are the conversions of the interface.  The stored text of a value is that of an untagged enum:
it is written without the variant (`serialize`), and what is read back is the first variant that
fits (`deserialize`), so that an array without elements comes back as bytes.

A document whose arrays hold no numbers survives all of them but for its empty arrays, which end up
as empty strings (`fromJson_tame`). -/

namespace AresaDb.Store

/-- A JSON document; an object lists its fields in the order of their names. -/
inductive Json where
  | null
  | bool (b : Bool)
  /-- An integer of the range of `i64` or `u64`. -/
  | int (i : ℤ)
  | float (f : Binary64)
  | string (s : String)
  | array (l : List Json)
  | object (o : List (String × Json))

/-- What the conversions of numbers and the printer leave open. -/
structure JsonFormat where
  /-- `f as f32` -/
  narrow : Binary64 → Binary64
  /-- `i as f32` -/
  narrowInt : ℤ → Binary64
  /-- What the text of a finite `f64` is parsed as. -/
  reparse : Binary64 → Binary64
  /-- What the text of a finite `f32` is parsed as. -/
  reparse32 : Binary64 → Binary64
  /-- The length of the text of a property map. -/
  size : Props → ℕ
  text : Value → String

/-! ### Base64 -/

def base64Alphabet : List Char :=
  "ABCDEFGHIJKLMNOPQRSTUVWXYZabcdefghijklmnopqrstuvwxyz0123456789+/".toList

/-- The digit of the low six bits. -/
def base64Digit (n : ℕ) : Char := base64Alphabet.getD (n % 64) '='

def base64Chars : List UInt8 → List Char
  | [] => []
  | [a] => [base64Digit (a.toNat / 4), base64Digit (a.toNat * 16), '=', '=']
  | [a, b] =>
      [base64Digit (a.toNat / 4), base64Digit (a.toNat * 16 + b.toNat / 16),
        base64Digit (b.toNat * 4), '=']
  | a :: b :: c :: rest =>
      base64Digit (a.toNat / 4) :: base64Digit (a.toNat * 16 + b.toNat / 16) ::
        base64Digit (b.toNat * 4 + c.toNat / 64) :: base64Digit c.toNat :: base64Chars rest

/-- `base64::encode` -/
def encodeBase64 (data : List UInt8) : String := String.ofList (base64Chars data)

/-! ### The conversions of the interface -/

def asArray : Json → Option (List Json)
  | .array l => some l
  | _ => none

/-- The entries of `{"$vector": [..]}`. -/
def vectorForm : List (String × Json) → Option (List Json)
  | [(k, j)] => if k = "$vector" then asArray j else none
  | _ => none

theorem vectorForm_of_ne {k : String} (h : k ≠ "$vector") (j : Json) :
    vectorForm [(k, j)] = none := if_neg h

/-- `v.as_f64()` as an `f32`. -/
def vectorEntry (F : JsonFormat) : Json → Option Binary64
  | .int i => some (F.narrow (.ofInt i))
  | .float f => some (F.narrow f)
  | _ => none

mutual

/-- `none` is the error that a vector must contain numbers. -/
def Value.fromJson (F : JsonFormat) : Json → Option Value
  | .null => some .null
  | .bool b => some (.bool b)
  | .int i => some (if i < 2 ^ 63 then .int i else .float (.ofInt i))
  | .float f => some (.float f)
  | .string s => some (.string s)
  | .array l => (fromJsonArray F l).map .array
  | .object o =>
      match vectorForm o with
      | some l => (l.mapM (vectorEntry F)).map .vector
      | none => (fromJsonObject F o).map .object

def fromJsonArray (F : JsonFormat) : List Json → Option (List Value)
  | [] => some []
  | j :: js => do
      let v ← Value.fromJson F j
      let vs ← fromJsonArray F js
      return v :: vs

def fromJsonObject (F : JsonFormat) : List (String × Json) → Option (List (String × Value))
  | [] => some []
  | (k, j) :: js => do
      let v ← Value.fromJson F j
      let vs ← fromJsonObject F js
      return (k, v) :: vs

end

/-- `Number::from_f64(f)`, null for an infinity or a NaN. -/
def numberOrNull (f : Binary64) : Json :=
  if f.magnitude < Binary64.infMagnitude then .float f else .null

mutual

def Value.toJson : Value → Json
  | .null => .null
  | .bool b => .bool b
  | .int i => .int i
  | .float f => numberOrNull f
  | .string s => .string s
  | .bytes b => .string (encodeBase64 b)
  | .vector v => .object [("$vector", .array (v.map numberOrNull))]
  | .array l => .array (toJsonArray l)
  | .object o => .object (toJsonObject o)

def toJsonArray : List Value → List Json
  | [] => []
  | v :: vs => v.toJson :: toJsonArray vs

def toJsonObject : List (String × Value) → List (String × Json)
  | [] => []
  | (k, v) :: vs => (k, v.toJson) :: toJsonObject vs

end

/-! ### The stored text -/

/-- What the text of a float is parsed as; an infinity or a NaN is written as null. -/
def textNumber (reparse : Binary64 → Binary64) (f : Binary64) : Json :=
  if f.magnitude < Binary64.infMagnitude then .float (reparse f) else .null

mutual

/-- The text of a value, as the document it is parsed as: the content of its variant. -/
def Value.serialize (F : JsonFormat) : Value → Json
  | .null => .null
  | .bool b => .bool b
  | .int i => .int i
  | .float f => textNumber F.reparse f
  | .string s => .string s
  | .bytes b => .array (b.map fun x => .int x.toNat)
  | .vector v => .array (v.map (textNumber F.reparse32))
  | .array l => .array (serializeArray F l)
  | .object o => .object (serializeObject F o)

def serializeArray (F : JsonFormat) : List Value → List Json
  | [] => []
  | v :: vs => v.serialize F :: serializeArray F vs

def serializeObject (F : JsonFormat) : List (String × Value) → List (String × Json)
  | [] => []
  | (k, v) :: vs => (k, v.serialize F) :: serializeObject F vs

end

/-- A document that is a `u8`. -/
def asByte : Json → Option UInt8
  | .int i => if 0 ≤ i ∧ i < 256 then some (.ofNat i.toNat) else none
  | _ => none

/-- A document that is an `f32`. -/
def asF32 (F : JsonFormat) : Json → Option Binary64
  | .int i => some (F.narrowInt i)
  | .float f => some (F.narrow f)
  | _ => none

mutual

/-- The first variant that fits: for an array bytes, then a vector, then an array. -/
def Value.deserialize (F : JsonFormat) : Json → Value
  | .null => .null
  | .bool b => .bool b
  | .int i => if i < 2 ^ 63 then .int i else .float (.ofInt i)
  | .float f => .float f
  | .string s => .string s
  | .array l =>
      match l.mapM asByte with
      | some b => .bytes b
      | none =>
          match l.mapM (asF32 F) with
          | some v => .vector v
          | none => .array (deserializeArray F l)
  | .object o => .object (deserializeObject F o)

def deserializeArray (F : JsonFormat) : List Json → List Value
  | [] => []
  | j :: js => Value.deserialize F j :: deserializeArray F js

def deserializeObject (F : JsonFormat) : List (String × Json) → List (String × Value)
  | [] => []
  | (k, j) :: js => (k, Value.deserialize F j) :: deserializeObject F js

end

/-- A value written and read back. -/
def Value.reread (F : JsonFormat) (v : Value) : Value := .deserialize F (v.serialize F)

section

variable {F : JsonFormat}

theorem depthArray_eq_zero {l : List Value} (h : ∀ v ∈ l, v.depth = 0) : depthArray l = 0 := by
  induction l with
  | nil => rfl
  | cons v vs ih =>
      obtain ⟨hv, hvs⟩ := List.forall_mem_cons.mp h
      rw [depthArray, hv, ih hvs, Nat.max_self]

theorem mem_deserializeArray {l : List Json} {v : Value} (h : v ∈ deserializeArray F l) :
    ∃ j ∈ l, v = .deserialize F j := by
  induction l with
  | nil => cases h
  | cons j js ih =>
      obtain rfl | h := List.mem_cons.mp h
      · exact ⟨j, List.mem_cons_self, rfl⟩
      · obtain ⟨j', hj', hv⟩ := ih h
        exact ⟨j', List.mem_cons_of_mem j hj', hv⟩

theorem isSome_of_mapM {α β : Type} {f : α → Option β} {l : List α} {bs : List β}
    (h : l.mapM f = some bs) : ∀ x ∈ l, (f x).isSome := by
  induction l generalizing bs with
  | nil => exact fun x hx => by cases hx
  | cons y l ih =>
      rw [List.mapM_cons] at h
      obtain ⟨b, hb, h⟩ := Option.bind_eq_some_iff.mp h
      obtain ⟨bs', hbs, -⟩ := Option.bind_eq_some_iff.mp h
      refine List.forall_mem_cons.mpr ⟨?_, ih hbs⟩
      rw [hb]
      rfl

/-- Bytes and vectors have the levels of the array that they are read from. -/
theorem depth_deserialize_array (l : List Json) :
    (Value.deserialize F (.array l)).depth = depthArray (deserializeArray F l) + 1 := by
  have hflat : (∀ j ∈ l, (asByte j).isSome ∨ (asF32 F j).isSome) →
      depthArray (deserializeArray F l) = 0 := by
    intro h
    refine depthArray_eq_zero fun v hv => ?_
    obtain ⟨j, hj, rfl⟩ := mem_deserializeArray hv
    cases j with
    | int i => rw [Value.deserialize]; split_ifs <;> rfl
    | float f => rfl
    | null | bool _ | string _ | array _ | object _ => cases h _ hj <;> contradiction
  rw [Value.deserialize]
  cases hbytes : l.mapM asByte with
  | some b => rw [hflat fun j hj => .inl (isSome_of_mapM hbytes j hj)]; rfl
  | none =>
      cases hfloats : l.mapM (asF32 F) with
      | some v => rw [hflat fun j hj => .inr (isSome_of_mapM hfloats j hj)]; rfl
      | none => rfl

/-- An array of texts of numbers, null for those that have none. -/
theorem depth_deserialize_flat {l : List Json} (h : ∀ j ∈ l, (Value.deserialize F j).depth = 0) :
    (Value.deserialize F (.array l)).depth = 1 := by
  rw [depth_deserialize_array, depthArray_eq_zero fun v hv => ?_]
  obtain ⟨j, hj, rfl⟩ := mem_deserializeArray hv
  exact h j hj

theorem depth_textNumber (reparse : Binary64 → Binary64) (f : Binary64) :
    (Value.deserialize F (textNumber reparse f)).depth = 0 := by
  unfold textNumber
  split_ifs <;> rfl

mutual

/-- Reading back keeps the levels of nesting. -/
theorem Value.depth_reread (v : Value) : (v.reread F).depth = v.depth := by
  cases v with
  | null | bool _ | string _ => rfl
  | int i =>
      rw [Value.reread, Value.serialize, Value.deserialize]
      split_ifs <;> rfl
  | float f => exact depth_textNumber F.reparse f
  | bytes b =>
      refine depth_deserialize_flat fun j hj => ?_
      obtain ⟨x, -, rfl⟩ := List.mem_map.mp hj
      rw [Value.deserialize]
      split_ifs <;> rfl
  | vector v =>
      refine depth_deserialize_flat fun j hj => ?_
      obtain ⟨x, -, rfl⟩ := List.mem_map.mp hj
      exact depth_textNumber F.reparse32 x
  | array l =>
      rw [Value.reread, Value.serialize, depth_deserialize_array, depthArray_reread l, Value.depth]
  | object o =>
      rw [Value.reread, Value.serialize, Value.deserialize, Value.depth, depthObject_reread o,
        Value.depth]

theorem depthArray_reread (l : List Value) :
    depthArray (deserializeArray F (serializeArray F l)) = depthArray l := by
  cases l with
  | nil => rfl
  | cons v vs =>
      rw [serializeArray, deserializeArray, depthArray, depthArray, depthArray_reread vs,
        ← Value.depth_reread v, Value.reread]

theorem depthObject_reread (o : List (String × Value)) :
    depthObject (deserializeObject F (serializeObject F o)) = depthObject o := by
  cases o with
  | nil => rfl
  | cons e vs =>
      obtain ⟨k, v⟩ := e
      rw [serializeObject, deserializeObject, depthObject, depthObject, depthObject_reread vs,
        ← Value.depth_reread v, Value.reread]

end

end

/-- The round trip of the storage engine. -/
def JsonFormat.serde (F : JsonFormat) : Serde :=
  ⟨Value.reread F, F.size, F.text, Value.depth_reread⟩

/-! ### Documents without numbers in arrays -/

namespace Json

def isNumber : Json → Bool
  | .int _ | .float _ => true
  | _ => false

mutual

/-- Numbers are integers of the range of `i64` outside arrays, and no object has the form of a
vector. -/
def Tame : Json → Prop
  | .int i => i < 2 ^ 63
  | .float _ => False
  | .array l => TameArray l
  | .object o => vectorForm o = none ∧ TameObject o
  | _ => True

def TameArray : List Json → Prop
  | [] => True
  | j :: js => j.isNumber = false ∧ j.Tame ∧ TameArray js

def TameObject : List (String × Json) → Prop
  | [] => True
  | (_, j) :: js => j.Tame ∧ TameObject js

end

mutual

/-- The document with an empty string for every empty array. -/
def collapse : Json → Json
  | .array l => if l.isEmpty then .string "" else .array (collapseArray l)
  | .object o => .object (collapseObject o)
  | j => j

def collapseArray : List Json → List Json
  | [] => []
  | j :: js => j.collapse :: collapseArray js

def collapseObject : List (String × Json) → List (String × Json)
  | [] => []
  | (k, j) :: js => (k, j.collapse) :: collapseObject js

end

mutual

/-- The levels of nesting of a document. -/
def depth : Json → ℕ
  | .array l => depthArray l + 1
  | .object o => depthObject o + 1
  | _ => 0

def depthArray : List Json → ℕ
  | [] => 0
  | j :: js => max j.depth (depthArray js)

def depthObject : List (String × Json) → ℕ
  | [] => 0
  | (_, j) :: js => max j.depth (depthObject js)

end

end Json

/-- A value stands for a document: read back from its text, it is the document up to empty
arrays. -/
structure StandsFor (F : JsonFormat) (j : Json) (v : Value) : Prop where
  converted : Value.fromJson F j = some v
  back : (v.reread F).toJson = j.collapse
  depth : (v.reread F).depth = j.depth
  number : (v.serialize F).isNumber = j.isNumber

/-- An array that starts with something else than a number is one of values. -/
theorem deserialize_array {F : JsonFormat} {j : Json} (h : j.isNumber = false) (js : List Json) :
    Value.deserialize F (.array (j :: js)) = .array (deserializeArray F (j :: js)) := by
  have hbyte : asByte j = none := by
    cases j <;> first | rfl | cases h
  have hfloat : asF32 F j = none := by
    cases j <;> first | rfl | cases h
  rw [Value.deserialize, List.mapM_cons, List.mapM_cons, hbyte, hfloat]
  rfl

section

variable {F : JsonFormat}

theorem standsFor_array {l : List Json} {vs : List Value} (h : List.Forall₂ (StandsFor F) l vs) :
    toJsonArray (deserializeArray F (serializeArray F vs)) = Json.collapseArray l ∧
      depthArray (deserializeArray F (serializeArray F vs)) = Json.depthArray l := by
  induction h with
  | nil => exact ⟨rfl, rfl⟩
  | cons hv _ ih =>
      rw [serializeArray, deserializeArray, toJsonArray, depthArray, ih.1, ih.2]
      exact ⟨congrArg (· :: _) hv.back, congrArg (max · _) hv.depth⟩

theorem standsFor_object {o : List (String × Json)} {vs : List (String × Value)}
    (h : List.Forall₂ (fun e e' => e.1 = e'.1 ∧ StandsFor F e.2 e'.2) o vs) :
    toJsonObject (deserializeObject F (serializeObject F vs)) = Json.collapseObject o ∧
      depthObject (deserializeObject F (serializeObject F vs)) = Json.depthObject o := by
  induction h with
  | nil => exact ⟨rfl, rfl⟩
  | @cons e e' _ _ hv _ ih =>
      obtain ⟨k, j⟩ := e
      obtain ⟨k', v⟩ := e'
      obtain ⟨rfl, hv⟩ := hv
      rw [serializeObject, deserializeObject, toJsonObject, depthObject, ih.1, ih.2]
      exact ⟨congrArg (fun j' => (k, j') :: _) hv.back, congrArg (max · _) hv.depth⟩

/-- The first element keeps an array from being read as bytes or as a vector. -/
theorem StandsFor.array {l : List Json} {vs : List Value} (htame : Json.TameArray l)
    (hconv : fromJsonArray F l = some vs) (h : List.Forall₂ (StandsFor F) l vs) :
    StandsFor F (.array l) (.array vs) := by
  have hsome : Value.fromJson F (.array l) = some (.array vs) := by
    rw [Value.fromJson, hconv]
    rfl
  obtain ⟨hback, hdepth⟩ := standsFor_array h
  cases h with
  | nil => exact ⟨hsome, rfl, rfl, rfl⟩
  | @cons j v js vs hv _ =>
      have hread : Value.reread F (.array (v :: vs)) =
          .array (deserializeArray F (serializeArray F (v :: vs))) :=
        deserialize_array (hv.number.trans htame.1) _
      refine ⟨hsome, ?_, ?_, rfl⟩
      · rw [hread]
        exact congrArg Json.array hback
      · rw [hread]
        exact congrArg (· + 1) hdepth

/-- An object that has not the form of a vector. -/
theorem StandsFor.object {o : List (String × Json)} {vs : List (String × Value)}
    (hform : vectorForm o = none) (hconv : fromJsonObject F o = some vs)
    (h : List.Forall₂ (fun e e' => e.1 = e'.1 ∧ StandsFor F e.2 e'.2) o vs) :
    StandsFor F (.object o) (.object vs) := by
  obtain ⟨hback, hdepth⟩ := standsFor_object h
  refine ⟨?_, congrArg Json.object hback, congrArg (· + 1) hdepth, rfl⟩
  rw [Value.fromJson, hform, hconv]
  rfl

end

mutual

/-- A tame document is stored but for its empty arrays. -/
theorem fromJson_tame (F : JsonFormat) (j : Json) (h : j.Tame) : ∃ v, StandsFor F j v := by
  cases j with
  | null => exact ⟨.null, rfl, rfl, rfl, rfl⟩
  | bool b => exact ⟨.bool b, rfl, rfl, rfl, rfl⟩
  | int i =>
      have hread : Value.reread F (.int i) = .int i := if_pos h
      refine ⟨.int i, congrArg some (if_pos h), ?_, ?_, rfl⟩
      · rw [hread]
        rfl
      · rw [hread]
        rfl
  | float f => exact h.elim
  | string s => exact ⟨.string s, rfl, rfl, rfl, rfl⟩
  | array l =>
      obtain ⟨vs, hconv, hvs⟩ := fromJsonArray_tame F l h
      exact ⟨.array vs, .array h hconv hvs⟩
  | object o =>
      obtain ⟨vs, hconv, hvs⟩ := fromJsonObject_tame F o h.2
      exact ⟨.object vs, .object h.1 hconv hvs⟩

theorem fromJsonArray_tame (F : JsonFormat) (l : List Json) (h : Json.TameArray l) :
    ∃ vs, fromJsonArray F l = some vs ∧ List.Forall₂ (StandsFor F) l vs := by
  cases l with
  | nil => exact ⟨[], rfl, .nil⟩
  | cons j js =>
      obtain ⟨-, hj, hjs⟩ := h
      obtain ⟨v, hv⟩ := fromJson_tame F j hj
      obtain ⟨vs, hconv, hvs⟩ := fromJsonArray_tame F js hjs
      refine ⟨v :: vs, ?_, .cons hv hvs⟩
      rw [fromJsonArray, hv.converted, hconv]
      rfl

theorem fromJsonObject_tame (F : JsonFormat) (o : List (String × Json)) (h : Json.TameObject o) :
    ∃ vs, fromJsonObject F o = some vs ∧
      List.Forall₂ (fun e e' => e.1 = e'.1 ∧ StandsFor F e.2 e'.2) o vs := by
  cases o with
  | nil => exact ⟨[], rfl, .nil⟩
  | cons e es =>
      obtain ⟨k, j⟩ := e
      obtain ⟨v, hv⟩ := fromJson_tame F j h.1
      obtain ⟨vs, hconv, hvs⟩ := fromJsonObject_tame F es h.2
      refine ⟨(k, v) :: vs, ?_, .cons ⟨rfl, hv⟩ hvs⟩
      rw [fromJsonObject, hv.converted, hconv]
      rfl

end

/-! ### Plain text -/

mutual

/-- The text of a document without fractions or characters to escape. -/
def Json.plainText : Json → String
  | .null => "null"
  | .bool b => toString b
  | .int i => toString i
  | .float _ => ""
  | .string s => "\"" ++ s ++ "\""
  | .array l => "[" ++ ",".intercalate (plainTexts l) ++ "]"
  | .object o => "\x7b" ++ ",".intercalate (plainFields o) ++ "\x7d"

def plainTexts : List Json → List String
  | [] => []
  | j :: js => j.plainText :: plainTexts js

def plainFields : List (String × Json) → List String
  | [] => []
  | (k, j) :: js => ("\"" ++ k ++ "\":" ++ j.plainText) :: plainFields js

end

/-- Numbers that nothing is lost of. -/
def plainNumbers : JsonFormat := ⟨id, .ofInt, id, id, fun _ => 0, fun _ => ""⟩

/-- The format on documents of plain text. -/
def plainFormat : JsonFormat where
  narrow := id
  narrowInt := .ofInt
  reparse := id
  reparse32 := id
  size p := (Json.object (serializeObject plainNumbers p.toList)).plainText.utf8ByteSize
  text v := (v.serialize plainNumbers).plainText

end AresaDb.Store
