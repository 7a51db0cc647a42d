import AresaDb.Store.Database

/-! # What JSON keeps

A value can make two round trips (`storage/node.rs`): through a JSON document, as the executor sends
data to the database, and through the stored text, which has no tags.  Neither keeps every value,
and here is what each of them keeps.

Through a document go all values but bytes, which come back as their text, and objects that look
like a vector (`fromJson_toJson_iff`).  Through the text go all values but vectors without
components and arrays of nothing but numbers, which are taken for bytes or vectors (`reread_iff`).
-/

namespace AresaDb.Store

/-! ### Values of the source -/

/-- Neither an infinity nor a NaN. -/
def IsFinite (f : Binary64) : Prop := f.magnitude < Binary64.infMagnitude

mutual

/-- Integers are `i64`s, the components of vectors are `f32`s, and all floats are finite. -/
def Value.Proper (F : JsonFormat) : Value → Prop
  | .int i => -2 ^ 63 ≤ i ∧ i < 2 ^ 63
  | .float f => IsFinite f
  | .vector v => ∀ x ∈ v, IsFinite x ∧ F.narrow x = x
  | .array l => ProperArray F l
  | .object o => ProperObject F o
  | _ => True

def ProperArray (F : JsonFormat) : List Value → Prop
  | [] => True
  | v :: vs => v.Proper F ∧ ProperArray F vs

def ProperObject (F : JsonFormat) : List (String × Value) → Prop
  | [] => True
  | (_, v) :: vs => v.Proper F ∧ ProperObject F vs

end

/-! ### Through a document -/

/-- The object has one field, the reserved one, and an array in it. -/
def looksLikeVector : List (String × Value) → Bool
  | [(k, .array _)] => k = "$vector"
  | _ => false

mutual

/-- There are no bytes and no object that looks like a vector, at any depth. -/
def Value.Documented : Value → Prop
  | .bytes _ => False
  | .array l => DocumentedArray l
  | .object o => looksLikeVector o = false ∧ DocumentedObject o
  | _ => True

def DocumentedArray : List Value → Prop
  | [] => True
  | v :: vs => v.Documented ∧ DocumentedArray vs

def DocumentedObject : List (String × Value) → Prop
  | [] => True
  | (_, v) :: vs => v.Documented ∧ DocumentedObject vs

end

section

variable {F : JsonFormat}

theorem numberOrNull_of_finite {f : Binary64} (h : IsFinite f) :
    numberOrNull f = .float f := if_pos h

/-- Only an array is written as one. -/
theorem asArray_toJson (v : Value) :
    asArray v.toJson = match v with
      | .array l => some (toJsonArray l)
      | _ => none := by
  cases v with
  | float f =>
      rw [Value.toJson, numberOrNull]
      split_ifs <;> rfl
  | null | bool _ | int _ | string _ | bytes _ | vector _ | array _ | object _ => rfl

theorem vectorForm_toJsonObject (o : List (String × Value)) :
    (vectorForm (toJsonObject o)).isSome = looksLikeVector o := by
  match o with
  | [] => rfl
  | (_, v) :: (_, _) :: _ => cases v <;> rfl
  | [(k, v)] =>
      have hform : vectorForm (toJsonObject [(k, v)]) =
          if k = "$vector" then asArray v.toJson else none := rfl
      rw [hform, asArray_toJson]
      cases v <;> by_cases hk : k = "$vector" <;> simp [hk, looksLikeVector]

theorem mapM_vectorEntry {v : List Binary64} (h : ∀ x ∈ v, IsFinite x ∧ F.narrow x = x) :
    (v.map numberOrNull).mapM (vectorEntry F) = some v := by
  induction v with
  | nil => rfl
  | cons x v ih =>
      obtain ⟨⟨hfinite, hnarrow⟩, hv⟩ := List.forall_mem_cons.mp h
      rw [List.map_cons, List.mapM_cons, ih hv, numberOrNull_of_finite hfinite,
        vectorEntry, hnarrow]
      rfl

theorem fromJson_vector {v : List Binary64} (h : ∀ x ∈ v, IsFinite x ∧ F.narrow x = x) :
    Value.fromJson F (Value.vector v).toJson = some (.vector v) := by
  have hform : vectorForm [("$vector", Json.array (v.map numberOrNull))] =
      some (v.map numberOrNull) := rfl
  simp only [Value.toJson, Value.fromJson, hform, mapM_vectorEntry h, Option.map_some]

/-- An object that looks like a vector is read as one, if at all. -/
theorem fromJson_object_iff (o : List (String × Value)) :
    Value.fromJson F (Value.object o).toJson = some (.object o) ↔
      looksLikeVector o = false ∧ fromJsonObject F (toJsonObject o) = some o := by
  rw [Value.toJson, ← vectorForm_toJsonObject]
  cases hform : vectorForm (toJsonObject o) with
  | none => simp [Value.fromJson, hform]
  | some l => simp [Value.fromJson, hform]

mutual

/-- A value goes through JSON if and only if it holds no bytes and nothing that looks like a
vector. -/
theorem fromJson_toJson_iff (v : Value) (h : v.Proper F) :
    Value.fromJson F v.toJson = some v ↔ v.Documented := by
  cases v with
  | null | bool _ | string _ => exact iff_of_true rfl trivial
  | int i => exact iff_of_true (congrArg some (if_pos h.2)) trivial
  | float f =>
      refine iff_of_true ?_ trivial
      rw [Value.toJson, numberOrNull_of_finite h, Value.fromJson]
  | bytes b => exact iff_of_false nofun id
  | vector v => exact iff_of_true (fromJson_vector h) trivial
  | array l =>
      rw [Value.toJson, Value.fromJson, Value.Documented, ← fromJsonArray_toJsonArray_iff l h]
      simp
  | object o =>
      rw [fromJson_object_iff, Value.Documented, ← fromJsonObject_toJsonObject_iff o h]

theorem fromJsonArray_toJsonArray_iff (l : List Value) (h : ProperArray F l) :
    fromJsonArray F (toJsonArray l) = some l ↔ DocumentedArray l := by
  cases l with
  | nil => exact iff_of_true rfl trivial
  | cons v vs =>
      rw [DocumentedArray, ← fromJson_toJson_iff v h.1, ← fromJsonArray_toJsonArray_iff vs h.2,
        toJsonArray, fromJsonArray]
      simp [Option.bind_eq_some_iff]

theorem fromJsonObject_toJsonObject_iff (o : List (String × Value)) (h : ProperObject F o) :
    fromJsonObject F (toJsonObject o) = some o ↔ DocumentedObject o := by
  cases o with
  | nil => exact iff_of_true rfl trivial
  | cons e vs =>
      obtain ⟨k, v⟩ := e
      rw [DocumentedObject, ← fromJson_toJson_iff v h.1, ← fromJsonObject_toJsonObject_iff vs h.2,
        toJsonObject, fromJsonObject]
      simp [Option.bind_eq_some_iff]

end

end

theorem fromJson_toJson_iff_sample :
    (Value.array [.int 1, .vector []]).Proper plainFormat ∧
      (Value.fromJson plainFormat (Value.array [.int 1, .vector []]).toJson =
          some (.array [.int 1, .vector []]) ↔
        (Value.array [.int 1, .vector []]).Documented) := by
  have hproper : (Value.array [.int 1, .vector []]).Proper plainFormat := by
    refine ⟨⟨?_, ?_⟩, ?_, trivial⟩
    · decide
    · decide
    · exact nofun
  exact ⟨hproper, fromJson_toJson_iff _ hproper⟩

/-- Bytes come back as their text. -/
theorem bytes_come_back_as_string :
    ¬ ∀ (F : JsonFormat) (v : Value), v.Proper F → Value.fromJson F v.toJson = some v := by
  intro h
  have hbytes := h plainFormat (.bytes [1]) trivial
  cases hbytes

/-! ### Through the stored text -/

/-- An integer or a float. -/
def Value.isNumber : Value → Bool
  | .int _ | .float _ => true
  | _ => false

mutual

/-- The numbers of the value are read back from their texts, vectors have components, and arrays
something else than numbers, at any depth. -/
def Value.Kept (F : JsonFormat) : Value → Prop
  | .float f => F.reparse f = f
  | .vector v => v ≠ [] ∧ ∀ x ∈ v, F.narrow (F.reparse32 x) = x
  | .array l => (∃ v ∈ l, v.isNumber = false) ∧ KeptArray F l
  | .object o => KeptObject F o
  | _ => True

def KeptArray (F : JsonFormat) : List Value → Prop
  | [] => True
  | v :: vs => v.Kept F ∧ KeptArray F vs

def KeptObject (F : JsonFormat) : List (String × Value) → Prop
  | [] => True
  | (_, v) :: vs => v.Kept F ∧ KeptObject F vs

end

section

variable {F : JsonFormat}

theorem ProperArray.of_mem {l : List Value} (h : ProperArray F l) : ∀ v ∈ l, v.Proper F := by
  induction l with
  | nil => exact nofun
  | cons v vs ih => exact List.forall_mem_cons.mpr ⟨h.1, ih h.2⟩

theorem serializeArray_eq_map (l : List Value) :
    serializeArray F l = l.map (Value.serialize F) := by
  induction l with
  | nil => rfl
  | cons v vs ih => rw [serializeArray, ih, List.map_cons]

theorem mapM_eq_none_of_mem {α β : Type} {f : α → Option β} {l : List α} {x : α} (hx : x ∈ l)
    (h : f x = none) : l.mapM f = none := by
  induction l with
  | nil => cases hx
  | cons y l ih =>
      rw [List.mapM_cons]
      obtain rfl | hx := List.mem_cons.mp hx
      · rw [h]
        rfl
      · rw [ih hx]
        cases f y <;> rfl

/-- The text of a value is a number if and only if the value is one. -/
theorem isNumber_serialize {v : Value} (h : v.Proper F) :
    (v.serialize F).isNumber = v.isNumber := by
  cases v with
  | float f =>
      rw [Value.serialize, textNumber, if_pos (show _ < _ from h)]
      rfl
  | null | bool _ | int _ | string _ | bytes _ | vector _ | array _ | object _ => rfl

theorem asByte_of_not_number {j : Json} (h : j.isNumber = false) : asByte j = none := by
  cases j with
  | int _ | float _ => cases h
  | null | bool _ | string _ | array _ | object _ => rfl

theorem asF32_isSome (j : Json) : (asF32 F j).isSome = j.isNumber := by
  cases j <;> rfl

/-- An array with something else than numbers is read as an array. -/
theorem deserialize_array_of_mem {l : List Json} {j : Json} (hj : j ∈ l) (h : j.isNumber = false) :
    Value.deserialize F (.array l) = .array (deserializeArray F l) := by
  have hfloat : asF32 F j = none := by
    rw [← Option.not_isSome_iff_eq_none, asF32_isSome, h]
    exact Bool.false_ne_true
  rw [Value.deserialize, mapM_eq_none_of_mem hj (asByte_of_not_number h),
    mapM_eq_none_of_mem hj hfloat]

/-- An array of numbers is read as bytes or as a vector. -/
theorem deserialize_array_of_numbers {l : List Json} (h : ∀ j ∈ l, j.isNumber = true)
    (vs : List Value) : Value.deserialize F (.array l) ≠ .array vs := by
  have hfloats : (l.mapM (asF32 F)).isSome := by
    induction l with
    | nil => rfl
    | cons j js ih =>
        obtain ⟨hj, hjs⟩ := List.forall_mem_cons.mp h
        rw [← asF32_isSome (F := F)] at hj
        obtain ⟨x, hx⟩ := Option.isSome_iff_exists.mp hj
        obtain ⟨xs, hxs⟩ := Option.isSome_iff_exists.mp (ih hjs)
        rw [List.mapM_cons, hx, hxs]
        rfl
  obtain ⟨v, hv⟩ := Option.isSome_iff_exists.mp hfloats
  rw [Value.deserialize, hv]
  intro harray
  cases hbytes : l.mapM asByte with
  | none =>
      rw [hbytes] at harray
      cases harray
  | some b =>
      rw [hbytes] at harray
      cases harray

theorem mapM_asByte (b : List UInt8) :
    (b.map fun x => Json.int x.toNat).mapM asByte = some b := by
  induction b with
  | nil => rfl
  | cons x b ih =>
      have hx : asByte (.int x.toNat) = some x := by
        have hlt := x.toNat_lt
        rw [asByte, if_pos (by omega), Int.toNat_natCast, UInt8.ofNat_toNat]
      rw [List.map_cons, List.mapM_cons, hx, ih]
      rfl

theorem reread_bytes (b : List UInt8) : (Value.bytes b).reread F = .bytes b := by
  rw [Value.reread, Value.serialize, Value.deserialize, mapM_asByte]

theorem mapM_asF32 {v : List Binary64} (h : ∀ x ∈ v, IsFinite x) :
    (v.map (textNumber F.reparse32)).mapM (asF32 F) =
      some (v.map fun x => F.narrow (F.reparse32 x)) := by
  induction v with
  | nil => rfl
  | cons x v ih =>
      obtain ⟨hx, hv⟩ := List.forall_mem_cons.mp h
      rw [List.map_cons, List.mapM_cons, ih hv, textNumber, if_pos (show _ < _ from hx)]
      rfl

/-- A vector without components is read as bytes. -/
theorem reread_vector_iff {v : List Binary64} (h : ∀ x ∈ v, IsFinite x) :
    (Value.vector v).reread F = .vector v ↔
      v ≠ [] ∧ ∀ x ∈ v, F.narrow (F.reparse32 x) = x := by
  cases v with
  | nil => exact iff_of_false nofun fun h => h.1 rfl
  | cons x v =>
      have hx : IsFinite x := h x List.mem_cons_self
      have hbyte : asByte (textNumber F.reparse32 x) = none := by
        rw [textNumber, if_pos (show _ < _ from hx)]
        rfl
      have hbytes : ((x :: v).map (textNumber F.reparse32)).mapM asByte = none :=
        mapM_eq_none_of_mem (List.mem_map_of_mem List.mem_cons_self) hbyte
      rw [Value.reread, Value.serialize, Value.deserialize, hbytes, mapM_asF32 h]
      rw [Value.vector.injEq, ← List.map_id (x :: v), List.map_map, List.map_inj_left]
      simp

mutual

/-- A value is read back from its text if and only if its numbers are, its vectors have components
and its arrays something else than numbers. -/
theorem reread_iff (v : Value) (h : v.Proper F) : v.reread F = v ↔ v.Kept F := by
  cases v with
  | null | bool _ | string _ => exact iff_of_true rfl trivial
  | int i => exact iff_of_true (if_pos h.2) trivial
  | float f =>
      rw [Value.reread, Value.serialize, textNumber, if_pos (show _ < _ from h), Value.deserialize,
        Value.float.injEq, Value.Kept]
  | bytes b => exact iff_of_true (reread_bytes b) trivial
  | vector v => exact reread_vector_iff fun x hx => (h x hx).1
  | array l =>
      rw [Value.reread, Value.serialize, Value.Kept, ← rereadArray_iff l h]
      by_cases hmixed : ∃ v ∈ l, v.isNumber = false
      · obtain ⟨v, hv, hnumber⟩ := hmixed
        have hin : v.serialize F ∈ serializeArray F l := by
          rw [serializeArray_eq_map]
          exact List.mem_map_of_mem hv
        rw [← isNumber_serialize (h.of_mem v hv)] at hnumber
        rw [deserialize_array_of_mem hin hnumber, Value.array.injEq]
        exact (and_iff_right ⟨v, hv, by rwa [← isNumber_serialize (h.of_mem v hv)]⟩).symm
      · have hnumbers : ∀ j ∈ serializeArray F l, j.isNumber = true := by
          intro j hj
          rw [serializeArray_eq_map] at hj
          obtain ⟨v, hv, rfl⟩ := List.mem_map.mp hj
          rw [isNumber_serialize (h.of_mem v hv)]
          exact Bool.of_not_eq_false fun hv' => hmixed ⟨v, hv, hv'⟩
        exact iff_of_false (deserialize_array_of_numbers hnumbers l) fun h => hmixed h.1
  | object o =>
      rw [Value.reread, Value.serialize, Value.deserialize, Value.object.injEq, Value.Kept,
        rereadObject_iff o h]

theorem rereadArray_iff (l : List Value) (h : ProperArray F l) :
    deserializeArray F (serializeArray F l) = l ↔ KeptArray F l := by
  cases l with
  | nil => exact iff_of_true rfl trivial
  | cons v vs =>
      rw [serializeArray, deserializeArray, KeptArray, ← reread_iff v h.1, ← rereadArray_iff vs h.2,
        List.cons.injEq, Value.reread]

theorem rereadObject_iff (o : List (String × Value)) (h : ProperObject F o) :
    deserializeObject F (serializeObject F o) = o ↔ KeptObject F o := by
  cases o with
  | nil => exact iff_of_true rfl trivial
  | cons e vs =>
      obtain ⟨k, v⟩ := e
      rw [serializeObject, deserializeObject, KeptObject, ← reread_iff v h.1,
        ← rereadObject_iff vs h.2, List.cons.injEq, Prod.mk.injEq, Value.reread]
      simp

end

/-! ### Properties -/

variable {U : Unicode} {T : UuidText}

/-- A property map is read back if and only if each of its values is. -/
theorem props_iff {p : Props} (h : ∀ (k : String) (v : Value), p[k]? = some v → v.Proper F) :
    F.serde.props p = p ↔ ∀ (k : String) (v : Value), p[k]? = some v → v.Kept F := by
  constructor
  · intro hp k v hv
    have hget := F.serde.get_props p k
    rw [hp, hv] at hget
    exact (reread_iff v (h k v hv)).mp (Option.some.inj hget).symm
  · intro hkept
    apply OrdMap.ext
    intro k
    rw [Serde.get_props]
    cases hv : p[k]? with
    | none => rfl
    | some v => exact congrArg some ((reread_iff v (h k v hv)).mpr (hkept k v hv))

/-- A new node is read with the properties that its text is read back to, if it parses. -/
theorem getNode_insertNode (s : TieredStorage) (n : Node) :
    (Database.getNode F (s.insertNode F.serde U n) T n.id.display).map
        (fun r => r.1.map Node.properties) =
      if parses (F.serde.props n.properties) then some (some (F.serde.props n.properties))
      else none := by
  have hchanges := s.changes_insertNode F.serde U n
  have hholds := holds_insert F.serde n (s.copies n.id).row
    (s.pushedObject (F.serde.props n.properties) (s.copies n.id).object)
  rw [← hchanges.at_id] at hholds
  obtain ⟨s', hread⟩ := getNode_of_copies (hholds.getNodeIndex (J := F.serde)) hholds.find
  unfold Database.getNode
  rw [NodeId.parse_display, Option.bind_eq_bind, Option.bind_some, hread]
  split_ifs with hparses hparses' hparses'
  · rfl
  · exact absurd hparses hparses'
  · exact absurd hparses' hparses
  · rfl

/-- The properties of a new node are read back unchanged if and only if their values are kept by
their texts and are not nested too deep. -/
theorem getNode_insertNode_iff (s : TieredStorage) (n : Node)
    (h : ∀ (k : String) (v : Value), n.properties[k]? = some v → v.Proper F) :
    (Database.getNode F (s.insertNode F.serde U n) T n.id.display).map
        (fun r => r.1.map Node.properties) = some (some n.properties) ↔
      ∀ (k : String) (v : Value), n.properties[k]? = some v → v.Kept F ∧ v.depth < 127 := by
  rw [getNode_insertNode]
  constructor
  · intro hread
    split_ifs at hread with hparses
    have hprops : F.serde.props n.properties = n.properties :=
      Option.some.inj (Option.some.inj hread)
    rw [hprops] at hparses
    exact fun k v hv => ⟨(props_iff h).mp hprops k v hv, parses_iff.mp hparses k v hv⟩
  · intro hkept
    have hprops := (props_iff h).mpr fun k v hv => (hkept k v hv).1
    rw [hprops, if_pos (parses_iff.mpr fun k v hv => (hkept k v hv).2)]

end

/-- A node with one property. -/
def nodeWith (v : Value) : Node := ⟨⟨1⟩, "user", (∅ : Props).insert "tags" v, 0, 0⟩

theorem get_nodeWith {v w : Value} {k : String} (h : (nodeWith v).properties[k]? = some w) :
    w = v := by
  have hget : ((∅ : Props).insert "tags" v)[k]? = some w := h
  rw [OrdMap.get_insert, OrdMap.get_empty] at hget
  split_ifs at hget
  exact (Option.some.inj hget).symm

theorem getNode_insertNode_iff_sample :
    (∀ (k : String) (v : Value),
        (nodeWith (.array [.string "a"])).properties[k]? = some v → v.Proper plainFormat) ∧
      ((Database.getNode plainFormat ((TieredStorage.new ⟨1000, 0, false⟩ false).insertNode
            plainFormat.serde asciiUnicode (nodeWith (.array [.string "a"]))) hexText
            (nodeWith (.array [.string "a"])).id.display).map
          (fun r => r.1.map Node.properties) =
          some (some (nodeWith (.array [.string "a"])).properties) ↔
        ∀ (k : String) (v : Value), (nodeWith (.array [.string "a"])).properties[k]? = some v →
          v.Kept plainFormat ∧ v.depth < 127) := by
  have hproper : ∀ (k : String) (v : Value),
      (nodeWith (.array [.string "a"])).properties[k]? = some v → v.Proper plainFormat := by
    intro k v hv
    rw [get_nodeWith hv]
    exact ⟨trivial, trivial⟩
  exact ⟨hproper, getNode_insertNode_iff _ _ hproper⟩

/-- An array of one small integer comes back as bytes. -/
theorem array_comes_back_as_bytes :
    ¬ ∀ (F : JsonFormat) (U : Unicode) (T : UuidText) (s : TieredStorage) (n : Node),
      (∀ (k : String) (v : Value), n.properties[k]? = some v → v.Proper F) →
        (Database.getNode F (s.insertNode F.serde U n) T n.id.display).map
          (fun r => r.1.map Node.properties) = some (some n.properties) := by
  intro h
  have hread := h plainFormat asciiUnicode hexText (.new ⟨1000, 0, false⟩ false)
    (nodeWith (.array [.int 1])) ?_
  · rw [getNode_insertNode] at hread
    split_ifs at hread
    have hprops := Option.some.inj (Option.some.inj hread)
    have htags : (nodeWith (.array [.int 1])).properties["tags"]? = some (.array [.int 1]) :=
      OrdMap.get_insert_self _ _ _
    have hget := plainFormat.serde.get_props (nodeWith (.array [.int 1])).properties "tags"
    rw [hprops, htags] at hget
    cases Option.some.inj hget
  · intro k v hv
    rw [get_nodeWith hv]
    exact ⟨⟨by decide, by decide⟩, trivial⟩

end AresaDb.Store
