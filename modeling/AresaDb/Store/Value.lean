import AresaDb.Lib.Binary64
import AresaDb.Lib.OrdMap

/-! # Values, nodes and edges

The property graph of the storage engine (`storage/node.rs`) and the index record of a node
(`storage/tiered.rs`).

Rows and payloads are written as JSON.  What the JSON of a value is read back to is not always the
value: an array of small numbers comes back as bytes, a NaN as null.  `Serde` stands for that
round trip, value by value; rows and payloads are kept in the model as what they are read back
to. -/

namespace AresaDb.Store

/-- A node id, the 16 bytes of a UUID as one big-endian number. -/
structure NodeId where
  uuid : BitVec 128
deriving DecidableEq, Repr

/-- An edge id. -/
structure EdgeId where
  uuid : BitVec 128
deriving DecidableEq, Repr

theorem NodeId.toNat_injective : Function.Injective fun i : NodeId => i.uuid.toNat := by
  rintro ⟨a⟩ ⟨b⟩ h
  exact congrArg NodeId.mk (BitVec.eq_of_toNat_eq h)

theorem EdgeId.toNat_injective : Function.Injective fun i : EdgeId => i.uuid.toNat := by
  rintro ⟨a⟩ ⟨b⟩ h
  exact congrArg EdgeId.mk (BitVec.eq_of_toNat_eq h)

/-- Ids are ordered as their bytes are. -/
instance : LinearOrder NodeId := LinearOrder.lift' _ NodeId.toNat_injective

instance : LinearOrder EdgeId := LinearOrder.lift' _ EdgeId.toNat_injective

instance : Std.TransCmp (compare : NodeId → NodeId → Ordering) := inferInstance

instance : Std.TransCmp (compare : EdgeId → EdgeId → Ordering) := inferInstance

/-- A node id as text: 32 hexadecimal digits in groups of 8, 4, 4, 4 and 12. -/
def NodeId.display (id : NodeId) : String :=
  let digits := Nat.toDigits 16 id.uuid.toNat
  let padded := List.replicate (32 - digits.length) '0' ++ digits
  let group := fun start length => String.ofList ((padded.drop start).take length)
  group 0 8 ++ "-" ++ group 8 4 ++ "-" ++ group 12 4 ++ "-" ++ group 16 4 ++ "-" ++ group 20 12

/-- Milliseconds since the epoch. -/
abbrev Timestamp := ℤ

/-- A property value.  The components of a vector are `f32`s, widened; an object lists its fields
in the order of their names. -/
inductive Value where
  | null
  | bool (b : Bool)
  | int (i : ℤ)
  | float (f : Binary64)
  | string (s : String)
  | bytes (b : List UInt8)
  | vector (v : List Binary64)
  | array (l : List Value)
  | object (o : List (String × Value))

/-- The `==` of vectors: of one length, and equal component by component. -/
def eqVector : List Binary64 → List Binary64 → Bool
  | [], [] => true
  | x :: xs, y :: ys => x.eq y && eqVector xs ys
  | _, _ => false

mutual

/-- The derived `==` of values: one variant, and equal content.  A NaN is not equal to itself. -/
def Value.eq : Value → Value → Bool
  | .null, .null => true
  | .bool a, .bool b => a == b
  | .int a, .int b => a == b
  | .float a, .float b => a.eq b
  | .string a, .string b => a == b
  | .bytes a, .bytes b => a == b
  | .vector a, .vector b => eqVector a b
  | .array a, .array b => eqArray a b
  | .object a, .object b => eqObject a b
  | _, _ => false

/-- The `==` of arrays. -/
def eqArray : List Value → List Value → Bool
  | [], [] => true
  | a :: as, b :: bs => a.eq b && eqArray as bs
  | _, _ => false

/-- The `==` of objects. -/
def eqObject : List (String × Value) → List (String × Value) → Bool
  | [], [] => true
  | (k, a) :: as, (l, b) :: bs => k == l && a.eq b && eqObject as bs
  | _, _ => false

end

theorem eqVector_comm (v w : List Binary64) : eqVector v w = eqVector w v := by
  induction v generalizing w with
  | nil => cases w <;> rfl
  | cons x xs ih =>
      cases w with
      | nil => rfl
      | cons y ys => rw [eqVector, eqVector, Binary64.eq_comm, ih]

mutual

/-- Equality is symmetric. -/
theorem Value.eq_comm (a b : Value) : a.eq b = b.eq a := by
  cases a with
  | float x =>
      cases b with
      | float y => exact Binary64.eq_comm x y
      | _ => rfl
  | vector v =>
      cases b with
      | vector w => exact eqVector_comm v w
      | _ => rfl
  | array as =>
      cases b with
      | array bs => exact eqArray_comm as bs
      | _ => rfl
  | object as =>
      cases b with
      | object bs => exact eqObject_comm as bs
      | _ => rfl
  | null => cases b <;> rfl
  | bool _ | int _ | string _ | bytes _ => cases b <;> first | rfl | exact Bool.beq_comm

theorem eqArray_comm (as bs : List Value) : eqArray as bs = eqArray bs as := by
  cases as with
  | nil => cases bs <;> rfl
  | cons a as =>
      cases bs with
      | nil => rfl
      | cons b bs => rw [eqArray, eqArray, Value.eq_comm a b, eqArray_comm as bs]

theorem eqObject_comm (as bs : List (String × Value)) : eqObject as bs = eqObject bs as := by
  cases as with
  | nil => cases bs <;> rfl
  | cons a as =>
      cases bs with
      | nil => rfl
      | cons b bs =>
          rw [eqObject, eqObject, Value.eq_comm a.2 b.2, eqObject_comm as bs, Bool.beq_comm]

end

def Value.isNull : Value → Bool
  | .null => true
  | _ => false

/-- The properties of a node or an edge. -/
abbrev Props := OrdMap String Value

/-- Overwrite properties with the fields of an object; other values change nothing. -/
def mergeProps (properties : Props) : Value → Props
  | .object newProps => newProps.foldl (fun p kv => p.insert kv.1 kv.2) properties
  | _ => properties

structure Node where
  id : NodeId
  nodeType : String
  properties : Props
  createdAt : Timestamp
  updatedAt : Timestamp

structure Edge where
  id : EdgeId
  from_ : NodeId
  to_ : NodeId
  edgeType : String
  properties : Props
  createdAt : Timestamp

/-- Where the payload of a node is stored. -/
inductive PayloadLocation where
  | local
  | cloud
deriving DecidableEq, Repr

/-- The record of a node that always stays local. -/
structure NodeIndex where
  nodeType : String
  createdAt : Timestamp
  updatedAt : Timestamp
  payloadLocation : PayloadLocation
  payloadSize : ℕ
  propertyCount : ℕ
deriving DecidableEq

/-- `n.min(u32::MAX) as u32` -/
def capU32 (n : ℕ) : ℕ := min n (2 ^ 32 - 1)

/-- `n.min(u16::MAX) as u16` -/
def capU16 (n : ℕ) : ℕ := min n (2 ^ 16 - 1)

def NodeIndex.fromNode (node : Node) (location : PayloadLocation) (payloadSize : ℕ) :
    NodeIndex where
  nodeType := node.nodeType
  createdAt := node.createdAt
  updatedAt := node.updatedAt
  payloadLocation := location
  payloadSize := capU32 payloadSize
  propertyCount := capU16 node.properties.size

def NodeIndex.toNode (index : NodeIndex) (id : NodeId) (properties : Props) : Node where
  id := id
  nodeType := index.nodeType
  properties := properties
  createdAt := index.createdAt
  updatedAt := index.updatedAt

/-! ### Nesting

Rows and payloads are read with a parser that gives up on text with 128 levels of nesting. -/

mutual

/-- The levels of nesting of the text of a value. -/
def Value.depth : Value → ℕ
  | .bytes _ | .vector _ => 1
  | .array l => depthArray l + 1
  | .object o => depthObject o + 1
  | _ => 0

def depthArray : List Value → ℕ
  | [] => 0
  | v :: vs => max v.depth (depthArray vs)

def depthObject : List (String × Value) → ℕ
  | [] => 0
  | (_, v) :: vs => max v.depth (depthObject vs)

end

/-- Text with these properties inside so many levels parses. -/
def parsesWithin (levels : ℕ) (p : Props) : Bool := p.toList.all fun e => e.2.depth + levels < 128

/-- A payload parses; the object of the properties is a level. -/
def parses (p : Props) : Bool := parsesWithin 1 p

/-- A row parses; the properties are an object inside the object of the row. -/
def Node.parses (node : Node) : Bool := parsesWithin 2 node.properties

def Edge.parses (edge : Edge) : Bool := parsesWithin 2 edge.properties

/-- Every property leaves the parser a level. -/
theorem parsesWithin_iff {levels : ℕ} {p : Props} :
    parsesWithin levels p = true ↔
      ∀ (k : String) (v : Value), p[k]? = some v → v.depth + levels < 128 := by
  unfold parsesWithin
  rw [List.all_eq_true]
  constructor
  · exact fun h k v hv => of_decide_eq_true (h (k, v) ((OrdMap.mem_toList p k v).mpr hv))
  · exact fun h e he => decide_eq_true (h e.1 e.2 ((OrdMap.mem_toList p e.1 e.2).mp he))

theorem parses_iff {p : Props} :
    parses p = true ↔ ∀ (k : String) (v : Value), p[k]? = some v → v.depth < 127 :=
  parsesWithin_iff.trans (by simp only [Nat.add_lt_add_iff_right (k := 1) (m := 127)])

section

variable {α : Type} (parses : α → Bool)

/-- The row that is read, if there is one; the outer `none` is the error that it does not parse. -/
def readRow (row : Option α) : Option (Option α) := if row.all parses then some row else none

/-- The rows that are read, one after the other; `none` is the error of one that does not parse. -/
def readRows (rows : List α) : Option (List α) := if rows.all parses then some rows else none

variable {parses}

theorem readRow_eq_some {row row' : Option α} (h : readRow parses row = some row') :
    row.all parses = true ∧ row' = row := by
  unfold readRow at h
  split_ifs at h with hall
  exact ⟨hall, (Option.some.inj h).symm⟩

theorem readRows_eq_some {rows rows' : List α} (h : readRows parses rows = some rows') :
    rows.all parses = true ∧ rows' = rows := by
  unfold readRows at h
  split_ifs at h with hall
  exact ⟨hall, (Option.some.inj h).symm⟩

end

/-! ### JSON -/

/-- The JSON round trip of the storage engine. -/
structure Serde where
  /-- What the JSON text of a value is read back to. -/
  reread : Value → Value
  /-- The length of the JSON text of a property map. -/
  size : Props → ℕ
  /-- The JSON text of a value. -/
  text : Value → String
  /-- Reading back keeps the levels of nesting. -/
  depth_reread : ∀ v, (reread v).depth = v.depth

namespace Serde

variable (J : Serde)

/-- A property map written and read back. -/
def props (p : Props) : Props := p.map fun _ v => J.reread v

/-- A node written and read back. -/
def node (n : Node) : Node := { n with properties := J.props n.properties }

/-- An edge written and read back. -/
def edge (e : Edge) : Edge := { e with properties := J.props e.properties }

@[simp] theorem node_id (n : Node) : (J.node n).id = n.id := rfl

@[simp] theorem node_nodeType (n : Node) : (J.node n).nodeType = n.nodeType := rfl

@[simp] theorem edge_id (e : Edge) : (J.edge e).id = e.id := rfl

@[simp] theorem edge_from (e : Edge) : (J.edge e).from_ = e.from_ := rfl

@[simp] theorem edge_to (e : Edge) : (J.edge e).to_ = e.to_ := rfl

@[simp] theorem edge_edgeType (e : Edge) : (J.edge e).edgeType = e.edgeType := rfl

theorem get_props (p : Props) (k : String) : (J.props p)[k]? = p[k]?.map J.reread := by
  unfold props
  exact Std.ExtTreeMap.getElem?_map

/-- Read back, a text parses as it did. -/
@[simp] theorem parsesWithin_props (levels : ℕ) (p : Props) :
    parsesWithin levels (J.props p) = parsesWithin levels p := by
  rw [Bool.eq_iff_iff, parsesWithin_iff, parsesWithin_iff]
  simp only [J.get_props, Option.map_eq_some_iff]
  constructor
  · intro h k v hv
    rw [← J.depth_reread v]
    exact h k _ ⟨v, hv, rfl⟩
  · rintro h k _ ⟨v, hv, rfl⟩
    rw [J.depth_reread v]
    exact h k v hv

@[simp] theorem parses_props (p : Props) : parses (J.props p) = parses p :=
  J.parsesWithin_props 1 p

@[simp] theorem parses_node (n : Node) : (J.node n).parses = n.parses :=
  J.parsesWithin_props 2 n.properties

@[simp] theorem parses_edge (e : Edge) : (J.edge e).parses = e.parses :=
  J.parsesWithin_props 2 e.properties

end Serde

/-- The JSON text of a value without fractions, nesting or characters to escape. -/
def plainText : Value → String
  | .null => "null"
  | .bool b => toString b
  | .int i => toString i
  | .string s => "\"" ++ s ++ "\""
  | _ => ""

/-- JSON of such values, which loses nothing. -/
def plainJson : Serde where
  reread := id
  size p :=
    1 + max 1 (p.toList.map fun e => e.1.utf8ByteSize + 4 + (plainText e.2).utf8ByteSize).sum
  text := plainText
  depth_reread _ := rfl

end AresaDb.Store
