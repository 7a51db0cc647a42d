import AresaDb.Lib.Format
import AresaDb.Store.IdText

/-! # The wire protocol

Requests and responses (`server/protocol.rs`) and what `bincode` makes of them: fields in their
order, a 32-bit number for the variant.  A property value is an untagged enum: its content is
written without any sign of the variant, and reading it asks the format what comes next, which
`bincode` answers with an error.  So a message is read back exactly when it carries no value
(`Request.readable_iff`, `Response.readable_iff`). -/

namespace AresaDb.Server

open ByteOrder AresaDb.Store

/-- `lz4_flex`, which inverts itself. -/
structure Lz4 where
  compressPrependSize : Bytes → Bytes
  decompressSizePrepended : Bytes → Option Bytes
  decompress_compress : ∀ b, decompressSizePrepended (compressPrependSize b) = some b

/-- The libraries under the protocol. -/
structure Libraries where
  uuid : UuidText
  lz4 : Lz4
  /-- The bits of an `f32`, of one that is widened. -/
  f32Bits : Binary64 → UInt32

/-! ### Messages -/

/-- A node as it is sent. -/
structure Node where
  id : NodeId
  nodeType : String
  properties : Props
  createdAt : Int64
  updatedAt : Int64

/-- An edge as it is sent. -/
structure Edge where
  id : EdgeId
  from_ : NodeId
  to_ : NodeId
  edgeType : String
  properties : Props
  createdAt : Int64

inductive Request where
  | ping
  | disconnect
  | insertNode (nodeType : String) (properties : Value)
  | getNode (id : String)
  | updateNode (id : String) (properties : Value)
  | deleteNode (id : String)
  | getNodesByType (nodeType : String) (limit : Option UInt64)
  | createEdge (fromId toId edgeType : String) (properties : Option Value)
  | getEdgesFrom (nodeId : String) (edgeType : Option String)
  | getEdgesTo (nodeId : String) (edgeType : Option String)
  | deleteEdge (edgeId : String)
  | query (sql : String) (limit : Option UInt64)
  | traverse (startId : String) (depth : UInt32) (edgeTypes : Option (List String))
  | status
  | beginTransaction
  | commitTransaction (txId : UInt64)
  | rollbackTransaction (txId : UInt64)

inductive ErrorCode where
  | unknown
  | invalidRequest
  | nodeNotFound
  | edgeNotFound
  | queryParseError
  | queryExecutionError
  | transactionError
  | permissionDenied
  | serverOverloaded
  | internalError
deriving DecidableEq

inductive Response where
  | pong
  | goodbye
  | node (node : Node)
  | maybeNode (node : Option Node)
  | nodes (nodes : List Node)
  | edge (edge : Edge)
  | edges (edges : List Edge)
  | ok
  | queryResult (columns : List String) (rows : List (List Value))
      (rowsAffected executionTimeMs : UInt64)
  | traversalResult (nodes : List Node) (edges : List Edge) (depth : UInt32)
  | status (name : String) (nodeCount edgeCount sizeBytes : UInt64)
  | transactionStarted (txId : UInt64)
  | transactionCommitted
  | transactionRolledBack
  | error (code : ErrorCode) (message : String)

/-! ### The parts of messages -/

section

variable (X : Libraries)

mutual

/-- The content of a value. -/
def putValue : Value → Bytes
  | .null => []
  | .bool b => [if b then 1 else 0]
  | .int i => Codec.word.put (Int64.ofInt i).toUInt64
  | .float f => Codec.word.put f.bits
  | .string s => Codec.string.put s
  | .bytes b => Codec.byte.list.put b
  | .vector v => Codec.dword.list.put (v.map X.f32Bits)
  | .array l => Codec.putLength u64Max l.length ++ putValues l
  | .object o => Codec.putLength u64Max o.length ++ putFields o

def putValues : List Value → Bytes
  | [] => []
  | v :: vs => putValue v ++ putValues vs

def putFields : List (String × Value) → Bytes
  | [] => []
  | (k, v) :: vs => Codec.string.put k ++ putValue v ++ putFields vs

end

/-- `deserialize_any` is an error, so no value is read. -/
def value : Format Value := .writeOnly (putValue X)

def unit : Format Unit := .ofCodec ⟨fun _ => [], fun b => some ((), b), fun _ _ => rfl⟩

def string : Format String := .ofCodec .string

def u32 : Format UInt32 := .ofCodec .dword

def u64 : Format UInt64 := .ofCodec .word

/-- A timestamp. -/
def i64 : Format Int64 := u64.iso Int64.toUInt64 UInt64.toInt64 Int64.toInt64_toUInt64

/-- An id is written as text. -/
def nodeId : Format NodeId := .ofCodec
  { put := fun id => Codec.string.put id.display
    get := fun b => do
      let (text, b) ← Codec.string.get b
      let id ← NodeId.parse X.uuid text
      return (id, b)
    get_put := fun id rest => by
      simp [Codec.get_put, NodeId.parse_display] }

def edgeId : Format EdgeId := .ofCodec
  { put := fun id => Codec.string.put id.display
    get := fun b => do
      let (text, b) ← Codec.string.get b
      let id ← EdgeId.parse X.uuid text
      return (id, b)
    get_put := fun id rest => by
      simp [Codec.get_put, EdgeId.parse_display] }

theorem insertAll_toList_id (p : Props) : OrdMap.insertAll ∅ Prod.fst Prod.snd p.toList = p := by
  refine (OrdMap.insertAll_toList p fun v => v).trans (OrdMap.ext fun k => ?_)
  rw [OrdMap.get_map]
  exact Option.map_id'

def props : Format Props :=
  (string.pair (value X)).list.iso (fun p => p.toList) (fun l => .insertAll ∅ Prod.fst Prod.snd l)
    insertAll_toList_id

def node : Format Node :=
  ((nodeId X).pair (string.pair ((props X).pair (i64.pair i64)))).iso
    (fun n => (n.id, n.nodeType, n.properties, n.createdAt, n.updatedAt))
    (fun f => ⟨f.1, f.2.1, f.2.2.1, f.2.2.2.1, f.2.2.2.2⟩) fun _ => rfl

def edge : Format Edge :=
  ((edgeId X).pair ((nodeId X).pair ((nodeId X).pair (string.pair ((props X).pair i64))))).iso
    (fun e => (e.id, e.from_, e.to_, e.edgeType, e.properties, e.createdAt))
    (fun f => ⟨f.1, f.2.1, f.2.2.1, f.2.2.2.1, f.2.2.2.2.1, f.2.2.2.2.2⟩) fun _ => rfl

end

/-! ### Variants -/

namespace Request

/-- The fields of a variant. -/
def Fields : Fin 17 → Type
  | 0 | 1 | 13 | 14 => Unit
  | 2 | 4 => String × Value
  | 3 | 5 | 10 => String
  | 6 | 11 => String × Option UInt64
  | 7 => String × String × String × Option Value
  | 8 | 9 => String × Option String
  | 12 => String × UInt32 × Option (List String)
  | 15 => UInt64
  | _ => UInt64

def fields : Request → Σ i, Fields i
  | .ping => ⟨0, ()⟩
  | .disconnect => ⟨1, ()⟩
  | .insertNode nodeType properties => ⟨2, (nodeType, properties)⟩
  | .getNode id => ⟨3, id⟩
  | .updateNode id properties => ⟨4, (id, properties)⟩
  | .deleteNode id => ⟨5, id⟩
  | .getNodesByType nodeType limit => ⟨6, (nodeType, limit)⟩
  | .createEdge fromId toId edgeType properties => ⟨7, (fromId, toId, edgeType, properties)⟩
  | .getEdgesFrom nodeId edgeType => ⟨8, (nodeId, edgeType)⟩
  | .getEdgesTo nodeId edgeType => ⟨9, (nodeId, edgeType)⟩
  | .deleteEdge edgeId => ⟨10, edgeId⟩
  | .query sql limit => ⟨11, (sql, limit)⟩
  | .traverse startId depth edgeTypes => ⟨12, (startId, depth, edgeTypes)⟩
  | .status => ⟨13, ()⟩
  | .beginTransaction => ⟨14, ()⟩
  | .commitTransaction txId => ⟨15, txId⟩
  | .rollbackTransaction txId => ⟨16, txId⟩

def ofFields : (i : Fin 17) → Fields i → Request
  | 0, _ => .ping
  | 1, _ => .disconnect
  | 2, (nodeType, properties) => .insertNode nodeType properties
  | 3, id => .getNode id
  | 4, (id, properties) => .updateNode id properties
  | 5, id => .deleteNode id
  | 6, (nodeType, limit) => .getNodesByType nodeType limit
  | 7, (fromId, toId, edgeType, properties) => .createEdge fromId toId edgeType properties
  | 8, (nodeId, edgeType) => .getEdgesFrom nodeId edgeType
  | 9, (nodeId, edgeType) => .getEdgesTo nodeId edgeType
  | 10, edgeId => .deleteEdge edgeId
  | 11, (sql, limit) => .query sql limit
  | 12, (startId, depth, edgeTypes) => .traverse startId depth edgeTypes
  | 13, _ => .status
  | 14, _ => .beginTransaction
  | 15, txId => .commitTransaction txId
  | 16, txId => .rollbackTransaction txId
  | ⟨_ + 17, h⟩, _ => absurd h (by omega)

def fieldFormat (X : Libraries) : (i : Fin 17) → Format (Fields i)
  | 0 | 1 | 13 | 14 => unit
  | 2 | 4 => string.pair (value X)
  | 3 | 5 | 10 => string
  | 6 | 11 => string.pair u64.option
  | 7 => string.pair (string.pair (string.pair (value X).option))
  | 8 | 9 => string.pair string.option
  | 12 => string.pair (u32.pair string.list.option)
  | 15 => u64
  | 16 => u64
  | ⟨_ + 17, h⟩ => absurd h (by omega)

def format (X : Libraries) : Format Request :=
  (Format.tagged (by norm_num) (fieldFormat X)).iso fields (fun f => ofFields f.1 f.2) fun r => by
    cases r <;> rfl

/-- The request carries no property value. -/
def Valueless : Request → Prop
  | .insertNode _ _ | .updateNode _ _ => False
  | .createEdge _ _ _ properties => properties = none
  | _ => True

theorem readable_iff (X : Libraries) (r : Request) : (format X).readable r ↔ r.Valueless := by
  rw [format, Format.readable_iso, Format.readable_tagged]
  cases r with
  | insertNode nodeType properties => exact iff_of_false And.right fun h => h
  | updateNode id properties => exact iff_of_false And.right fun h => h
  | createEdge fromId toId edgeType properties =>
      constructor
      · rintro ⟨-, -, -, h⟩
        exact Option.eq_none_iff_forall_not_mem.mpr h
      · rintro rfl
        exact ⟨trivial, trivial, trivial, fun v hv => by cases hv⟩
  | _ => exact iff_of_true (by simp [fields, fieldFormat, unit, string, u32, u64]) trivial

end Request

namespace ErrorCode

/-- The number of a code. -/
def index : ErrorCode → Fin 10
  | .unknown => 0
  | .invalidRequest => 1
  | .nodeNotFound => 2
  | .edgeNotFound => 3
  | .queryParseError => 4
  | .queryExecutionError => 5
  | .transactionError => 6
  | .permissionDenied => 7
  | .serverOverloaded => 8
  | .internalError => 9

def ofIndex : Fin 10 → ErrorCode
  | 0 => .unknown
  | 1 => .invalidRequest
  | 2 => .nodeNotFound
  | 3 => .edgeNotFound
  | 4 => .queryParseError
  | 5 => .queryExecutionError
  | 6 => .transactionError
  | 7 => .permissionDenied
  | 8 => .serverOverloaded
  | 9 => .internalError

def format : Format ErrorCode :=
  (Format.tagged (by norm_num) fun _ : Fin 10 => unit).iso (fun code => ⟨code.index, ()⟩)
    (fun f => ofIndex f.1) fun code => by cases code <;> rfl

end ErrorCode

namespace Response

/-- The fields of a variant. -/
def Fields : Fin 15 → Type
  | 0 | 1 | 7 | 12 | 13 => Unit
  | 2 => Node
  | 3 => Option Node
  | 4 => List Node
  | 5 => Edge
  | 6 => List Edge
  | 8 => List String × List (List Value) × UInt64 × UInt64
  | 9 => List Node × List Edge × UInt32
  | 10 => String × UInt64 × UInt64 × UInt64
  | 11 => UInt64
  | _ => ErrorCode × String

def fields : Response → Σ i, Fields i
  | .pong => ⟨0, ()⟩
  | .goodbye => ⟨1, ()⟩
  | .node n => ⟨2, n⟩
  | .maybeNode n => ⟨3, n⟩
  | .nodes ns => ⟨4, ns⟩
  | .edge e => ⟨5, e⟩
  | .edges es => ⟨6, es⟩
  | .ok => ⟨7, ()⟩
  | .queryResult columns rows rowsAffected executionTimeMs =>
      ⟨8, (columns, rows, rowsAffected, executionTimeMs)⟩
  | .traversalResult ns es depth => ⟨9, (ns, es, depth)⟩
  | .status name nodeCount edgeCount sizeBytes => ⟨10, (name, nodeCount, edgeCount, sizeBytes)⟩
  | .transactionStarted txId => ⟨11, txId⟩
  | .transactionCommitted => ⟨12, ()⟩
  | .transactionRolledBack => ⟨13, ()⟩
  | .error code message => ⟨14, (code, message)⟩

def ofFields : (i : Fin 15) → Fields i → Response
  | 0, _ => .pong
  | 1, _ => .goodbye
  | 2, n => .node n
  | 3, n => .maybeNode n
  | 4, ns => .nodes ns
  | 5, e => .edge e
  | 6, es => .edges es
  | 7, _ => .ok
  | 8, (columns, rows, rowsAffected, executionTimeMs) =>
      .queryResult columns rows rowsAffected executionTimeMs
  | 9, (ns, es, depth) => .traversalResult ns es depth
  | 10, (name, nodeCount, edgeCount, sizeBytes) => .status name nodeCount edgeCount sizeBytes
  | 11, txId => .transactionStarted txId
  | 12, _ => .transactionCommitted
  | 13, _ => .transactionRolledBack
  | 14, (code, message) => .error code message
  | ⟨_ + 15, h⟩, _ => absurd h (by omega)

def fieldFormat (X : Libraries) : (i : Fin 15) → Format (Fields i)
  | 0 | 1 | 7 | 12 | 13 => unit
  | 2 => Server.node X
  | 3 => (Server.node X).option
  | 4 => (Server.node X).list
  | 5 => Server.edge X
  | 6 => (Server.edge X).list
  | 8 => string.list.pair ((value X).list.list.pair (u64.pair u64))
  | 9 => (Server.node X).list.pair ((Server.edge X).list.pair u32)
  | 10 => string.pair (u64.pair (u64.pair u64))
  | 11 => u64
  | 14 => ErrorCode.format.pair string
  | ⟨_ + 15, h⟩ => absurd h (by omega)

def format (X : Libraries) : Format Response :=
  (Format.tagged (by norm_num) (fieldFormat X)).iso fields (fun f => ofFields f.1 f.2) fun r => by
    cases r <;> rfl

/-- The response carries no property value: its nodes and edges have no properties, and its rows
are empty. -/
def Valueless : Response → Prop
  | .node n => n.properties = ∅
  | .maybeNode n => ∀ m ∈ n, m.properties = ∅
  | .nodes ns => ∀ n ∈ ns, n.properties = ∅
  | .edge e => e.properties = ∅
  | .edges es => ∀ e ∈ es, e.properties = ∅
  | .queryResult _ rows _ _ => ∀ row ∈ rows, row = []
  | .traversalResult ns es _ =>
      (∀ n ∈ ns, n.properties = ∅) ∧ ∀ e ∈ es, e.properties = ∅
  | _ => True

theorem readable_props (X : Libraries) (p : Props) : (props X).readable p ↔ p = ∅ := by
  have hentry : ∀ e : String × Value, ¬ (string.pair (value X)).readable e := fun e h => h.2
  rw [props, Format.readable_iso, Format.readable_list]
  constructor
  · intro h
    refine OrdMap.ext fun k => ?_
    cases hv : p[k]? with
    | none => exact (OrdMap.get_empty k).symm
    | some v => exact absurd (h (k, v) ((OrdMap.mem_toList p k v).mpr hv)) (hentry _)
  · rintro rfl e he
    have hnone := (OrdMap.mem_toList ∅ e.1 e.2).mp he
    rw [OrdMap.get_empty] at hnone
    cases hnone

theorem readable_node (X : Libraries) (n : Node) :
    (Server.node X).readable n ↔ n.properties = ∅ := by
  simp [Server.node, readable_props, nodeId, string, i64, u64]

theorem readable_edge (X : Libraries) (e : Edge) :
    (Server.edge X).readable e ↔ e.properties = ∅ := by
  simp [Server.edge, readable_props, edgeId, nodeId, string, i64, u64]

theorem readable_rows (X : Libraries) (rows : List (List Value)) :
    (value X).list.list.readable rows ↔ ∀ row ∈ rows, row = [] := by
  rw [Format.readable_list]
  refine forall₂_congr fun row _ => ?_
  rw [Format.readable_list, List.eq_nil_iff_forall_not_mem]
  rfl

theorem readable_iff (X : Libraries) (r : Response) : (format X).readable r ↔ r.Valueless := by
  rw [format, Format.readable_iso, Format.readable_tagged]
  cases r with
  | node n => exact readable_node X n
  | maybeNode n => exact forall₂_congr fun n _ => readable_node X n
  | nodes l => exact forall₂_congr fun n _ => readable_node X n
  | edge e => exact readable_edge X e
  | edges l => exact forall₂_congr fun e _ => readable_edge X e
  | queryResult columns rows rowsAffected executionTimeMs =>
      have hrows := readable_rows X rows
      simp [fields, fieldFormat, string, u64, Valueless] at hrows ⊢
      exact hrows
  | traversalResult l m depth =>
      simp [fields, fieldFormat, u32, Valueless, readable_node, readable_edge]
  | _ =>
      exact iff_of_true (by simp [fields, fieldFormat, unit, string, u64, ErrorCode.format]) trivial

end Response

end AresaDb.Server
