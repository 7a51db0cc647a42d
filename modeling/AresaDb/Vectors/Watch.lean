import AresaDb.Lib.Run
import AresaDb.Vectors.Handle

/-! # Runs of the handle

The index of a node type and a field follows the inserts of embeddings, and no other write.  A write
past an index leaves a vector in it that is gone (`outdates`), or out of it that is there
(`misses`); a rebuild makes up for both.  A run is watched for the indexes that this has happened
to. -/

namespace AresaDb.Vectors

open AresaDb.Store

/-- The vector of a node of the type, if it has the dimension. -/
def typedVector (nodeType field : String) (dimension : ℕ) (node : Node) :
    Option (List Binary64) :=
  if node.nodeType = nodeType then vectorOfDim field dimension node else none

namespace Handle

variable (F : JsonFormat) (P : Platform) (db : Handle)

/-- The node of an id, as it is stored. -/
def stored (id : NodeId) : Option Node :=
  (db.tiered.local_.recordOf F.serde id).bind fun index =>
    ((db.tiered.copies id).find F.serde index).map (index.toNode id)

/-- The current vector of an id. -/
def vectorAt (nodeType field : String) (dimension : ℕ) (id : NodeId) : Option (List Binary64) :=
  (db.stored F id).bind (typedVector nodeType field dimension)

/-- The ids of the index records. -/
def ids : List NodeId := db.tiered.local_.nodeIndexes.keys

/-- The ids with a current vector. -/
def matching (nodeType field : String) (dimension : ℕ) : List NodeId :=
  db.ids.filter fun id => (db.vectorAt F nodeType field dimension id).isSome

/-- The index that a search goes to. -/
def indexFor (nodeType field : String) : Option VectorIndex :=
  match db.vectorIndexes[toLex (nodeType, field)]? with
  | some index => some index
  | none => do
      let (nodes, _) ← Database.getAllByType F db.tiered nodeType none
      let dimension ← detectDimension field nodes
      return indexNodes P field (.withParams dimension 16 4 .cosine) nodes

end Handle

/-- The distance that an index reports for a vector. -/
def cosineDistance (P : Platform) (query v : List Binary64) : Binary64 :=
  P.f32.sub one (P.f32.dot (VectorIndex.normalize P query) (VectorIndex.normalize P v))

/-! ### Runs -/

inductive VectorOp where
  | insertNode (id : NodeId) (now : Timestamp) (nodeType : String) (properties : Json)
  | insertWithEmbedding (id : NodeId) (now : Timestamp) (nodeType : String) (properties : Json)
      (field : String) (embedding : List Binary64)
  | updateNode (now : Timestamp) (id : NodeId) (properties : Json)
  | deleteNode (id : NodeId)
  | similaritySearch (query : List Binary64) (nodeType field : String) (k : ℕ)
      (metric : DistanceMetric)
  | rebuildVectorIndex (nodeType field : String)

namespace VectorOp

variable (F : JsonFormat) (P : Platform) (U : Unicode) (db : Handle)

def run : VectorOp → Handle
  | .insertNode id now t properties => (db.insertNode F U id now t properties).getD db
  | .insertWithEmbedding id now t properties field embedding =>
      (db.insertWithEmbedding F P U id now t properties field embedding).getD db
  | .updateNode now id properties => (db.updateNode F now id properties).getD db
  | .deleteNode id => (db.deleteNode id).getD { db with tiered := db.tiered.dropCopies id }
  | .similaritySearch query t field k metric => (db.similaritySearch F P query t field k metric).2
  | .rebuildVectorIndex t field => (db.rebuildVectorIndex F P t field).2

/-- The id that is written, and the node that is stored of it afterwards. -/
def written : VectorOp → Option (NodeId × Option Node)
  | .insertNode id now t properties =>
      (Value.fromJson F properties).map fun v => (id, some (F.serde.node (.new id now t v)))
  | .insertWithEmbedding id now t properties field embedding =>
      (Value.fromJson F properties).map fun v =>
        (id, some (F.serde.node (.new id now t (withEmbedding field embedding v))))
  | .updateNode now id properties => do
      let v ← Value.fromJson F properties
      let node ← db.stored F id
      let node' := F.serde.node (LocalStorage.touchNode now node v)
      if parses node.properties && parses node'.properties then return (id, some node') else none
  | .deleteNode id => some (id, none)
  | _ => none

/-- The vector of the id in an index of the dimension: an insert of an embedding tells it, and no
other write does. -/
def told (t f : String) (dimension : ℕ) (id : NodeId) : VectorOp → Option (List Binary64)
  | .insertWithEmbedding _ _ t' _ f' embedding =>
      if t' = t ∧ f' = f ∧ embedding.length = dimension then some embedding
      else db.vectorAt F t f dimension id
  | _ => db.vectorAt F t f dimension id

/-- The index is left with a vector that is gone. -/
def outdates (op : VectorOp) (t f : String) (dimension : ℕ) : Bool :=
  match op.written F db with
  | some (id, node) =>
      (op.told F db t f dimension id).isSome &&
        decide (node.bind (typedVector t f dimension) ≠ op.told F db t f dimension id)
  | none => false

/-- The index is left without a vector that is there: it was not told, or the index is new and the
others were there before. -/
def misses (op : VectorOp) (t f : String) (dimension : ℕ) : Bool :=
  match op.written F db with
  | some (id, node) =>
      (node.bind (typedVector t f dimension)).isSome &&
          decide (node.bind (typedVector t f dimension) ≠ op.told F db t f dimension id) ||
        db.vectorIndexes[toLex (t, f)]?.isNone && !(db.matching F t f dimension).isEmpty
  | none => false

/-- The index is built anew. -/
def renews (op : VectorOp) (t f : String) : Bool :=
  match op with
  | .rebuildVectorIndex t' f' =>
      decide (t' = t ∧ f' = f) && (db.rebuildVectorIndex F P t f).1.isSome
  | _ => false

/-- A new node draws an id that no node has. -/
def drawsFresh : VectorOp → Bool
  | .insertNode id .. | .insertWithEmbedding id .. => (db.stored F id).isNone
  | _ => true

end VectorOp

/-- A handle beside the keys whose index has vectors that are gone, and those whose index lacks
vectors that are there. -/
structure Watched where
  db : Handle
  outdated : String → String → Bool
  lacking : String → String → Bool

namespace Watched

def new (config : TieredConfig) (hasBucket : Bool) : Watched :=
  ⟨.new config hasBucket, fun _ _ => false, fun _ _ => false⟩

/-- A mark of a key stays until its index is built anew, and is set by an event at the dimension of
its index. -/
def mark (F : JsonFormat) (P : Platform) (U : Unicode) (w : Watched) (op : VectorOp)
    (marks : String → String → Bool) (event : String → String → ℕ → Bool) (t f : String) : Bool :=
  marks t f && !op.renews F P w.db t f ||
    ((op.run F P U w.db).vectorIndexes[toLex (t, f)]?).any fun index => event t f index.dimension

def step (F : JsonFormat) (P : Platform) (U : Unicode) (w : Watched) (op : VectorOp) : Watched where
  db := op.run F P U w.db
  outdated := w.mark F P U op w.outdated (op.outdates F w.db)
  lacking := w.mark F P U op w.lacking (op.misses F w.db)

/-- What is reached from a new database. -/
def reached (F : JsonFormat) (P : Platform) (U : Unicode) (config : TieredConfig)
    (hasBucket : Bool) (ops : List VectorOp) : Watched :=
  Run.run (step F P U) (.new config hasBucket) ops

/-- Every new node of the run draws an id that no node has. -/
def Fresh (F : JsonFormat) (P : Platform) (U : Unicode) (config : TieredConfig) (hasBucket : Bool)
    (ops : List VectorOp) : Prop :=
  Run.Along (step F P U) (fun w op => op.drawsFresh F w.db = true) (.new config hasBucket) ops

instance (F : JsonFormat) (P : Platform) (U : Unicode) (config : TieredConfig) (hasBucket : Bool)
    (ops : List VectorOp) : Decidable (Fresh F P U config hasBucket ops) :=
  Run.decidableAlong (step F P U) _ _ ops

end Watched

end AresaDb.Vectors
