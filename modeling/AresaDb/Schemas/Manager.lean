import AresaDb.Schemas.Registry
import AresaDb.Store.Database

/-! # The schema manager

Schemas are kept as nodes of a type of their own (`schema/mod.rs`), with the name and the document
of the schema as properties.  Loading them skips whatever cannot be read back.

So the registry remembers what was saved exactly when every schema that was saved can be stored:
it has fields, its enumerations have values, and its types are not nested too deep for the parser
(`registry_exact_iff`). -/

namespace AresaDb.Schemas

open AresaDb.Store

namespace SchemaManager

variable (F : JsonFormat) (U : Unicode) (s : TieredStorage)

/-- The name that a node carries. -/
def nameOf (node : Node) : Option String :=
  match node.properties["name"]? with
  | some (.string n) => some n
  | _ => none

/-- The properties of the node of a schema. -/
def schemaProps (schema : Schema) : Json :=
  .object [("name", .string schema.name), ("schema_data", schema.toJson)]

/-- A new node draws an id. -/
def saveSchema (id : NodeId) (now : Timestamp) (schema : Schema) : Option TieredStorage := do
  let (existing, s₁) ← Database.getAllByType F s "__schema__" none
  match existing.find? fun node => nameOf node = some schema.name with
  | some node => Database.updateNode F s₁ now node.id (schemaProps schema)
  | none => Database.insertNode F U s₁ id now "__schema__" (schemaProps schema)

/-- The schema of a node, if it can be read back. -/
def loadSchema (node : Node) : Option Schema :=
  match node.properties["schema_data"]? with
  | some (.object data) => Schema.fromJson (Value.toJson (.object data))
  | _ => none

def loadSchemas : Option (List Schema × TieredStorage) := do
  let (nodes, s') ← Database.getAllByType F s "__schema__" none
  return (nodes.filterMap loadSchema, s')

def listSchemas : Option (List Schema × TieredStorage) := loadSchemas F s

/-- `none` is the error that the schema is not found, or that of the read. -/
def getSchema (name : String) : Option (Schema × TieredStorage) := do
  let (schemas, s') ← loadSchemas F s
  let schema ← schemas.find? fun schema => schema.name = name
  return (schema, s')

def removeSchema (name : String) : Option TieredStorage := do
  let (nodes, s₁) ← Database.getAllByType F s "__schema__" none
  match nodes.find? fun node => nameOf node = some name with
  | some node => Database.deleteNode s₁ node.id
  | none => return s₁

/-- `none` is the error that there are nodes of the schema, or that of a read. -/
def dropSchema (name : String) (force : Bool) : Option TieredStorage :=
  if force then removeSchema F s name
  else do
    let (nodes, s₁) ← Database.getAllByType F s name (some 1)
    if nodes.isEmpty then removeSchema F s₁ name else none

end SchemaManager

open SchemaManager

/-! ### Runs -/

/-- A call of the schema manager, or the loss of cache entries. -/
inductive SchemaOp where
  | save (id : NodeId) (now : Timestamp) (schema : Schema)
  | drop (name : String) (force : Bool)
  | list
  | loseCache (ids : List NodeId)

/-- A database beside the schemas that were saved and not dropped since. -/
structure Registry where
  remembered : OrdMap String Schema
  store : TieredStorage

namespace Registry

/-- A drop that returns an error drops nothing. -/
def step (F : JsonFormat) (U : Unicode) (r : Registry) : SchemaOp → Registry
  | .save id now schema =>
      ⟨r.remembered.insert schema.name schema, (saveSchema F U r.store id now schema).getD r.store⟩
  | .drop name force =>
      match dropSchema F r.store name force with
      | some store => ⟨r.remembered.erase name, store⟩
      | none => r
  | .list => { r with store := ((listSchemas F r.store).map Prod.snd).getD r.store }
  | .loseCache ids => { r with store := { r.store with cache := r.store.cache.eraseAll ids } }

/-- What is reached from a new database. -/
def reached (F : JsonFormat) (U : Unicode) (config : TieredConfig) (hasBucket : Bool)
    (ops : List SchemaOp) : Registry :=
  Run.run (step F U) ⟨∅, .new config hasBucket⟩ ops

/-- The registry answers with what is remembered, each schema once. -/
structure Exact (F : JsonFormat) (r : Registry) : Prop where
  listed : ∃ l s', listSchemas F r.store = some (l, s') ∧ l.Perm r.remembered.values
  found : ∀ name : String, (getSchema F r.store name).map Prod.fst = r.remembered[name]?

end Registry

/-- The ids that the saves of a run draw. -/
def drawnIds (ops : List SchemaOp) : List NodeId :=
  ops.filterMap fun
    | .save id _ _ => some id
    | _ => none

/-- The schemas that a run saves. -/
def savedSchemas (ops : List SchemaOp) : List Schema :=
  ops.filterMap fun
    | .save _ _ schema => some schema
    | _ => none

/-- The schema has fields, its enumerations have values, and its types are nested at most 123
levels deep. -/
structure Schema.Storable (schema : Schema) : Prop where
  filled : schema.filled = true
  levels : ∀ f ∈ schema.fields, f.fieldType.levels ≤ 123

/-! ### Nodes of schemas -/

/-- The properties of a node with a name and a document. -/
def rowProps (name : String) (data : Value) : Props :=
  ((∅ : Props).insert "name" (.string name)).insert "schema_data" data

/-- The node is that of a schema. -/
def IsRow (F : JsonFormat) (n : Node) (schema : Schema) : Prop :=
  n.nodeType = "__schema__" ∧ ∃ v, StandsFor F schema.toJson v ∧
    n.properties = rowProps schema.name (v.reread F)

section

variable {F : JsonFormat} {U : Unicode} {n : Node} {schema : Schema}

theorem get_rowProps (name : String) (data : Value) (k : String) :
    (rowProps name data)[k]? =
      if "schema_data" = k then some data
      else if "name" = k then some (.string name) else none := by
  unfold rowProps
  rw [OrdMap.get_insert, OrdMap.get_insert, OrdMap.get_empty]

theorem serde_rowProps (name : String) (data : Value) :
    F.serde.props (rowProps name data) = rowProps name (data.reread F) := by
  refine OrdMap.ext fun k => ?_
  rw [Serde.get_props, get_rowProps, get_rowProps]
  split_ifs <;> rfl

/-- An update overwrites both properties. -/
theorem mergeProps_rowProps (name name' : String) (data data' : Value) :
    mergeProps (rowProps name data) (.object [("name", .string name'), ("schema_data", data')]) =
      rowProps name' data' := by
  refine OrdMap.ext fun k => ?_
  change (((rowProps name data).insert "name" (.string name')).insert "schema_data" data')[k]? = _
  rw [OrdMap.get_insert, OrdMap.get_insert, get_rowProps, get_rowProps]
  split_ifs <;> rfl

theorem fromJson_schemaProps {v : Value} (h : StandsFor F schema.toJson v) :
    Value.fromJson F (schemaProps schema) =
      some (.object [("name", .string schema.name), ("schema_data", v)]) := by
  have hobject : fromJsonObject F [("name", .string schema.name), ("schema_data", schema.toJson)] =
      some [("name", .string schema.name), ("schema_data", v)] := by
    simp [fromJsonObject, h.converted, Value.fromJson]
  exact congrArg (Option.map Value.object) hobject

theorem IsRow.nameOf (h : IsRow F n schema) : nameOf n = some schema.name := by
  obtain ⟨-, v, -, hprops⟩ := h
  unfold SchemaManager.nameOf
  rw [hprops, get_rowProps]
  rfl

/-- A node is loaded when no array of its document is empty. -/
theorem IsRow.loadSchema (h : IsRow F n schema) :
    loadSchema n = if schema.filled then some schema else none := by
  obtain ⟨-, v, hv, hprops⟩ := h
  have hobject : ∃ data, v.reread F = .object data := by
    obtain ⟨data, -, hdata⟩ := Option.map_eq_some_iff.mp hv.converted
    exact ⟨_, congrArg (Value.reread F) hdata.symm⟩
  obtain ⟨data, hdata⟩ := hobject
  unfold SchemaManager.loadSchema
  rw [hprops, get_rowProps, hdata]
  change Schema.fromJson (Value.toJson (.object data)) = _
  rw [← hdata, hv.back, schema.fromJson_collapse]

/-- A node is parsed when the types are not nested too deep. -/
theorem IsRow.parses_iff (h : IsRow F n schema) :
    parses n.properties = true ↔ ∀ f ∈ schema.fields, f.fieldType.levels ≤ 123 := by
  obtain ⟨-, v, hv, hprops⟩ := h
  rw [Store.parses_iff, hprops, ← schema.depth_toJson, ← hv.depth]
  constructor
  · exact fun h => h "schema_data" _ (by rw [get_rowProps, if_pos rfl])
  · intro h k w hw
    rw [get_rowProps] at hw
    split_ifs at hw <;> cases hw
    · exact h
    · exact Nat.zero_lt_succ _

end

/-! ### One call -/

/-- The storage holds nodes of schemas. -/
structure Rows (F : JsonFormat) (nodes : OrdMap NodeId Node) (s : TieredStorage) : Prop where
  keeps : Keeps nodes s
  row : ∀ (id : NodeId) (n : Node), nodes[id]? = some n → ∃ schema, IsRow F n schema

/-- A save writes this node: that of the name, or a new one when there is none of the name. -/
def Writes (nodes : OrdMap NodeId Node) (id : NodeId) (name : String) (i : NodeId) : Prop :=
  (∃ n, nodes[i]? = some n ∧ nameOf n = some name) ∨
    (i = id ∧ ∀ (i' : NodeId) (n : Node), nodes[i']? = some n → nameOf n ≠ some name)

section

variable {F : JsonFormat} {U : Unicode} {nodes : OrdMap NodeId Node} {s : TieredStorage}

/-- All nodes are read, each once, unless some payload does not parse. -/
theorem Rows.getAll (h : Rows F nodes s) :
    ∃ l s', Database.getAllByType F s "__schema__" none =
        (if l.all (fun node => parses node.properties) then some (l, s') else none) ∧
      Rows F nodes s' ∧ (∀ n, n ∈ l ↔ nodes[n.id]? = some n) ∧ l.Nodup ∧
      (l.all (fun node => parses node.properties) = true ↔ AllParse nodes) := by
  obtain ⟨l, s', hread, hs', -, hl⟩ := h.keeps.getAllByType_eq (F := F) "__schema__" none
  obtain rfl := hl rfl
  have hmem : ∀ n, n ∈ (s.local_.nodeTypeIndex.get "__schema__").filterMap (fun id => nodes[id]?) ↔
      nodes[n.id]? = some n := by
    intro n
    rw [h.keeps.mem_listed]
    refine and_iff_left_of_imp fun hn => ?_
    obtain ⟨schema, hrow⟩ := h.row n.id n hn
    exact hrow.1
  refine ⟨_, s', hread, ⟨hs', h.row⟩, hmem, ?_, ?_⟩
  · exact (h.keeps.nodup_listed "__schema__").of_map
  · rw [List.all_eq_true]
    constructor
    · intro hall id n hn
      refine hall n ((hmem n).mpr ?_)
      rwa [h.keeps.coherent.node_id hn]
    · exact fun hall n hn => hall n.id n ((hmem n).mp hn)

/-- The first node of a name. -/
theorem find_nameOf {l : List Node} {name : String} :
    (∀ n, (l.find? fun node => nameOf node = some name) = some n →
      n ∈ l ∧ nameOf n = some name) ∧
    ((l.find? fun node => nameOf node = some name) = none →
      ∀ n ∈ l, nameOf n ≠ some name) := by
  constructor
  · intro n hn
    have hname := List.find?_some (p := fun node => decide (nameOf node = some name)) hn
    exact ⟨List.mem_of_find?_eq_some hn, of_decide_eq_true hname⟩
  · exact fun hnone n hn hname => List.find?_eq_none.mp hnone n hn (decide_eq_true hname)

theorem isRow_touch {n : Node} {schema schema' : Schema} (h : IsRow F n schema') {v : Value}
    (hv : StandsFor F schema.toJson v) (now : Timestamp) :
    IsRow F (F.serde.node (LocalStorage.touchNode now n
      (.object [("name", .string schema.name), ("schema_data", v)]))) schema := by
  obtain ⟨htype, v', -, hprops⟩ := h
  refine ⟨htype, v, hv, ?_⟩
  change F.serde.props (mergeProps n.properties _) = _
  rw [hprops, mergeProps_rowProps, serde_rowProps]

theorem isRow_new (id : NodeId) (now : Timestamp) {schema : Schema} {v : Value}
    (hv : StandsFor F schema.toJson v) :
    IsRow F (F.serde.node (.new id now "__schema__"
      (.object [("name", .string schema.name), ("schema_data", v)]))) schema :=
  ⟨rfl, v, hv, serde_rowProps schema.name v⟩

theorem Rows.insert (h : Rows F nodes s) {s' : TieredStorage} {i : NodeId} {n : Node}
    {schema : Schema} (hkeeps : Keeps (nodes.insert i n) s') (hrow : IsRow F n schema) :
    Rows F (nodes.insert i n) s' where
  keeps := hkeeps
  row id n' hn' := by
    rw [OrdMap.get_insert] at hn'
    split_ifs at hn' with hid
    · obtain rfl := Option.some.inj hn'
      exact ⟨schema, hrow⟩
    · exact h.row id n' hn'

/-- The node of a schema, updated: the new payload must parse too. -/
theorem Rows.updateRow (h : Rows F nodes s) {n : Node} (hnode : nodes[n.id]? = some n)
    (hcurrent : parses n.properties = true) (now : Timestamp) (schema : Schema) :
    (Database.updateNode F s now n.id (schemaProps schema) = none ∧
      ¬ ∀ f ∈ schema.fields, f.fieldType.levels ≤ 123) ∨
    ∃ s' n', Database.updateNode F s now n.id (schemaProps schema) = some s' ∧
      Rows F (nodes.insert n.id n') s' ∧ IsRow F n' schema := by
  obtain ⟨v, hv⟩ := fromJson_tame F schema.toJson schema.tame
  obtain ⟨schema', hrow⟩ := h.row n.id n hnode
  have hrow' := isRow_touch hrow hv now
  have hwritten : parses (mergeProps n.properties
        (.object [("name", .string schema.name), ("schema_data", v)])) = true ↔
      ∀ f ∈ schema.fields, f.fieldType.levels ≤ 123 := by
    rw [← hrow'.parses_iff, ← F.serde.parses_props]
    rfl
  unfold Database.updateNode
  rw [fromJson_schemaProps hv]
  simp only [Option.bind_eq_bind, Option.bind_some]
  by_cases hlevels : ∀ f ∈ schema.fields, f.fieldType.levels ≤ 123
  · right
    obtain ⟨node, s', hupdate, -, hs'⟩ := h.keeps.updateNode_some (J := F.serde) hnode now hcurrent
      (hwritten.mpr hlevels)
    exact ⟨s', _, by rw [hupdate]; rfl, h.insert hs' hrow', hrow'⟩
  · left
    have hdeep : ¬ (parses n.properties && parses (mergeProps n.properties
        (.object [("name", .string schema.name), ("schema_data", v)]))) = true := by
      rw [hcurrent, Bool.true_and]
      exact fun hp => hlevels (hwritten.mp hp)
    exact ⟨by rw [h.keeps.updateNode_none (J := F.serde) hnode now hdeep]; rfl, hlevels⟩

/-- A new node of a schema. -/
theorem Rows.insertRow (h : Rows F nodes s) {id : NodeId} (hfree : nodes[id]? = none)
    (now : Timestamp) (schema : Schema) :
    ∃ s' n', Database.insertNode F U s id now "__schema__" (schemaProps schema) = some s' ∧
      Rows F (nodes.insert id n') s' ∧ IsRow F n' schema := by
  obtain ⟨v, hv⟩ := fromJson_tame F schema.toJson schema.tame
  let node : Node := .new id now "__schema__"
    (.object [("name", .string schema.name), ("schema_data", v)])
  have hins : Database.insertNode F U s id now "__schema__" (schemaProps schema) =
      some (s.insertNode F.serde U node) := by
    unfold Database.insertNode
    rw [fromJson_schemaProps hv]
    rfl
  have hkeeps : Keeps (nodes.insert id (F.serde.node node)) (s.insertNode F.serde U node) :=
    @Keeps.insertNode F.serde U nodes s h.keeps node hfree
  have hrow : IsRow F (F.serde.node node) schema := isRow_new id now hv
  exact ⟨_, _, hins, h.insert hkeeps hrow, hrow⟩

/-- A save fails when some payload does not parse, or the new one does not; else it writes the
node of the schema. -/
theorem Rows.saveSchema (h : Rows F nodes s) {id : NodeId} (hfree : nodes[id]? = none)
    (now : Timestamp) (schema : Schema) :
    (saveSchema F U s id now schema = none ∧
      ¬ (AllParse nodes ∧ ∀ f ∈ schema.fields, f.fieldType.levels ≤ 123)) ∨
    ∃ s' i n, saveSchema F U s id now schema = some s' ∧ Rows F (nodes.insert i n) s' ∧
      IsRow F n schema ∧ Writes nodes id schema.name i := by
  obtain ⟨l, s₁, hread, hs₁, hmem, -, hall⟩ := h.getAll
  unfold SchemaManager.saveSchema
  rw [hread]
  by_cases hparse : l.all (fun node => parses node.properties) = true
  · rw [if_pos hparse]
    simp only [Option.bind_eq_bind, Option.bind_some]
    obtain ⟨hsome, hnone⟩ := @find_nameOf l schema.name
    cases hfind : l.find? fun node => nameOf node = some schema.name with
    | some n =>
        obtain ⟨hn, hname⟩ := hsome n hfind
        have hnode : nodes[n.id]? = some n := (hmem n).mp hn
        rcases hs₁.updateRow hnode (List.all_eq_true.mp hparse n hn) now schema with
          ⟨hfail, hlevels⟩ | ⟨s', n', hrun, hs', hrow⟩
        · exact .inl ⟨hfail, fun hboth => hlevels hboth.2⟩
        · exact .inr ⟨s', n.id, n', hrun, hs', hrow, .inl ⟨n, hnode, hname⟩⟩
    | none =>
        obtain ⟨s', n', hrun, hs', hrow⟩ := hs₁.insertRow (U := U) hfree now schema
        refine .inr ⟨s', id, n', hrun, hs', hrow, .inr ⟨rfl, fun i' n hn hname => ?_⟩⟩
        refine hnone hfind n ((hmem n).mpr ?_) hname
        rwa [h.keeps.coherent.node_id hn]
  · left
    rw [if_neg hparse]
    exact ⟨rfl, fun hboth => hparse (hall.mpr hboth.1)⟩

/-- A removal deletes the node of the name, if there is one. -/
theorem Rows.removeSchema (h : Rows F nodes s) (name : String) :
    (removeSchema F s name = none) ∨
    ∃ s', removeSchema F s name = some s' ∧
      ((∃ i n, nodes[i]? = some n ∧ nameOf n = some name ∧ Rows F (nodes.erase i) s') ∨
        (Rows F nodes s' ∧
          ∀ (i : NodeId) (n : Node), nodes[i]? = some n → nameOf n ≠ some name)) := by
  obtain ⟨l, s₁, hread, hs₁, hmem, -⟩ := h.getAll
  unfold SchemaManager.removeSchema
  rw [hread]
  by_cases hparse : l.all (fun node => parses node.properties) = true
  · rw [if_pos hparse]
    simp only [Option.bind_eq_bind, Option.bind_some]
    obtain ⟨hsome, hnone⟩ := @find_nameOf l name
    cases hfind : l.find? fun node => nameOf node = some name with
    | some n =>
        obtain ⟨hn, hname⟩ := hsome n hfind
        have hnode : nodes[n.id]? = some n := (hmem n).mp hn
        obtain ⟨s', hdelete, hs'⟩ := hs₁.keeps.deleteNode n.id
        refine .inr ⟨s', hdelete, .inl ⟨n.id, n, hnode, hname, hs', ?_⟩⟩
        intro i n' hn'
        rw [OrdMap.get_erase] at hn'
        split_ifs at hn'
        exact h.row i n' hn'
    | none =>
        refine .inr ⟨_, rfl, .inr ⟨hs₁, fun i n hn hname => ?_⟩⟩
        refine hnone hfind n ((hmem n).mpr ?_) hname
        rwa [h.keeps.coherent.node_id hn]
  · rw [if_neg hparse]
    exact .inl rfl

/-- A drop without force reads before it removes. -/
theorem Rows.dropSchema (h : Rows F nodes s) (name : String) (force : Bool) :
    (dropSchema F s name force = none) ∨
    ∃ s', dropSchema F s name force = some s' ∧
      ((∃ i n, nodes[i]? = some n ∧ nameOf n = some name ∧ Rows F (nodes.erase i) s') ∨
        (Rows F nodes s' ∧
          ∀ (i : NodeId) (n : Node), nodes[i]? = some n → nameOf n ≠ some name)) := by
  unfold SchemaManager.dropSchema
  cases force with
  | true => exact h.removeSchema name
  | false =>
      obtain ⟨l, s₁, hread, hs₁, -⟩ := h.keeps.getAllByType_eq (F := F) name (some 1)
      rw [hread, if_neg Bool.false_ne_true]
      split_ifs
      · simp only [Option.bind_eq_bind, Option.bind_some]
        split_ifs
        · exact Rows.removeSchema ⟨hs₁, h.row⟩ name
        · exact .inl rfl
      · exact .inl rfl

/-- A list skips the nodes that are not loaded. -/
theorem Rows.listSchemas (h : Rows F nodes s) :
    (listSchemas F s = none ∧ ¬ AllParse nodes) ∨
    ∃ (l : List Node) (s' : TieredStorage), listSchemas F s = some (l.filterMap loadSchema, s') ∧
      Rows F nodes s' ∧ (∀ n, n ∈ l ↔ nodes[n.id]? = some n) ∧ l.Nodup ∧ AllParse nodes := by
  obtain ⟨l, s₁, hread, hs₁, hmem, hnodup, hall⟩ := h.getAll
  unfold SchemaManager.listSchemas SchemaManager.loadSchemas
  rw [hread]
  by_cases hparse : l.all (fun node => parses node.properties) = true
  · rw [if_pos hparse]
    exact .inr ⟨l, s₁, rfl, hs₁, hmem, hnodup, hall.mp hparse⟩
  · rw [if_neg hparse]
    exact .inl ⟨rfl, fun hboth => hparse (hall.mpr hboth)⟩

end

/-! ### Every run -/

/-- The nodes are those of the remembered schemas, one for each. -/
structure Remembers (F : JsonFormat) (remembered : OrdMap String Schema)
    (nodes : OrdMap NodeId Node) : Prop where
  row : ∀ (id : NodeId) (n : Node), nodes[id]? = some n →
    ∃ schema : Schema, remembered[schema.name]? = some schema ∧ IsRow F n schema
  found : ∀ (name : String) (schema : Schema), remembered[name]? = some schema →
    schema.name = name ∧ ∃ (id : NodeId) (n : Node), nodes[id]? = some n ∧ nameOf n = some name
  once : ∀ (i j : NodeId) (m n : Node), nodes[i]? = some m → nodes[j]? = some n →
    nameOf m = nameOf n → i = j

section

variable {F : JsonFormat} {U : Unicode} {remembered : OrdMap String Schema}
  {nodes : OrdMap NodeId Node} {s : TieredStorage}

theorem remembers_empty : Remembers F ∅ ∅ where
  row id n hn := by simp at hn
  found name schema h := by simp at h
  once i j m n hm := by simp at hm

theorem Remembers.insert (h : Remembers F remembered nodes) {id i : NodeId} {n : Node}
    {schema : Schema} (hrow : IsRow F n schema) (hi : Writes nodes id schema.name i)
    (hfree : nodes[id]? = none) :
    Remembers F (remembered.insert schema.name schema) (nodes.insert i n) := by
  -- No other node has the name.
  have hother : ∀ (j : NodeId) (m : Node), nodes[j]? = some m → i ≠ j →
      nameOf m ≠ some schema.name := by
    intro j m hm hne hname
    rcases hi with ⟨n₀, hn₀, hname₀⟩ | ⟨-, hnone⟩
    · exact hne (h.once i j n₀ m hn₀ hm (hname₀.trans hname.symm))
    · exact hnone j m hm hname
  constructor
  · intro j m hm
    rw [OrdMap.get_insert] at hm
    split_ifs at hm with hj
    · obtain rfl := Option.some.inj hm
      exact ⟨schema, OrdMap.get_insert_self _ _ _, hrow⟩
    · obtain ⟨schema', hschema', hrow'⟩ := h.row j m hm
      have hne : schema.name ≠ schema'.name := fun heq =>
        hother j m hm hj (hrow'.nameOf.trans (congrArg some heq.symm))
      exact ⟨schema', (OrdMap.get_insert_of_ne _ _ hne).trans hschema', hrow'⟩
  · intro name schema' hschema'
    rw [OrdMap.get_insert] at hschema'
    split_ifs at hschema' with hname
    · obtain rfl := Option.some.inj hschema'
      exact ⟨hname, i, n, OrdMap.get_insert_self _ _ _, hrow.nameOf.trans (congrArg some hname)⟩
    · obtain ⟨hkey, j, m, hm, hmname⟩ := h.found name schema' hschema'
      refine ⟨hkey, j, m, (OrdMap.get_insert_of_ne _ _ ?_).trans hm, hmname⟩
      rintro rfl
      rcases hi with ⟨n₀, hn₀, hname₀⟩ | ⟨rfl, -⟩
      · obtain rfl := Option.some.inj (hm.symm.trans hn₀)
        exact hname (Option.some.inj (hname₀.symm.trans hmname))
      · rw [hfree] at hm
        cases hm
  · intro j k m m' hm hm' heq
    rw [OrdMap.get_insert] at hm hm'
    split_ifs at hm hm' with hj hk hk
    · exact hj.symm.trans hk
    · obtain rfl := Option.some.inj hm
      exact absurd (heq.symm.trans hrow.nameOf) (hother k m' hm' hk)
    · obtain rfl := Option.some.inj hm'
      exact absurd (heq.trans hrow.nameOf) (hother j m hm hj)
    · exact h.once j k m m' hm hm' heq

theorem Remembers.erase (h : Remembers F remembered nodes) {i : NodeId} {n : Node} {name : String}
    (hn : nodes[i]? = some n) (hname : nameOf n = some name) :
    Remembers F (remembered.erase name) (nodes.erase i) := by
  constructor
  · intro j m hm
    rw [OrdMap.get_erase] at hm
    split_ifs at hm with hj
    obtain ⟨schema, hschema, hrow⟩ := h.row j m hm
    refine ⟨schema, (OrdMap.get_erase_of_ne _ ?_).trans hschema, hrow⟩
    rintro rfl
    exact hj (h.once i j n m hn hm (hname.trans hrow.nameOf.symm))
  · intro name' schema hschema
    rw [OrdMap.get_erase] at hschema
    split_ifs at hschema with hne
    obtain ⟨hkey, j, m, hm, hmname⟩ := h.found name' schema hschema
    refine ⟨hkey, j, m, (OrdMap.get_erase_of_ne _ ?_).trans hm, hmname⟩
    rintro rfl
    obtain rfl := Option.some.inj (hn.symm.trans hm)
    exact hne (Option.some.inj (hname.symm.trans hmname))
  · intro j k m m' hm hm' heq
    rw [OrdMap.get_erase] at hm hm'
    split_ifs at hm hm'
    exact h.once j k m m' hm hm' heq

/-- A name that no node has is not remembered. -/
theorem Remembers.erase_none (h : Remembers F remembered nodes) {name : String}
    (hnone : ∀ (i : NodeId) (n : Node), nodes[i]? = some n → nameOf n ≠ some name) :
    remembered.erase name = remembered := by
  refine OrdMap.ext fun k => ?_
  rw [OrdMap.get_erase]
  split_ifs with hk
  · subst hk
    cases hschema : remembered[name]? with
    | none => rfl
    | some schema =>
        obtain ⟨-, i, n, hn, hname⟩ := h.found name schema hschema
        exact absurd hname (hnone i n hn)
  · rfl

/-- Every remembered schema can be stored. -/
def AllStorable (remembered : OrdMap String Schema) : Prop :=
  ∀ (name : String) (schema : Schema), remembered[name]? = some schema → schema.Storable

theorem Remembers.allParse (h : Remembers F remembered nodes) (hstorable : AllStorable remembered) :
    AllParse nodes := by
  intro id n hn
  obtain ⟨schema, hschema, hrow⟩ := h.row id n hn
  exact hrow.parses_iff.mpr (hstorable _ _ hschema).levels

theorem Remembers.load (h : Remembers F remembered nodes) (hstorable : AllStorable remembered)
    {id : NodeId} {n : Node} (hn : nodes[id]? = some n) :
    ∃ schema : Schema, remembered[schema.name]? = some schema ∧ loadSchema n = some schema ∧
      nameOf n = some schema.name := by
  obtain ⟨schema, hschema, hrow⟩ := h.row id n hn
  exact ⟨schema, hschema, hrow.loadSchema.trans (if_pos (hstorable _ _ hschema).filled),
    hrow.nameOf⟩

/-- What is loaded is what is remembered. -/
theorem Remembers.mem_loaded (h : Remembers F remembered nodes) (hstorable : AllStorable remembered)
    (hrows : Rows F nodes s) {l : List Node} (hmem : ∀ n, n ∈ l ↔ nodes[n.id]? = some n)
    (schema : Schema) :
    schema ∈ l.filterMap loadSchema ↔ remembered[schema.name]? = some schema := by
  rw [List.mem_filterMap]
  constructor
  · rintro ⟨n, hn, hn'⟩
    obtain ⟨schema', hschema', hload, -⟩ := h.load hstorable ((hmem n).mp hn)
    obtain rfl := Option.some.inj (hn'.symm.trans hload)
    exact hschema'
  · intro hschema
    obtain ⟨-, id, n, hn, hname⟩ := h.found _ _ hschema
    obtain ⟨schema', hschema', hload, hname'⟩ := h.load hstorable hn
    rw [hname, Option.some.injEq] at hname'
    rw [hname', hschema', Option.some.injEq] at hschema
    subst hschema
    refine ⟨n, (hmem n).mpr ?_, hload⟩
    rwa [hrows.keeps.coherent.node_id hn]

/-- Nodes of one schema are one node. -/
theorem Remembers.nodup_loaded (h : Remembers F remembered nodes)
    (hstorable : AllStorable remembered) {l : List Node}
    (hmem : ∀ n, n ∈ l ↔ nodes[n.id]? = some n) (hnodup : l.Nodup) :
    (l.filterMap loadSchema).Nodup := by
  rw [List.Nodup, List.pairwise_filterMap]
  refine hnodup.imp_of_mem fun {m n} hm hn hne a ha b hb hab => hne ?_
  rw [hmem] at hm hn
  obtain ⟨schema, -, hload, hname⟩ := h.load hstorable hm
  obtain ⟨schema', -, hload', hname'⟩ := h.load hstorable hn
  obtain rfl := Option.some.inj (ha.symm.trans hload)
  obtain rfl := Option.some.inj (hb.symm.trans hload')
  subst hab
  have hid := h.once m.id n.id m n hm hn (hname.trans hname'.symm)
  rw [hid, hn] at hm
  exact (Option.some.inj hm).symm

theorem Remembers.nodup_values (h : Remembers F remembered nodes) : remembered.values.Nodup := by
  refine List.pairwise_map.mpr ((OrdMap.toList_sorted remembered).imp_of_mem ?_)
  intro a b ha hb hlt heq
  have hname := (h.found a.1 a.2 ((OrdMap.mem_toList remembered a.1 a.2).mp ha)).1
  have hname' := (h.found b.1 b.2 ((OrdMap.mem_toList remembered b.1 b.2).mp hb)).1
  rw [← hname, ← hname', heq] at hlt
  exact lt_irrefl _ hlt

theorem Remembers.find (h : Remembers F remembered nodes) {l : List Schema}
    (hl : ∀ schema, schema ∈ l ↔ remembered[schema.name]? = some schema) (name : String) :
    (l.find? fun schema => schema.name = name) = remembered[name]? := by
  cases hfind : l.find? fun schema => schema.name = name with
  | some schema =>
      have hname := List.find?_some (p := fun schema : Schema => decide (schema.name = name)) hfind
      rw [← of_decide_eq_true hname]
      exact ((hl schema).mp (List.mem_of_find?_eq_some hfind)).symm
  | none =>
      cases hschema : remembered[name]? with
      | none => rfl
      | some schema =>
          obtain ⟨rfl, -⟩ := h.found name schema hschema
          have hne := List.find?_eq_none.mp hfind schema ((hl schema).mpr hschema)
          exact absurd (decide_eq_true rfl) hne

/-- Remembered schemas that can be stored are listed, each once. -/
theorem Remembers.exact (h : Remembers F remembered nodes) (hrows : Rows F nodes s)
    (hstorable : AllStorable remembered) : Registry.Exact F ⟨remembered, s⟩ := by
  rcases hrows.listSchemas with ⟨-, hnot⟩ | ⟨l, s', hlist, -, hmem, hnodup, -⟩
  · exact absurd (h.allParse hstorable) hnot
  have hin := h.mem_loaded hstorable hrows hmem
  constructor
  · refine ⟨_, s', hlist, (List.perm_ext_iff_of_nodup (h.nodup_loaded hstorable hmem hnodup)
      h.nodup_values).mpr fun schema => ?_⟩
    rw [hin, OrdMap.mem_values]
    constructor
    · exact fun hschema => ⟨_, hschema⟩
    · rintro ⟨name, hschema⟩
      rw [(h.found name schema hschema).1]
      exact hschema
  · intro name
    have hread : loadSchemas F s = some (l.filterMap loadSchema, s') := hlist
    unfold getSchema
    rw [hread]
    simp only [Option.bind_eq_bind, Option.bind_some, h.find hin name]
    cases remembered[name]? <;> rfl

/-- A schema that is listed was read back. -/
theorem Rows.storable_of_listed (hrows : Rows F nodes s) {l : List Schema} {s' : TieredStorage}
    (hlist : SchemaManager.listSchemas F s = some (l, s')) {schema : Schema} (hin : schema ∈ l) :
    schema.Storable := by
  rcases hrows.listSchemas with ⟨hnone, -⟩ | ⟨l', s'', hlist', -, hmem, -, hparse⟩
  · rw [hlist] at hnone
    cases hnone
  obtain ⟨rfl, -⟩ := Prod.mk.inj (Option.some.inj (hlist.symm.trans hlist'))
  obtain ⟨n, hn, hload⟩ := List.mem_filterMap.mp hin
  rw [hmem] at hn
  obtain ⟨schema', hrow⟩ := hrows.row n.id n hn
  rw [hrow.loadSchema] at hload
  split_ifs at hload with hfilled
  obtain rfl := Option.some.inj hload
  exact ⟨hfilled, hrow.parses_iff.mp (hparse n.id n hn)⟩

end

theorem AllStorable.step {F : JsonFormat} {U : Unicode} {r : Registry}
    (h : AllStorable r.remembered) (op : SchemaOp)
    (hop : ∀ schema ∈ savedSchemas [op], schema.Storable) :
    AllStorable (r.step F U op).remembered := by
  intro name schema hschema
  cases op with
  | save id now schema' =>
      change (r.remembered.insert schema'.name schema')[name]? = some schema at hschema
      rw [OrdMap.get_insert] at hschema
      split_ifs at hschema
      · obtain rfl := Option.some.inj hschema
        exact hop schema' List.mem_cons_self
      · exact h name schema hschema
  | drop name' force =>
      simp only [Registry.step] at hschema
      split at hschema
      · rw [OrdMap.get_erase] at hschema
        split_ifs at hschema
        exact h name schema hschema
      · exact h name schema hschema
  | list => exact h name schema hschema
  | loseCache ids => exact h name schema hschema

/-- The storage of a run holds nodes of schemas, under ids that were drawn. -/
structure Held (F : JsonFormat) (ids : List NodeId) (nodes : OrdMap NodeId Node)
    (s : TieredStorage) : Prop where
  rows : Rows F nodes s
  drawn : ∀ (id : NodeId) (n : Node), nodes[id]? = some n → id ∈ ids

section

variable {F : JsonFormat} {U : Unicode} {nodes : OrdMap NodeId Node} {r : Registry}
  {ids : List NodeId}

/-- One operation keeps the nodes those of schemas, and those of the remembered ones when the
payloads parse. -/
theorem Held.step (h : Held F ids nodes r.store) (op : SchemaOp)
    (hfresh : ∀ id ∈ drawnIds [op], id ∉ ids) :
    ∃ nodes', Held F (ids ++ drawnIds [op]) nodes' (r.step F U op).store ∧
      (Remembers F r.remembered nodes → AllParse nodes →
        (∀ schema ∈ savedSchemas [op], schema.Storable) →
        Remembers F (r.step F U op).remembered nodes') := by
  have hsame : ∀ {s' : TieredStorage}, Rows F nodes s' → Held F (ids ++ drawnIds [op]) nodes s' :=
    fun hs' => ⟨hs', fun id n hn => List.mem_append_left _ (h.drawn id n hn)⟩
  cases op with
  | save id now schema =>
      have hfree : nodes[id]? = none := by
        cases hn : nodes[id]? with
        | none => rfl
        | some n => exact absurd (h.drawn id n hn) (hfresh id List.mem_cons_self)
      rcases h.rows.saveSchema (U := U) hfree now schema with
        ⟨hfail, hnot⟩ | ⟨s', i, n, hrun, hs', hrow, hi⟩
      · refine ⟨nodes, ?_, fun _ hparse hstorable => ?_⟩
        · simp only [Registry.step, hfail, Option.getD_none]
          exact hsame h.rows
        · exact absurd ⟨hparse, (hstorable schema List.mem_cons_self).levels⟩ hnot
      · refine ⟨nodes.insert i n, ?_, fun hremembers _ _ => hremembers.insert hrow hi hfree⟩
        simp only [Registry.step, hrun, Option.getD_some]
        refine ⟨hs', fun j m hm => ?_⟩
        rw [OrdMap.get_insert] at hm
        split_ifs at hm with hj
        · subst hj
          rcases hi with ⟨n₀, hn₀, -⟩ | ⟨rfl, -⟩
          · exact List.mem_append_left _ (h.drawn i n₀ hn₀)
          · exact List.mem_append_right _ List.mem_cons_self
        · exact List.mem_append_left _ (h.drawn j m hm)
  | drop name force =>
      rcases h.rows.dropSchema name force with
        hfail | ⟨s', hrun, ⟨i, n, hn, hname, hs'⟩ | ⟨hs', hnone⟩⟩
      · refine ⟨nodes, ?_, fun hremembers _ _ => ?_⟩
        · simp only [Registry.step, hfail]
          exact hsame h.rows
        · simp only [Registry.step, hfail]
          exact hremembers
      · refine ⟨nodes.erase i, ?_, fun hremembers _ _ => ?_⟩
        · simp only [Registry.step, hrun]
          refine ⟨hs', fun j m hm => ?_⟩
          rw [OrdMap.get_erase] at hm
          split_ifs at hm
          exact List.mem_append_left _ (h.drawn j m hm)
        · simp only [Registry.step, hrun]
          exact hremembers.erase hn hname
      · refine ⟨nodes, ?_, fun hremembers _ _ => ?_⟩
        · simp only [Registry.step, hrun]
          exact hsame hs'
        · simp only [Registry.step, hrun, hremembers.erase_none hnone]
          exact hremembers
  | list =>
      refine ⟨nodes, ?_, fun hremembers _ _ => hremembers⟩
      rcases h.rows.listSchemas with ⟨hfail, -⟩ | ⟨l, s', hlist, hs', -⟩
      · simp only [Registry.step, hfail, Option.map_none, Option.getD_none]
        exact hsame h.rows
      · simp only [Registry.step, hlist, Option.map_some, Option.getD_some]
        exact hsame hs'
  | loseCache lost =>
      exact ⟨nodes, hsame ⟨h.rows.keeps.loseCache lost, h.rows.row⟩, fun hremembers _ _ =>
        hremembers⟩

end

/-! ### The result -/

section

variable {F : JsonFormat} {U : Unicode} {config : TieredConfig} {hasBucket : Bool}

theorem reached_held (ops : List SchemaOp) (hnodup : (drawnIds ops).Nodup) :
    ∃ nodes, Held F (drawnIds ops) nodes (Registry.reached F U config hasBucket ops).store ∧
      ((∀ schema ∈ savedSchemas ops, schema.Storable) →
        Remembers F (Registry.reached F U config hasBucket ops).remembered nodes ∧
        AllStorable (Registry.reached F U config hasBucket ops).remembered) := by
  induction ops using List.reverseRecOn with
  | nil =>
      refine ⟨∅, ⟨⟨keeps_new config hasBucket, fun id n hn => ?_⟩, fun id n hn => ?_⟩,
        fun _ => ⟨remembers_empty, fun name schema h => ?_⟩⟩
      · simp at hn
      · simp at hn
      · simp [Registry.reached] at h
  | append_singleton ops op ih =>
      have hdrawn : drawnIds (ops ++ [op]) = drawnIds ops ++ drawnIds [op] := List.filterMap_append
      have hsaved : savedSchemas (ops ++ [op]) = savedSchemas ops ++ savedSchemas [op] :=
        List.filterMap_append
      rw [hdrawn] at hnodup
      obtain ⟨hnodup, -, hdisjoint⟩ := List.nodup_append.mp hnodup
      obtain ⟨nodes, hheld, hremembers⟩ := ih hnodup
      obtain ⟨nodes', hheld', hstep⟩ := hheld.step (U := U) op fun id hid hin =>
        hdisjoint id hin id hid rfl
      have hreached : Registry.reached F U config hasBucket (ops ++ [op]) =
          (Registry.reached F U config hasBucket ops).step F U op := Run.run_concat _ _ _ _
      rw [hdrawn, hsaved, hreached]
      refine ⟨nodes', hheld', fun hstorable => ?_⟩
      obtain ⟨hrem, hall⟩ := hremembers fun schema h => hstorable schema (List.mem_append_left _ h)
      have hnew : ∀ schema ∈ savedSchemas [op], schema.Storable := fun schema h =>
        hstorable schema (List.mem_append_right _ h)
      refine ⟨hstep hrem (hrem.allParse hall) hnew, ?_⟩
      exact hall.step op hnew

/-- Whatever a run saves is remembered by it right after. -/
theorem storable_of_exact {ops : List SchemaOp} {op : SchemaOp} {schema : Schema}
    (hnodup : (drawnIds (ops ++ [op])).Nodup) (hop : schema ∈ savedSchemas [op])
    (hexact : (Registry.reached F U config hasBucket (ops ++ [op])).Exact F) :
    schema.Storable := by
  obtain ⟨nodes, hheld, -⟩ := @reached_held F U config hasBucket (ops ++ [op]) hnodup
  obtain ⟨l, s', hlist, hperm⟩ := hexact.listed
  refine hheld.rows.storable_of_listed hlist (hperm.mem_iff.mpr ((OrdMap.mem_values _ _).mpr
    ⟨schema.name, ?_⟩))
  have hreached : Registry.reached F U config hasBucket (ops ++ [op]) =
      (Registry.reached F U config hasBucket ops).step F U op := Run.run_concat _ _ _ _
  rw [hreached]
  cases op with
  | save id now schema' =>
      obtain rfl := List.mem_singleton.mp hop
      exact OrdMap.get_insert_self _ _ _
  | _ => exact absurd hop List.not_mem_nil

/-- The registry remembers what was saved, after every beginning of a run, exactly when every schema
of the run can be stored. -/
theorem registry_exact_iff (F : JsonFormat) (U : Unicode) (config : TieredConfig) (hasBucket : Bool)
    (ops : List SchemaOp) (hfresh : (drawnIds ops).Nodup) :
    (∀ before, before <+: ops → (Registry.reached F U config hasBucket before).Exact F) ↔
      ∀ schema ∈ savedSchemas ops, schema.Storable := by
  constructor
  · intro h schema hschema
    obtain ⟨op, hop, heq⟩ := List.mem_filterMap.mp hschema
    obtain ⟨before, after, rfl⟩ := List.append_of_mem hop
    have hprefix : before ++ [op] <+: before ++ op :: after := ⟨after, by simp⟩
    refine storable_of_exact (hfresh.sublist ?_) ?_ (h _ hprefix)
    · exact hprefix.sublist.filterMap _
    · exact List.mem_filterMap.mpr ⟨op, List.mem_cons_self, heq⟩
  · intro hstorable before hbefore
    obtain ⟨nodes, hheld, hremembers⟩ := @reached_held F U config hasBucket before
      (hfresh.sublist (hbefore.sublist.filterMap _))
    obtain ⟨hrem, hall⟩ := hremembers fun schema h =>
      hstorable schema ((hbefore.sublist.filterMap _).subset h)
    exact hrem.exact hheld.rows hall

end

/-- A schema is saved twice and another one is dropped. -/
def sampleSaves : List SchemaOp :=
  [.save ⟨1⟩ 10 ⟨"user", [⟨"age", .int, true, false, false, none, none⟩], 1, 10, 10⟩,
    .save ⟨2⟩ 20 ⟨"tag", [⟨"kind", .array (.enum ["a", "b"]), false, false, true, none, none⟩], 1,
      20, 20⟩,
    .save ⟨3⟩ 30 ⟨"user", [⟨"age", .float, true, false, false, some "0", none⟩], 2, 10, 30⟩,
    .loseCache [⟨1⟩], .drop "tag" false, .list]

theorem registry_exact_iff_sample :
    (drawnIds sampleSaves).Nodup ∧
      ((∀ before, before <+: sampleSaves →
          (Registry.reached plainFormat asciiUnicode ⟨1000, 0, false⟩ false before).Exact
            plainFormat) ↔
        ∀ schema ∈ savedSchemas sampleSaves, schema.Storable) :=
  ⟨by decide, registry_exact_iff plainFormat asciiUnicode ⟨1000, 0, false⟩ false sampleSaves
    (by decide)⟩

/-- A schema without fields is saved. -/
def saveEmpty : List SchemaOp := [.save ⟨1⟩ 10 ⟨"user", [], 1, 10, 10⟩]

/-- Its empty list of fields is stored as bytes, and it is not found again. -/
theorem saved_schema_missing :
    ¬ (Registry.reached plainFormat asciiUnicode ⟨1000, 0, false⟩ false saveEmpty).Exact
      plainFormat := by
  intro h
  exact absurd (h.found "user") (by decide +kernel)

end AresaDb.Schemas
