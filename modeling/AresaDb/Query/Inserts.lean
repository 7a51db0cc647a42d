import AresaDb.Query.Reads
import AresaDb.Query.Results

/-! # INSERT

An INSERT is read by the parser (`extract_insert_values`, `query/parser.rs`), planned as one step
and executed.  Of its rows only the first has a place in the query, so further ones are lost without
an error, and so is everything when there are no VALUES at all.

`InsertFits` are the statements of which every row is inserted with its values under the listed
columns, or nothing (`insert_all_iff`). -/

namespace AresaDb.Query

open AresaDb.Store

/-! ### What an INSERT is for -/

/-- The value of a literal. -/
def literalValue : Expr → Option Value
  | .value v => some v.meaning
  | .unaryOp .minus e => (literalValue e).map negative
  | _ => none

/-- The properties are the values of the row under the columns of the list, and no others. -/
structure Carries (columns : List Ident) (row : List Expr) (properties : Props) : Prop where
  value : ∀ (i : ℕ) (e : Expr), row[i]? = some e → ∃ c v, columns[i]? = some c ∧
    literalValue e = some v ∧ properties[c.value]? = some v
  nothingElse : ∀ (k : String) (v : Value), properties[k]? = some v →
    ∃ (i : ℕ) (c : Ident), i < row.length ∧ columns[i]? = some c ∧ c.value = k

/-- There is a new node for each of the rows, and no other node has changed. -/
def Inserted (J : Serde) (s s' : TieredStorage) (table : String) (columns : List Ident)
    (rows : List (List Expr)) : Prop :=
  ∃ ids : List NodeId, ids.Nodup ∧ (∀ id ∈ ids, readNode J s id = some none) ∧
    (∀ id, id ∉ ids → readNode J s' id = readNode J s id) ∧
    List.Forall₂ (fun id row => ∃ n, readNode J s' id = some (some n) ∧ n.nodeType = table ∧
      Carries columns row n.properties) ids rows

/-- An INSERT that is accepted inserts all its rows. -/
def InsertsAll (J : Serde) (s : TieredStorage) (table : String) (columns : List Ident)
    (source : Option InsertSource) (outcome : Option (QueryResult × TieredStorage)) : Prop :=
  ∀ r s', outcome = some (r, s') → ∃ rows, source = some (.values rows) ∧
    r.rowsAffected = rows.length ∧ Inserted J s s' table columns rows

/-! ### Statements that fit -/

/-- JSON keeps the value of a literal. -/
def KeptByJson (F : JsonFormat) : Value → Prop
  | .int i => i < 2 ^ 63
  | .float f => f.magnitude < Binary64.infMagnitude ∧ F.reparse f = f
  | _ => True

/-- Every value of the row is a literal that JSON keeps, and has a column of its own, written
without quotes, or one that is listed with the same value again. -/
structure RowFits (F : JsonFormat) (columns : List Ident) (row : List Expr) : Prop where
  listed : row.length ≤ columns.length
  literal : ∀ e ∈ row, IsLiteral e
  kept : ∀ e ∈ row, ∀ v, convertExpr e = some v → KeptByJson F v
  unquoted : ∀ cell ∈ columns.zip row, cell.1.text = cell.1.value
  agree : ∀ cell ∈ columns.zip row, ∀ cell' ∈ columns.zip row, cell.1.value = cell'.1.value →
    convertExpr cell.2 = convertExpr cell'.2

/-- The parser rejects the first row, or there are no rows, or only one, and it fits. -/
def InsertFits (F : JsonFormat) (columns : List Ident) : Option InsertSource → Prop
  | some (.values []) => True
  | some (.values [row]) => (∃ e ∈ row, convertExpr e = none) ∨ RowFits F columns row
  | some (.values (row :: _ :: _)) => ∃ e ∈ row, convertExpr e = none
  | some .other | none => False

/-- The opening of a quoted identifier. -/
def startsQuoted (s : String) : Bool :=
  match s.toList with
  | c :: _ => c ∈ "\"'`[".toList
  | [] => false

/-- An identifier is written as its name, which starts with no quote, or longer, in quotes. -/
def Ident.Written (ident : Ident) : Prop :=
  if startsQuoted ident.text then ident.value.length < ident.text.length
  else ident.text = ident.value

/-! ### Reads -/

section

variable {J : Serde} {U : Unicode}

/-- An insertion is read back at its node if its payload parses, and nowhere else. -/
theorem readNode_insertNode (s : TieredStorage) (node : Node)
    (hparses : parses node.properties = true) :
    readNode J (s.insertNode J U node) node.id = some (some (J.node node)) ∧
      ∀ id, id ≠ node.id → readNode J (s.insertNode J U node) id = readNode J s id := by
  have hchanges := s.changes_insertNode J U node
  refine ⟨?_, fun id hne => readNode_congr (hchanges.off_id id (Ne.symm hne))⟩
  have hholds := holds_insert J node (s.copies node.id).row
    (s.pushedObject (J.props node.properties) (s.copies node.id).object)
  have hprops : parses (J.node node).properties = true := (J.parses_props _).trans hparses
  rw [readNode_eq, hchanges.at_id, hholds.getNodeIndex, Option.bind_some]
  simp only [hholds.find, Option.filter_some, hprops, if_true, Option.map_some, hholds.record]

end

/-! ### Rows of data -/

section

variable {F : JsonFormat}

/-- What is stored of a value: it goes through JSON twice, with the statement and to the disk. -/
def stored (F : JsonFormat) (v : Value) : Value := F.serde.reread ((viaJson F v).getD .null)

/-- The data of a row. -/
def rowData (columns : List String) (row : List Expr) : Props :=
  (∅ : Props).insertAll (fun cell => insertColumn columns cell.2)
    (fun cell => (convertExpr cell.1).getD .null) row.zipIdx

/-- A row is accepted when all its expressions are. -/
theorem convertRow_eq (columns : List String) (row : List Expr) :
    convertRow columns row =
      if ∃ e ∈ row, convertExpr e = none then none else some (rowData columns row) := by
  have hfold : ∀ (cells : List (Expr × ℕ)) (data : Props),
      cells.foldlM (fun (data : Props) cell =>
        (convertExpr cell.1).map fun value =>
          data.insert (insertColumn columns cell.2) value) data =
      if ∃ cell ∈ cells, convertExpr cell.1 = none then none
      else some (data.insertAll (fun cell => insertColumn columns cell.2)
        (fun cell => (convertExpr cell.1).getD .null) cells) := by
    intro cells
    induction cells with
    | nil => simp [OrdMap.insertAll]
    | cons cell cells ih =>
        intro data
        rw [List.foldlM_cons]
        cases hvalue : convertExpr cell.1 with
        | none => simp [hvalue]
        | some value =>
            have hrest : (∃ c ∈ cell :: cells, convertExpr c.1 = none) ↔
                ∃ c ∈ cells, convertExpr c.1 = none := by simp [hvalue]
            rw [if_congr hrest rfl rfl, OrdMap.insertAll_cons, hvalue]
            exact ih _
  unfold convertRow rowData
  rw [hfold]
  refine if_congr ?_ rfl rfl
  constructor
  · rintro ⟨cell, hcell, hnone⟩
    exact ⟨cell.1, List.fst_mem_of_mem_zipIdx hcell, hnone⟩
  · rintro ⟨e, he, hnone⟩
    obtain ⟨i, hi⟩ := List.mem_iff_getElem?.mp he
    exact ⟨(e, i), List.mem_zipIdx_iff_getElem?.mpr hi, hnone⟩

/-- With a column for every value, the data of a row is that of its cells. -/
theorem rowData_eq {columns : List Ident} {row : List Expr} (h : row.length ≤ columns.length) :
    rowData (columns.map Ident.text) row =
      (∅ : Props).insertAll (fun cell => cell.1.text)
        (fun cell => (convertExpr cell.2).getD .null) (columns.zip row) := by
  have hcells : row.zipIdx.map (fun cell =>
        (insertColumn (columns.map Ident.text) cell.2, (convertExpr cell.1).getD .null)) =
      (columns.zip row).map fun cell => (cell.1.text, (convertExpr cell.2).getD .null) := by
    refine List.ext_getElem (by simpa using h) fun i hi hi' => ?_
    have hcolumn : i < columns.length := by simp at hi; omega
    simp [insertColumn, hcolumn]
  have hpairs : ∀ {β : Type} (l : List β) (key : β → String) (val : β → Value),
      (∅ : Props).insertAll key val l =
        (l.map fun x => (key x, val x)).foldl (fun m x => m.insert x.1 x.2) ∅ := by
    intro β l key val
    rw [List.foldl_map]
    rfl
  unfold rowData
  rw [hpairs, hcells, ← hpairs]

/-- Nulls, truth values, numbers and strings. -/
def IsScalar : Value → Prop
  | .null | .bool _ | .int _ | .float _ | .string _ => True
  | _ => False

theorem isScalar_of_convertExpr {e : Expr} {v : Value} (h : convertExpr e = some v) :
    IsScalar v := by
  cases e with
  | value literal =>
      cases literal with
      | number text =>
          rw [convertExpr, convertSqlValue] at h
          split_ifs at h
          · obtain ⟨f, -, rfl⟩ := Option.map_eq_some_iff.mp h
            trivial
          · obtain ⟨i, -, rfl⟩ := Option.map_eq_some_iff.mp h
            trivial
      | singleQuotedString s | doubleQuotedString s | boolean b | null =>
          obtain rfl := Option.some.inj h
          trivial
  | identifier ident =>
      obtain rfl := Option.some.inj h
      trivial
  | unaryOp op e =>
      cases op with
      | minus =>
          rw [convertExpr] at h
          split at h
          · obtain rfl := Option.some.inj h
            trivial
          · obtain rfl := Option.some.inj h
            trivial
          · cases h
      | plus | not => cases h
  | binaryOp _ _ _ | nested _ | like _ _ _ | inList _ _ _ | isNull _ | isNotNull _
  | between _ _ _ _ | other _ => cases h

theorem stored_eq_iff {v : Value} (h : IsScalar v) : stored F v = v ↔ KeptByJson F v := by
  cases v with
  | null | bool _ | string _ => exact iff_of_true rfl trivial
  | int i =>
      have hconverted : viaJson F (.int i) =
          some (if i < 2 ^ 63 then .int i else .float (.ofInt i)) := rfl
      unfold KeptByJson stored
      rw [hconverted]
      split_ifs with hi
      · exact iff_of_true (if_pos hi) hi
      · refine iff_of_false ?_ hi
        -- The float that it becomes is stored as a float or as null.
        rw [Option.getD_some]
        change Value.deserialize F (textNumber F.reparse (.ofInt i)) ≠ .int i
        unfold textNumber
        split_ifs <;> simp [Value.deserialize]
  | float f =>
      have hconverted : viaJson F (.float f) = Value.fromJson F (numberOrNull f) := rfl
      unfold KeptByJson stored
      rw [hconverted, numberOrNull]
      split_ifs with hf
      · have hread : F.serde.reread (.float f) = .float (F.reparse f) := by
          change Value.deserialize F (textNumber F.reparse f) = _
          rw [textNumber, if_pos hf, Value.deserialize]
        simp [Value.fromJson, hread, hf]
      · exact iff_of_false (by simp [Value.fromJson, JsonFormat.serde, Value.reread,
          Value.serialize, Value.deserialize]) fun hkept => hf hkept.1
  | bytes _ | vector _ | array _ | object _ => exact h.elim

theorem viaJson_scalar {v : Value} (h : IsScalar v) : ∃ w, viaJson F v = some w := by
  cases v with
  | null | bool _ | int _ | string _ => exact ⟨_, rfl⟩
  | float f =>
      have hconverted : viaJson F (.float f) = Value.fromJson F (numberOrNull f) := rfl
      rw [hconverted, numberOrNull]
      split_ifs <;> exact ⟨_, rfl⟩
  | bytes _ | vector _ | array _ | object _ => exact h.elim

theorem depth_viaJson_scalar {v : Value} (h : IsScalar v) :
    ((viaJson F v).getD .null).depth = 0 := by
  cases v with
  | null | bool _ | string _ => rfl
  | int i =>
      have hconverted : viaJson F (.int i) =
          some (if i < 2 ^ 63 then .int i else .float (.ofInt i)) := rfl
      rw [hconverted]
      split_ifs <;> rfl
  | float f =>
      have hconverted : viaJson F (.float f) = Value.fromJson F (numberOrNull f) := rfl
      rw [hconverted, numberOrNull]
      split_ifs <;> rfl
  | bytes _ | vector _ | array _ | object _ => exact h.elim

/-- A list of scalars goes through JSON field by field. -/
theorem viaJson_object {fields : List (String × Value)} (h : ∀ e ∈ fields, IsScalar e.2) :
    viaJson F (.object fields) =
      some (.object (fields.map fun e => (e.1, (viaJson F e.2).getD .null))) := by
  have hfields : fromJsonObject F (toJsonObject fields) =
      some (fields.map fun e => (e.1, (viaJson F e.2).getD .null)) := by
    induction fields with
    | nil => rfl
    | cons e fields ih =>
        obtain ⟨he, hfields⟩ := List.forall_mem_cons.mp h
        obtain ⟨k, v⟩ := e
        obtain ⟨w, hw⟩ := viaJson_scalar (F := F) he
        have hv : Value.fromJson F v.toJson = some w := hw
        rw [toJsonObject, fromJsonObject, hv, ih hfields, List.map_cons, hw]
        rfl
  -- No scalar is written as an array.
  have hform : vectorForm (toJsonObject fields) = none := by
    cases fields with
    | nil => rfl
    | cons e fields =>
        obtain ⟨k, v⟩ := e
        cases fields with
        | cons e' fields => rfl
        | nil =>
            have hv : IsScalar v := h (k, v) List.mem_cons_self
            have harray : asArray v.toJson = none := by
              cases v with
              | null | bool _ | int _ | string _ => rfl
              | float f =>
                  rw [Value.toJson, numberOrNull]
                  split_ifs <;> rfl
              | bytes _ | vector _ | array _ | object _ => exact hv.elim
            rw [toJsonObject, toJsonObject, vectorForm, harray, ite_self]
  have hobject : viaJson F (.object fields) = Value.fromJson F (Value.object fields).toJson := rfl
  simp only [hobject, Value.toJson, Value.fromJson, hform, hfields, Option.map_some]

/-- What a map holds after a load comes from the list, or was there before. -/
theorem exists_of_get_insertAll {β : Type} {key : β → String} {val : β → Value} {l : List β}
    {m : Props} {k : String} {v : Value} (h : (m.insertAll key val l)[k]? = some v) :
    m[k]? = some v ∨ ∃ x ∈ l, key x = k ∧ val x = v := by
  induction l generalizing m with
  | nil => exact .inl h
  | cons x l ih =>
      rw [OrdMap.insertAll_cons] at h
      obtain hm | ⟨y, hy, hkey, hval⟩ := ih h
      · rw [OrdMap.get_insert] at hm
        split_ifs at hm with hx
        · exact .inr ⟨x, List.mem_cons_self, hx, Option.some.inj hm⟩
        · exact .inl hm
      · exact .inr ⟨y, List.mem_cons_of_mem _ hy, hkey, hval⟩

/-- Every key of a load is there. -/
theorem isSome_get_insertAll {β : Type} (m : Props) (key : β → String) (val : β → Value)
    {l : List β} {x : β} (hx : x ∈ l) : ((m.insertAll key val l)[key x]?).isSome := by
  induction l generalizing m with
  | nil => cases hx
  | cons y l ih =>
      rw [OrdMap.insertAll_cons]
      obtain rfl | hx := List.mem_cons.mp hx
      · rw [OrdMap.get_insertAll_or, OrdMap.get_insert_self, Option.isSome_or, Option.isSome_some,
          Bool.or_true]
      · exact ih _ hx

theorem isScalar_rowData (columns : List String) (row : List Expr) :
    ∀ e ∈ (rowData columns row).toList, IsScalar e.2 := by
  rintro ⟨k, v⟩ he
  rw [OrdMap.mem_toList] at he
  obtain hnone | ⟨cell, -, -, rfl⟩ := exists_of_get_insertAll he
  · rw [OrdMap.get_empty] at hnone
    cases hnone
  · dsimp only
    cases hvalue : convertExpr cell.1 with
    | none => trivial
    | some value => exact isScalar_of_convertExpr hvalue

/-! ### Outcomes -/

variable {U : Unicode} {R : RegexEngine} {D : Draws} {P : QueryPlanner} {s : TieredStorage}

/-- The outcome of an INSERT; `none` is an error, and nothing has been stored. -/
def insertOutcome (F : JsonFormat) (U : Unicode) (R : RegexEngine) (D : Draws) (P : QueryPlanner)
    (s : TieredStorage) (table : String) (columns : List Ident) (source : Option InsertSource) :
    Option (QueryResult × TieredStorage) :=
  (convertStatement (.insert table columns source)).bind (executeQuery F U R D P s)

/-- The node of a row. -/
def rowNode (F : JsonFormat) (D : Draws) (table : String) (data : Props) : Node where
  id := D.newId
  nodeType := table
  properties := data.map fun _ v => (viaJson F v).getD .null
  createdAt := D.insertedAt
  updatedAt := D.insertedAt

/-- A row has no nesting. -/
theorem parses_rowNode (table : String) (columns : List String) (row : List Expr) :
    parses (rowNode F D table (rowData columns row)).properties = true := by
  refine parses_iff.mpr fun k v hv => ?_
  unfold rowNode at hv
  dsimp only at hv
  rw [OrdMap.get_map] at hv
  obtain ⟨w, hw, rfl⟩ := Option.map_eq_some_iff.mp hv
  have hscalar := isScalar_rowData columns row ⟨k, w⟩ ((OrdMap.mem_toList _ _ _).mpr hw)
  rw [depth_viaJson_scalar hscalar]
  decide

theorem insertNode_rowData (table : String) (columns : List String) (row : List Expr) :
    insertNode F.serde U (viaJson F) D s table (rowData columns row) =
      some (rowNode F D table (rowData columns row),
        s.insertNode F.serde U (rowNode F D table (rowData columns row))) := by
  have hprops := OrdMap.insertAll_toList (rowData columns row) fun v => (viaJson F v).getD .null
  unfold OrdMap.insertAll at hprops
  unfold insertNode rowNode
  rw [viaJson_object (isScalar_rowData columns row), Option.map_some, ← hprops]
  simp only [List.foldl_map]

/-- The first row is inserted, if it is accepted. -/
theorem insertOutcome_row (table : String) (columns : List Ident) (row : List Expr)
    (rows : List (List Expr)) :
    ∃ r, r.rowsAffected = 1 ∧
      insertOutcome F U R D P s table columns (some (.values (row :: rows))) =
        if ∃ e ∈ row, convertExpr e = none then none
        else some (r, s.insertNode F.serde U
          (rowNode F D table (rowData (columns.map Ident.text) row))) := by
  let node := rowNode F D table (rowData (columns.map Ident.text) row)
  refine ⟨{ QueryResult.fromNodes [node] with rowsAffected := 1 }, rfl, ?_⟩
  unfold insertOutcome
  rw [convertStatement, Option.elim_some, extractInsertValues, convertRow_eq]
  split_ifs
  · rfl
  · simp only [Option.map_some, Option.bind_some, executeQuery, executePlan, QueryPlanner.plan,
      Option.toList_some, List.map_cons, List.map_nil, List.foldlM_cons, List.foldlM_nil,
      executeStep, insertNode_rowData]
    rfl

/-- Without VALUES nothing is inserted. -/
theorem insertOutcome_other (table : String) (columns : List Ident) (source : Option InsertSource)
    (h : ∀ row rows, source ≠ some (.values (row :: rows))) :
    ∃ r, r.rowsAffected = 0 ∧ insertOutcome F U R D P s table columns source = some (r, s) := by
  refine ⟨.empty, rfl, ?_⟩
  match source with
  | none | some .other | some (.values []) => rfl
  | some (.values (row :: rows)) => exact absurd rfl (h row rows)

theorem get_rowNode (table : String) (data : Props) (k : String) :
    (F.serde.node (rowNode F D table data)).properties[k]? = data[k]?.map (stored F) := by
  have hnode : (F.serde.node (rowNode F D table data)).properties =
      F.serde.props (data.map fun _ v => (viaJson F v).getD .null) := rfl
  rw [hnode, Serde.get_props, OrdMap.get_map, Option.map_map]
  rfl

/-! ### Rows that fit -/

theorem literalValue_isSome_iff (e : Expr) : (literalValue e).isSome ↔ IsLiteral e := by
  induction e using IsLiteral.induct with
  | case1 v => simp [literalValue, IsLiteral]
  | case2 e ih => simpa [literalValue, IsLiteral] using ih
  | case3 e hv hm => rw [literalValue, IsLiteral] <;> simp_all

/-- A literal is converted to its value. -/
theorem literalValue_eq {e : Expr} (hlit : IsLiteral e) {v : Value} (h : convertExpr e = some v) :
    literalValue e = some v := by
  induction e using IsLiteral.induct generalizing v with
  | case1 literal => exact congrArg some (meaning_of_convertSqlValue h)
  | case2 e ih =>
      rw [IsLiteral] at hlit
      rw [convertExpr] at h
      rw [literalValue]
      split at h
      · rename_i i hi
        rw [ih hlit hi]
        exact h
      · rename_i f hf
        rw [ih hlit hf]
        exact h
      · cases h
  | case3 e hv hm =>
      rw [IsLiteral] at hlit
      · exact hlit.elim
      · exact hv
      · exact hm

/-- The cells of a row with a column for every value. -/
theorem mem_zip_iff {columns : List Ident} {row : List Expr} {c : Ident} {e : Expr} :
    (c, e) ∈ columns.zip row ↔ ∃ i : ℕ, columns[i]? = some c ∧ row[i]? = some e := by
  rw [List.mem_iff_getElem?]
  exact exists_congr fun i => List.getElem?_zip_eq_some

variable {columns : List Ident} {row : List Expr}

/-- The data of a row that is listed without quotes, columns with one name agreeing. -/
theorem get_rowData (hlisted : row.length ≤ columns.length)
    (hunquoted : ∀ cell ∈ columns.zip row, cell.1.text = cell.1.value)
    (hagree : ∀ cell ∈ columns.zip row, ∀ cell' ∈ columns.zip row,
      cell.1.value = cell'.1.value → convertExpr cell.2 = convertExpr cell'.2)
    {c : Ident} {e : Expr} (hcell : (c, e) ∈ columns.zip row) {v : Value}
    (hv : convertExpr e = some v) :
    (rowData (columns.map Ident.text) row)[c.value]? = some v := by
  have htexts : ∀ x ∈ columns.zip row, ∀ y ∈ columns.zip row, x.1.text = y.1.text →
      (convertExpr x.2).getD .null = (convertExpr y.2).getD .null := by
    intro x hx y hy hxy
    rw [hunquoted x hx, hunquoted y hy] at hxy
    rw [hagree x hx y hy hxy]
  have hdata := OrdMap.get_insertAll_of_mem ∅ _ _ _ htexts _ hcell
  rw [← rowData_eq hlisted] at hdata
  dsimp only at hdata
  rwa [hunquoted _ hcell, hv, Option.getD_some] at hdata

/-- A row that fits is stored as it is. -/
theorem RowFits.carries (h : RowFits F columns row) (hsome : ∀ e ∈ row, convertExpr e ≠ none)
    (table : String) :
    Carries columns row
      (F.serde.node (rowNode F D table (rowData (columns.map Ident.text) row))).properties := by
  refine ⟨fun i e he => ?_, fun k v hk => ?_⟩
  · obtain ⟨hi, -⟩ := List.getElem?_eq_some_iff.mp he
    have hcolumn : i < columns.length := lt_of_lt_of_le hi h.listed
    have hc : columns[i]? = some columns[i] := List.getElem?_eq_getElem hcolumn
    have hcell : (columns[i], e) ∈ columns.zip row := mem_zip_iff.mpr ⟨i, hc, he⟩
    have hmem := List.mem_of_getElem? he
    obtain ⟨v, hv⟩ := Option.ne_none_iff_exists'.mp (hsome e hmem)
    refine ⟨_, v, hc, literalValue_eq (h.literal e hmem) hv, ?_⟩
    have hdata := get_rowData h.listed h.unquoted h.agree hcell hv
    rw [get_rowNode, hdata, Option.map_some,
      (stored_eq_iff (isScalar_of_convertExpr hv)).mpr (h.kept e hmem v hv)]
  · rw [get_rowNode, rowData_eq h.listed] at hk
    obtain ⟨w, hw, -⟩ := Option.map_eq_some_iff.mp hk
    obtain hnone | ⟨⟨c, e⟩, hcell, hkey, -⟩ := exists_of_get_insertAll hw
    · rw [OrdMap.get_empty] at hnone
      cases hnone
    · obtain ⟨i, hc, he⟩ := mem_zip_iff.mp hcell
      obtain ⟨hi, -⟩ := List.getElem?_eq_some_iff.mp he
      exact ⟨i, c, hi, hc, (h.unquoted _ hcell).symm.trans hkey⟩

/-- When every text in use is also the name of a column in use, none is quoted: a quoted one is
longer than its name, and it is not the name of a plain one. -/
theorem unquoted_of_texts {used : List Ident} (hwritten : ∀ c ∈ used, c.Written)
    (htexts : ∀ c ∈ used, ∃ c' ∈ used, c'.value = c.text) : ∀ c ∈ used, c.text = c.value := by
  have hlong : ∀ (n : ℕ), ∀ c ∈ used, startsQuoted c.text → ∃ c' ∈ used, startsQuoted c'.text ∧
      n < c'.text.length := by
    intro n c hc hquoted
    induction n generalizing c with
    | zero =>
        have hc' := hwritten c hc
        rw [Ident.Written, if_pos hquoted] at hc'
        exact ⟨c, hc, hquoted, by omega⟩
    | succ n ih =>
        obtain ⟨c₁, hc₁, hquoted₁, hn⟩ := ih c hc hquoted
        obtain ⟨c₂, hc₂, hname⟩ := htexts c₁ hc₁
        have hwritten₂ := hwritten c₂ hc₂
        unfold Ident.Written at hwritten₂
        split_ifs at hwritten₂ with hquoted₂
        · rw [hname] at hwritten₂
          exact ⟨c₂, hc₂, hquoted₂, by omega⟩
        · rw [hwritten₂, hname] at hquoted₂
          exact absurd hquoted₁ hquoted₂
  intro c hc
  have hwrittenc := hwritten c hc
  unfold Ident.Written at hwrittenc
  split_ifs at hwrittenc with hquoted
  · obtain ⟨c', hc', -, hlt⟩ := hlong (used.map fun c => c.text.length).sum c hc hquoted
    have hle : c'.text.length ≤ (used.map fun c => c.text.length).sum :=
      List.le_sum_of_mem (List.mem_map.mpr ⟨c', hc', rfl⟩)
    omega
  · exact hwrittenc

/-- Only a row that fits is stored as it is. -/
theorem rowFits_of_carries (hcolumns : ∀ c ∈ columns, c.Written)
    (hsome : ∀ e ∈ row, convertExpr e ≠ none) {table : String}
    (h : Carries columns row
      (F.serde.node (rowNode F D table (rowData (columns.map Ident.text) row))).properties) :
    RowFits F columns row := by
  have hlisted : row.length ≤ columns.length := by
    by_contra hlong
    rw [not_le] at hlong
    obtain ⟨c, -, hc, -⟩ := h.value columns.length _ (List.getElem?_eq_getElem hlong)
    rw [List.getElem?_eq_none le_rfl] at hc
    cases hc
  -- What the node has under the name of a cell.
  have hcells : ∀ cell ∈ columns.zip row, IsLiteral cell.2 ∧ ∃ v, convertExpr cell.2 = some v ∧
      (rowData (columns.map Ident.text) row)[cell.1.value]?.map (stored F) = some v := by
    rintro ⟨c, e⟩ hcell
    obtain ⟨i, hc, he⟩ := mem_zip_iff.mp hcell
    obtain ⟨c', v, hc', hv, hstored⟩ := h.value i e he
    obtain rfl := Option.some.inj (hc.symm.trans hc')
    have hlit : IsLiteral e := (literalValue_isSome_iff e).mp (by rw [hv]; rfl)
    obtain ⟨w, hw⟩ := Option.ne_none_iff_exists'.mp (hsome e (List.mem_of_getElem? he))
    obtain rfl := Option.some.inj ((literalValue_eq hlit hw).symm.trans hv)
    exact ⟨hlit, w, hw, by rw [← get_rowNode (D := D) table]; exact hstored⟩
  have hunquoted : ∀ c ∈ (columns.zip row).map Prod.fst, c.text = c.value := by
    refine unquoted_of_texts (fun c hc => ?_) fun c hc => ?_
    · obtain ⟨cell, hcell, rfl⟩ := List.mem_map.mp hc
      exact hcolumns _ (List.of_mem_zip hcell).1
    · obtain ⟨cell, hcell, rfl⟩ := List.mem_map.mp hc
      obtain ⟨v, hv⟩ := Option.isSome_iff_exists.mp (isSome_get_insertAll ∅
        (fun cell : Ident × Expr => cell.1.text)
          (fun cell => (convertExpr cell.2).getD .null) hcell)
      rw [← rowData_eq hlisted] at hv
      obtain ⟨i, c', hi, hc', hname⟩ := h.nothingElse cell.1.text (stored F v) (by
        rw [get_rowNode, hv]
        rfl)
      exact ⟨c', List.mem_map.mpr ⟨_, mem_zip_iff.mpr ⟨i, hc', List.getElem?_eq_getElem hi⟩, rfl⟩,
        hname⟩
  have hagree : ∀ cell ∈ columns.zip row, ∀ cell' ∈ columns.zip row,
      cell.1.value = cell'.1.value → convertExpr cell.2 = convertExpr cell'.2 := by
    intro cell hcell cell' hcell' hname
    obtain ⟨-, v, hv, hstored⟩ := hcells cell hcell
    obtain ⟨-, v', hv', hstored'⟩ := hcells cell' hcell'
    rw [hname, hstored'] at hstored
    rw [hv, hv', Option.some.inj hstored]
  have hcell : ∀ e ∈ row, ∃ c, (c, e) ∈ columns.zip row := by
    intro e he
    obtain ⟨i, hi⟩ := List.mem_iff_getElem?.mp he
    obtain ⟨hi', -⟩ := List.getElem?_eq_some_iff.mp hi
    exact ⟨columns[i], mem_zip_iff.mpr ⟨i, List.getElem?_eq_getElem (by omega), hi⟩⟩
  refine ⟨hlisted, fun e he => ?_, fun e he v hv => ?_, fun cell hmem => ?_, hagree⟩
  · obtain ⟨c, hc⟩ := hcell e he
    exact (hcells _ hc).1
  · obtain ⟨c, hc⟩ := hcell e he
    obtain ⟨-, w, hw, hstored⟩ := hcells _ hc
    obtain rfl := Option.some.inj (hv.symm.trans hw)
    have hdata := get_rowData hlisted (fun cell hmem => hunquoted _ (List.mem_map_of_mem hmem))
      hagree hc hv
    rw [hdata, Option.map_some, Option.some.injEq] at hstored
    exact (stored_eq_iff (isScalar_of_convertExpr hv)).mp hstored
  · exact hunquoted _ (List.mem_map_of_mem hmem)

end

/-! ### The result -/

/-- The one row of an INSERT. -/
theorem insertsAll_row_iff {F : JsonFormat} {U : Unicode} {R : RegexEngine} {D : Draws}
    {P : QueryPlanner} {s : TieredStorage} (hfresh : readNode F.serde s D.newId = some none)
    {columns : List Ident} (hcolumns : ∀ c ∈ columns, c.Written) (table : String)
    {row : List Expr} (hsome : ∀ e ∈ row, convertExpr e ≠ none) (rows : List (List Expr)) :
    InsertsAll F.serde s table columns (some (.values (row :: rows)))
        (insertOutcome F U R D P s table columns (some (.values (row :: rows)))) ↔
      rows = [] ∧ RowFits F columns row := by
  obtain ⟨r, hr, houtcome⟩ := insertOutcome_row (F := F) (U := U) (R := R) (D := D) (P := P)
    (s := s) table columns row rows
  rw [if_neg (by simpa using hsome)] at houtcome
  rw [houtcome]
  let node := rowNode F D table (rowData (columns.map Ident.text) row)
  obtain ⟨hread, hothers⟩ := readNode_insertNode (J := F.serde) (U := U) s node
    (parses_rowNode table (columns.map Ident.text) row)
  constructor
  · intro h
    obtain ⟨rows', hrows', haffected, ids, -, hnew, -, hids⟩ := h r _ rfl
    rw [Option.some.injEq, InsertSource.values.injEq] at hrows'
    subst hrows'
    rw [hr, List.length_cons] at haffected
    obtain rfl : rows = [] := List.eq_nil_of_length_eq_zero (by omega)
    refine ⟨rfl, ?_⟩
    cases hids with
    | cons hid hnil =>
        rename_i id ids
        obtain ⟨n, hn, -, hcarries⟩ := hid
        -- The one new node is the one that has been inserted.
        have hid : id = node.id := by
          by_contra hne
          rw [hothers id hne, hnew id List.mem_cons_self] at hn
          cases hn
        rw [hid, hread, Option.some.injEq, Option.some.injEq] at hn
        rw [← hn] at hcarries
        exact rowFits_of_carries hcolumns hsome hcarries
  · rintro ⟨rfl, hfits⟩ r' s' heq
    obtain ⟨rfl, rfl⟩ := Prod.mk.inj (Option.some.inj heq)
    refine ⟨[row], rfl, hr, [node.id], List.nodup_singleton _, ?_, ?_, ?_⟩
    · intro id hid
      rw [List.mem_singleton.mp hid]
      exact hfresh
    · exact fun id hid => hothers id (fun heq => hid (List.mem_singleton.mpr heq))
    · exact .cons ⟨_, hread, rfl, hfits.carries hsome table⟩ .nil

/-- An INSERT that is accepted inserts each of its rows, with its values under the listed columns
and nothing else, exactly when it fits. -/
theorem insert_all_iff (F : JsonFormat) (U : Unicode) (R : RegexEngine) (D : Draws)
    (P : QueryPlanner)
    (s : TieredStorage) (hfresh : readNode F.serde s D.newId = some none) (table : String)
    (columns : List Ident) (hcolumns : ∀ c ∈ columns, c.Written) (source : Option InsertSource) :
    InsertsAll F.serde s table columns source
        (insertOutcome F U R D P s table columns source) ↔
      InsertFits F columns source := by
  match source with
  | some (.values (row :: rows)) =>
      by_cases hrejected : ∃ e ∈ row, convertExpr e = none
      · obtain ⟨r, -, houtcome⟩ := insertOutcome_row (F := F) (U := U) (R := R) (D := D) (P := P)
          (s := s) table columns row rows
        rw [houtcome, if_pos hrejected]
        refine iff_of_true (fun r s' h => by cases h) ?_
        cases rows with
        | nil => exact .inl hrejected
        | cons row' rows => exact hrejected
      · rw [insertsAll_row_iff hfresh hcolumns table (by simpa using hrejected)]
        cases rows with
        | nil => simp [InsertFits, hrejected]
        | cons row' rows => simp [InsertFits, hrejected]
  | some (.values []) =>
      obtain ⟨r, hr, houtcome⟩ := insertOutcome_other (F := F) (U := U) (R := R) (D := D) (P := P)
        (s := s) table columns (some (.values [])) (by simp)
      rw [houtcome]
      refine iff_of_true (fun r' s' h => ?_) trivial
      obtain ⟨rfl, rfl⟩ := Prod.mk.inj (Option.some.inj h)
      exact ⟨[], rfl, hr, [], List.nodup_nil, by simp, fun _ _ => rfl, .nil⟩
  | some .other =>
      obtain ⟨r, -, houtcome⟩ := insertOutcome_other (F := F) (U := U) (R := R) (D := D) (P := P)
        (s := s) table columns (some .other) (by simp)
      rw [houtcome]
      refine iff_of_false (fun h => ?_) id
      obtain ⟨rows, hrows, -⟩ := h r s rfl
      simp at hrows
  | none =>
      obtain ⟨r, -, houtcome⟩ := insertOutcome_other (F := F) (U := U) (R := R) (D := D) (P := P)
        (s := s) table columns none (by simp)
      rw [houtcome]
      refine iff_of_false (fun h => ?_) id
      obtain ⟨rows, hrows, -⟩ := h r s rfl
      cases hrows

/-! ### A sample -/

/-- The columns `name` and `age`. -/
def nameAndAge : List Ident := [⟨"name", "name"⟩, ⟨"age", "age"⟩]

/-- `('Ann', 30)` -/
def annRow : List Expr := [.value (.singleQuotedString "Ann"), .value (.number "30")]

/-- A new database. -/
def newStore : TieredStorage := .new ⟨1000, 0, false⟩ false

/-- An INSERT into it. -/
def sampleInsert (rows : List (List Expr)) : Option (QueryResult × TieredStorage) :=
  insertOutcome plainNumbers asciiUnicode ⟨fun _ _ => none⟩ ⟨⟨1⟩, 0, fun _ => 0⟩ .new newStore
    "users" nameAndAge (some (.values rows))

theorem readNode_newStore (id : NodeId) : readNode plainNumbers.serde newStore id = some none := rfl

theorem written_nameAndAge : ∀ c ∈ nameAndAge, c.Written := by
  simp [nameAndAge, Ident.Written, startsQuoted]

theorem insert_all_iff_sample :
    (readNode plainNumbers.serde newStore ⟨1⟩ = some none ∧ ∀ c ∈ nameAndAge, c.Written) ∧
    (InsertsAll plainNumbers.serde newStore "users" nameAndAge (some (.values [annRow]))
        (sampleInsert [annRow]) ↔
      InsertFits plainNumbers nameAndAge (some (.values [annRow]))) :=
  ⟨⟨readNode_newStore ⟨1⟩, written_nameAndAge⟩,
    insert_all_iff plainNumbers asciiUnicode ⟨fun _ _ => none⟩ ⟨⟨1⟩, 0, fun _ => 0⟩ .new newStore
      (readNode_newStore ⟨1⟩) "users" nameAndAge written_nameAndAge _⟩

/-- `INSERT INTO users (name, age) VALUES ('Ann', 30), ('Bob', 25)` inserts one row. -/
theorem second_row_lost :
    ¬ InsertsAll plainNumbers.serde newStore "users" nameAndAge
      (some (.values [annRow, [.value (.singleQuotedString "Bob"), .value (.number "25")]]))
      (sampleInsert [annRow, [.value (.singleQuotedString "Bob"), .value (.number "25")]]) := by
  intro h
  have haccepted : (sampleInsert [annRow,
      [.value (.singleQuotedString "Bob"), .value (.number "25")]]).map
        (fun outcome => outcome.1.rowsAffected) = some 1 := by
    decide +kernel
  obtain ⟨⟨r, s'⟩, houtcome, hone⟩ := Option.map_eq_some_iff.mp haccepted
  obtain ⟨rows, hrows, haffected, -⟩ := h r s' houtcome
  rw [Option.some.injEq, InsertSource.values.injEq] at hrows
  subst hrows
  rw [haffected] at hone
  revert hone
  decide

end AresaDb.Query
