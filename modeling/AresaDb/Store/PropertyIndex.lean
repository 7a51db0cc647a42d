import AresaDb.Store.FieldIndex
import AresaDb.Store.Local

/-! # Secondary property indexes

The property index of the local storage (`storage/local.rs`): a `FieldIndex` whose terms are the
canonical texts of values, one for each value.  Different values can have one text, and equal values
two: floats are written with ten digits, and the two zeros apart. -/

namespace AresaDb.Store

/-- The text of a value in an index key. -/
def valueText (J : Serde) : Value → String
  | .string s => "s:" ++ s
  | .int i => "i:" ++ toString i
  | .float f => "f:" ++ f.toFixed 10
  | .bool b => "b:" ++ toString b
  | .null => "n:"
  | value => "j:" ++ J.text value

def makePropertyIndexKey (J : Serde) (nodeType field : String) (value : Value) : String :=
  entryKey nodeType field (valueText J value)

/-- A value has one term. -/
def propertyTerms (J : Serde) (value : Value) : List String := [valueText J value]

namespace LocalStorage

variable (J : Serde) (s : LocalStorage)

/-- The tables of the property index. -/
def propertyFields : FieldIndex := ⟨s.indexRegistry, s.propertyIndex⟩

def setPropertyFields (ix : FieldIndex) : LocalStorage :=
  { s with indexRegistry := ix.registry, propertyIndex := ix.entries }

/-- The nodes listed under a type that have an index record and a payload row. -/
def scanPayloads (nodeType : String) : List (NodeId × Props) :=
  (s.nodeTypeIndex.get nodeType).filterMap fun id =>
    if s.nodeIndexes[id]?.isSome then s.nodePayloads[id]?.map fun payload => (id, payload)
    else none

/-- The payloads of the scan, as they are parsed. -/
def readPayloads (nodeType : String) : Option (List (NodeId × Props)) :=
  readRows (fun doc => parses doc.2) (s.scanPayloads nodeType)

/-- The number of nodes that were indexed comes with the storage. -/
def createPropertyIndex (nodeType field : String) : Option (ℕ × LocalStorage) :=
  if s.propertyFields.Registered nodeType field then some (0, s)
  else
    (s.readPayloads nodeType).map fun docs =>
      ((docs.filter fun doc => doc.2[field]?.isSome).length,
        s.setPropertyFields (s.propertyFields.create (propertyTerms J) nodeType field docs))

def dropPropertyIndex (nodeType field : String) : LocalStorage :=
  s.setPropertyFields (s.propertyFields.drop nodeType field)

/-- `none` when there is no index on the field. -/
def indexLookup (nodeType field : String) (value : Value) : Option (List NodeId) :=
  if s.propertyFields.Registered nodeType field then
    some (s.propertyIndex.get (makePropertyIndexKey J nodeType field value))
  else none

/-- List a node for the indexed fields of its type. -/
def updatePropertyIndexes (id : NodeId) (nodeType : String) (properties : Props) : LocalStorage :=
  s.setPropertyFields (s.propertyFields.update (propertyTerms J) id nodeType properties)

/-- The payloads that a new index on the type is built from all parse. -/
def scanParses (nodeType : String) : Bool :=
  (s.scanPayloads nodeType).all fun doc => parses doc.2

/-- Creating an index makes it from the scan, if that parses. -/
theorem createPropertyIndex_eq (nodeType field : String) :
    ((s.createPropertyIndex J nodeType field).map Prod.snd).getD s =
      s.setPropertyFields
        (if s.scanParses nodeType then
          s.propertyFields.create (propertyTerms J) nodeType field (s.scanPayloads nodeType)
        else s.propertyFields) := by
  unfold createPropertyIndex readPayloads readRows scanParses
  by_cases hreg : s.propertyFields.Registered nodeType field
  · unfold FieldIndex.create
    rw [if_pos hreg, if_pos hreg, ite_self]
    rfl
  · rw [if_neg hreg]
    split_ifs <;> rfl

end LocalStorage

/-! ### Texts of values -/

theorem hasTerm_propertyTerms (J : Serde) (p : Props) (f x : String) :
    FieldIndex.HasTerm (propertyTerms J) p f x ↔ ∃ v, p[f]? = some v ∧ valueText J v = x := by
  unfold FieldIndex.HasTerm propertyTerms
  simp only [List.mem_singleton, eq_comm]

/-- A value that is no float and has no parts. -/
def Value.Simple : Value → Prop
  | .null | .bool _ | .int _ | .string _ => True
  | _ => False

instance (v : Value) : Decidable v.Simple := by
  cases v <;> unfold Value.Simple <;> infer_instance

theorem toString_bool_inj (a b : Bool) : toString a = toString b ↔ a = b := by
  revert a b
  decide

/-- The kind of a simple value is the first character of its text. -/
theorem valueText_eq_iff (J : Serde) {v w : Value} (hv : v.Simple) (hw : w.Simple) :
    valueText J w = valueText J v ↔ w.eq v = true := by
  rw [← String.toList_inj]
  cases v <;> cases w <;> simp_all [valueText, Value.eq, Value.Simple, String.toList_inj,
    toString_bool_inj]

end AresaDb.Store
