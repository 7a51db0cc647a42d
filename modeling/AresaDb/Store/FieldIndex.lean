import AresaDb.Lib.Framing
import AresaDb.Lib.Multimap
import AresaDb.Store.Value

/-! # Indexes on fields

The property index and the full-text index are one design (`storage/local.rs`).  A registry holds
the indexed pairs of a type and a field, and entries list node ids under a type, a field and a term
of the value of that field; the two differ in the terms of a value.  Building an index scans the
documents of the type, inserting a node adds its terms for the fields registered for its type, and
nothing else writes entries.

Type, field and term are joined by NUL characters.  Keys of plain types and fields, without NUL,
are read back uniquely (`entryKey_inj`), and only plain pairs share a registry key with a plain one
(`plain_of_registryKey`). -/

namespace AresaDb.Store

/-- `format!("{}\0{}", node_type, field)` -/
def registryKey (nodeType field : String) : String := nodeType ++ "\x00" ++ field

/-- `format!("{}\0{}\0{}", node_type, field, term)` -/
def entryKey (nodeType field term : String) : String :=
  nodeType ++ "\x00" ++ field ++ "\x00" ++ term

/-- The rest of a string after the beginning `p`. -/
def afterPrefix (p s : String) : Option String :=
  if p.toList <+: s.toList then some (String.ofList (s.toList.drop p.toList.length)) else none

/-- A name without NUL. -/
def Plain (s : String) : Prop := '\x00' ∉ s.toList

instance (s : String) : Decidable (Plain s) := inferInstanceAs (Decidable (_ ∉ _))

/-! ### Keys -/

theorem toList_registryKey (t f : String) :
    (registryKey t f).toList = t.toList ++ '\x00' :: f.toList := by
  simp [registryKey]

theorem toList_entryKey (t f x : String) :
    (entryKey t f x).toList = t.toList ++ '\x00' :: (f.toList ++ '\x00' :: x.toList) := by
  simp [entryKey]

theorem afterPrefix_eq_some_iff (p s r : String) : afterPrefix p s = some r ↔ s = p ++ r := by
  unfold afterPrefix
  constructor
  · intro h
    split_ifs at h with hp
    obtain ⟨rest, hrest⟩ := hp
    obtain rfl := Option.some.inj h
    apply String.toList_inj.mp
    simp [← hrest]
  · rintro rfl
    rw [if_pos (by simp)]
    simp

theorem registryKey_inj {t f t' f' : String} (ht : Plain t) (ht' : Plain t')
    (h : registryKey t f = registryKey t' f') : t = t' ∧ f = f' := by
  rw [← String.toList_inj, toList_registryKey, toList_registryKey] at h
  obtain ⟨ht, hf⟩ := Framing.append_sep_inj ht ht' h
  exact ⟨String.toList_inj.mp ht, String.toList_inj.mp hf⟩

theorem entryKey_inj {t f x t' f' x' : String} (ht : Plain t) (hf : Plain f) (ht' : Plain t')
    (hf' : Plain f') (h : entryKey t f x = entryKey t' f' x') : t = t' ∧ f = f' ∧ x = x' := by
  rw [← String.toList_inj, toList_entryKey, toList_entryKey] at h
  obtain ⟨ht, hrest⟩ := Framing.append_sep_inj ht ht' h
  obtain ⟨hf, hx⟩ := Framing.append_sep_inj hf hf' hrest
  exact ⟨String.toList_inj.mp ht, String.toList_inj.mp hf, String.toList_inj.mp hx⟩

/-- Of two pairs with one registry key both are plain when one is. -/
theorem plain_of_registryKey {t f t' f' : String} (ht : Plain t) (hf : Plain f)
    (h : registryKey t f = registryKey t' f') : Plain t' ∧ Plain f' := by
  rw [← String.toList_inj, toList_registryKey, toList_registryKey] at h
  have hcount := congrArg (List.count '\x00') h
  rw [List.count_append, List.count_append, List.count_cons_self, List.count_cons_self,
    List.count_eq_zero_of_not_mem ht, List.count_eq_zero_of_not_mem hf] at hcount
  exact ⟨List.count_eq_zero.mp (by omega), List.count_eq_zero.mp (by omega)⟩

/-! ### The index -/

/-- The two tables of an index. -/
structure FieldIndex where
  registry : OrdMap String Unit
  entries : Multimap String NodeId

namespace FieldIndex

variable (terms : Value → List String) (ix : FieldIndex)

/-- An index on the field was created and not dropped. -/
def Registered (nodeType field : String) : Prop := ix.registry[registryKey nodeType field]? ≠ none

instance (nodeType field : String) : Decidable (ix.Registered nodeType field) :=
  inferInstanceAs (Decidable (_ ≠ none))

/-- The fields of a type that are indexed, read off the registry keys that begin with it. -/
def fieldsFor (nodeType : String) : List String :=
  (ix.registry.toList.map Prod.fst).filterMap (afterPrefix (nodeType ++ "\x00"))

/-- List a document under the terms of one of its fields. -/
def addDoc (nodeType field : String) (m : Multimap String NodeId) (doc : NodeId × Props) :
    Multimap String NodeId :=
  match doc.2[field]? with
  | some value => (terms value).foldl (fun m x => m.insert (entryKey nodeType field x) doc.1) m
  | none => m

/-- Register a field and list the documents; nothing happens when it is registered already. -/
def create (nodeType field : String) (docs : List (NodeId × Props)) : FieldIndex :=
  if ix.Registered nodeType field then ix
  else
    ⟨ix.registry.insert (registryKey nodeType field) (),
      docs.foldl (addDoc terms nodeType field) ix.entries⟩

/-- List a document under the terms of the fields indexed for its type. -/
def update (id : NodeId) (nodeType : String) (properties : Props) : FieldIndex :=
  { ix with
    entries := (ix.fieldsFor nodeType).foldl
      (fun m field => addDoc terms nodeType field m (id, properties)) ix.entries }

/-- Remove a field from the registry, and every entry whose key begins with it. -/
def drop (nodeType field : String) : FieldIndex where
  registry := ix.registry.erase (registryKey nodeType field)
  entries := ix.entries.removeIf fun k =>
    (afterPrefix (nodeType ++ "\x00" ++ field ++ "\x00") k).isSome

/-- The ids listed under a term. -/
def lookup (nodeType field term : String) : List NodeId :=
  ix.entries.get (entryKey nodeType field term)

/-! ### What an operation adds -/

/-- A field of the properties has the term. -/
def HasTerm (properties : Props) (field term : String) : Prop :=
  ∃ value, properties[field]? = some value ∧ term ∈ terms value

variable {terms ix}

theorem mem_foldl_insert {m : Multimap String NodeId} {key : String → String} {id : NodeId}
    {xs : List String} {e : String × NodeId} :
    e ∈ xs.foldl (fun m x => m.insert (key x) id) m ↔
      e ∈ m ∨ e.2 = id ∧ ∃ x ∈ xs, e.1 = key x := by
  induction xs generalizing m with
  | nil => simp
  | cons x xs ih =>
      rw [List.foldl_cons, ih, Multimap.mem_insert, Prod.ext_iff]
      simp only [List.mem_cons, exists_eq_or_imp]
      tauto

theorem mem_addDoc {t f : String} {m : Multimap String NodeId} {doc : NodeId × Props}
    {e : String × NodeId} : e ∈ addDoc terms t f m doc ↔
      e ∈ m ∨ e.2 = doc.1 ∧ ∃ x, HasTerm terms doc.2 f x ∧ e.1 = entryKey t f x := by
  unfold addDoc HasTerm
  cases hvalue : doc.2[f]? with
  | none => simp
  | some value =>
      rw [mem_foldl_insert]
      simp

theorem mem_foldl_addDoc {t f : String} {m : Multimap String NodeId} {docs : List (NodeId × Props)}
    {e : String × NodeId} : e ∈ docs.foldl (addDoc terms t f) m ↔
      e ∈ m ∨ ∃ doc ∈ docs, e.2 = doc.1 ∧ ∃ x, HasTerm terms doc.2 f x ∧ e.1 = entryKey t f x := by
  induction docs generalizing m with
  | nil => simp
  | cons doc docs ih =>
      rw [List.foldl_cons, ih, mem_addDoc, List.exists_mem_cons_iff, or_assoc]

theorem mem_foldl_fields {t : String} {m : Multimap String NodeId} {doc : NodeId × Props}
    {fs : List String} {e : String × NodeId} :
    e ∈ fs.foldl (fun m f => addDoc terms t f m doc) m ↔
      e ∈ m ∨ e.2 = doc.1 ∧ ∃ f ∈ fs, ∃ x, HasTerm terms doc.2 f x ∧ e.1 = entryKey t f x := by
  induction fs generalizing m with
  | nil => simp
  | cons f fs ih =>
      rw [List.foldl_cons, ih, mem_addDoc, List.exists_mem_cons_iff, or_assoc, ← and_or_left]

theorem mem_fieldsFor {t f : String} : f ∈ ix.fieldsFor t ↔ ix.Registered t f := by
  unfold fieldsFor Registered
  rw [List.mem_filterMap]
  constructor
  · rintro ⟨k, hk, hf⟩
    rw [afterPrefix_eq_some_iff] at hf
    obtain ⟨⟨k, u⟩, hmem, rfl⟩ := List.mem_map.mp hk
    have hget := (OrdMap.mem_toList ix.registry k u).mp hmem
    rw [show registryKey t f = k from hf.symm, hget]
    exact Option.some_ne_none u
  · intro hreg
    obtain ⟨u, hu⟩ := Option.ne_none_iff_exists'.mp hreg
    exact ⟨registryKey t f, List.mem_map.mpr ⟨_, (OrdMap.mem_toList _ _ _).mpr hu, rfl⟩,
      (afterPrefix_eq_some_iff _ _ _).mpr rfl⟩

theorem mem_update {id : NodeId} {t : String} {p : Props} {e : String × NodeId} :
    e ∈ (ix.update terms id t p).entries ↔
      e ∈ ix.entries ∨ e.2 = id ∧ ∃ f, ix.Registered t f ∧ ∃ x, HasTerm terms p f x ∧
        e.1 = entryKey t f x := by
  unfold update
  rw [mem_foldl_fields]
  simp only [mem_fieldsFor]

theorem registered_insert {t f t' f' : String} {m : Multimap String NodeId} :
    Registered ⟨ix.registry.insert (registryKey t f) (), m⟩ t' f' ↔
      registryKey t f = registryKey t' f' ∨ ix.Registered t' f' := by
  unfold Registered
  rw [OrdMap.get_insert]
  split_ifs with h
  · simp [h]
  · simp [h]

theorem registered_drop {t f t' f' : String} : (ix.drop t f).Registered t' f' ↔
    registryKey t f ≠ registryKey t' f' ∧ ix.Registered t' f' := by
  unfold Registered drop
  rw [OrdMap.get_erase]
  split_ifs with h
  · simp [h]
  · simp [h]

theorem mem_drop {t f : String} {e : String × NodeId} :
    e ∈ (ix.drop t f).entries ↔ (∀ x, e.1 ≠ entryKey t f x) ∧ e ∈ ix.entries := by
  unfold drop
  rw [Multimap.mem_removeIf]
  refine and_congr_left fun _ => ?_
  rw [← Bool.not_eq_true, Option.isSome_iff_exists]
  simp only [afterPrefix_eq_some_iff, not_exists]
  rfl

/-! ### Exactness -/

/-- Only plain names are registered, and every entry is of a registered field. -/
structure Named (ix : FieldIndex) : Prop where
  registry : ∀ k : String, ix.registry[k]? ≠ none → ∃ t f, Plain t ∧ Plain f ∧ k = registryKey t f
  entries : ∀ e, e ∈ ix.entries → ∃ t f x, ix.Registered t f ∧ e.1 = entryKey t f x

theorem Named.plain (h : ix.Named) {t f : String} (hreg : ix.Registered t f) :
    Plain t ∧ Plain f := by
  obtain ⟨t', f', ht', hf', hkey⟩ := h.registry _ hreg
  exact plain_of_registryKey ht' hf' hkey.symm

/-- The id is listed under the terms of the node, for its type, and no others. -/
def ListsRight (terms : Value → List String) (ix : FieldIndex) (id : NodeId) (n : Node) : Prop :=
  ∀ t f, ix.Registered t f → ∀ x,
    (entryKey t f x, id) ∈ ix.entries ↔ t = n.nodeType ∧ HasTerm terms n.properties f x

/-- Every node there is is listed right; ids without a node may be listed anyhow. -/
structure Exact (terms : Value → List String) (ix : FieldIndex) (nodes : OrdMap NodeId Node) :
    Prop where
  named : ix.Named
  right : ∀ (id : NodeId) (n : Node), nodes[id]? = some n → ListsRight terms ix id n

/-- The terms an id is listed under, with those of the properties, are the terms of the node. -/
def AddsRight (terms : Value → List String) (ix : FieldIndex) (id : NodeId) (properties : Props)
    (n : Node) : Prop :=
  ∀ t f, ix.Registered t f → ∀ x,
    (entryKey t f x, id) ∈ ix.entries ∨ t = n.nodeType ∧ HasTerm terms properties f x ↔
      t = n.nodeType ∧ HasTerm terms n.properties f x

/-- The documents hold the terms of the nodes of the type, and of no other node. -/
def ScansRight (terms : Value → List String) (nodes : OrdMap NodeId Node) (nodeType field : String)
    (docs : List (NodeId × Props)) : Prop :=
  ∀ (id : NodeId) (n : Node), nodes[id]? = some n → ∀ x,
    (∃ doc ∈ docs, doc.1 = id ∧ HasTerm terms doc.2 field x) ↔
      nodeType = n.nodeType ∧ HasTerm terms n.properties field x

theorem exact_empty (terms : Value → List String) : Exact terms ⟨∅, .empty⟩ ∅ where
  named := ⟨fun k hk => absurd (OrdMap.get_empty k) hk, fun e he => absurd he (by simp)⟩
  right id n hn := by simp at hn

namespace Exact

variable {nodes : OrdMap NodeId Node} (h : Exact terms ix nodes)
include h

theorem insert_node {id : NodeId} {n : Node} (hn : ListsRight terms ix id n) :
    Exact terms ix (nodes.insert id n) where
  named := h.named
  right id' n' hn' := by
    rw [OrdMap.get_insert] at hn'
    split_ifs at hn' with hid
    · obtain rfl := Option.some.inj hn'
      exact hid ▸ hn
    · exact h.right id' n' hn'

theorem erase_node (id : NodeId) : Exact terms ix (nodes.erase id) where
  named := h.named
  right id' n hn := by
    rw [OrdMap.get_erase] at hn
    split_ifs at hn
    exact h.right id' n hn

theorem update {id : NodeId} {n : Node} {p : Props} (hn : AddsRight terms ix id p n) :
    Exact terms (ix.update terms id n.nodeType p) (nodes.insert id n) := by
  have hnamed : (ix.update terms id n.nodeType p).Named := by
    refine ⟨h.named.registry, fun e he => ?_⟩
    rcases mem_update.mp he with he | ⟨_, f, hreg, x, _, hkey⟩
    · exact h.named.entries e he
    · exact ⟨n.nodeType, f, x, hreg, hkey⟩
  -- For a registered field the update lists the id under the terms of the properties.
  have hmem : ∀ t f, ix.Registered t f → ∀ x id',
      (entryKey t f x, id') ∈ (ix.update terms id n.nodeType p).entries ↔
        (entryKey t f x, id') ∈ ix.entries ∨
          id' = id ∧ t = n.nodeType ∧ HasTerm terms p f x := by
    intro t f hreg x id'
    obtain ⟨ht, hf⟩ := h.named.plain hreg
    rw [mem_update]
    refine or_congr_right (and_congr_right fun _ => ?_)
    constructor
    · rintro ⟨f', hreg', x', hx', hkey⟩
      obtain ⟨ht', hf'⟩ := h.named.plain hreg'
      obtain ⟨rfl, rfl, rfl⟩ := entryKey_inj ht hf ht' hf' hkey
      exact ⟨rfl, hx'⟩
    · rintro ⟨rfl, hx⟩
      exact ⟨f, hreg, x, hx, rfl⟩
  refine ⟨hnamed, fun id' n' hn' t f hreg x => ?_⟩
  rw [hmem t f hreg]
  rw [OrdMap.get_insert] at hn'
  split_ifs at hn' with hid
  · obtain rfl := Option.some.inj hn'
    subst hid
    simp only [true_and]
    exact hn t f hreg x
  · simp only [Ne.symm hid, false_and, or_false]
    exact h.right id' n' hn' t f hreg x

theorem create {t f : String} (ht : Plain t) (hf : Plain f) {docs : List (NodeId × Props)}
    (hdocs : ¬ ix.Registered t f → ScansRight terms nodes t f docs) :
    Exact terms (ix.create terms t f docs) nodes := by
  unfold FieldIndex.create
  split_ifs with hreg
  · exact h
  refine ⟨⟨fun k hk => ?_, fun e he => ?_⟩, fun id n hn t' f' hreg' x => ?_⟩
  · rw [OrdMap.get_insert] at hk
    split_ifs at hk with hkey
    · exact ⟨t, f, ht, hf, hkey.symm⟩
    · exact h.named.registry k hk
  · rcases mem_foldl_addDoc.mp he with he | ⟨doc, _, _, x, _, hkey⟩
    · obtain ⟨t', f', x, hreg', hkey⟩ := h.named.entries e he
      exact ⟨t', f', x, registered_insert.mpr (.inr hreg'), hkey⟩
    · exact ⟨t, f, x, registered_insert.mpr (.inl rfl), hkey⟩
  · rw [mem_foldl_addDoc]
    have hscan := hdocs hreg id n hn x
    rcases registered_insert.mp hreg' with hsame | hold
    · -- The new field: nothing was listed under it before.
      obtain ⟨ht', hf'⟩ := plain_of_registryKey ht hf hsame
      obtain ⟨rfl, rfl⟩ := registryKey_inj ht ht' hsame
      rw [← hscan]
      constructor
      · rintro (he | ⟨doc, hdoc, hid, x', hx', hkey⟩)
        · obtain ⟨t', f', x', hreg', hkey⟩ := h.named.entries _ he
          obtain ⟨ht', hf'⟩ := h.named.plain hreg'
          obtain ⟨rfl, rfl, rfl⟩ := entryKey_inj ht hf ht' hf' hkey
          exact absurd hreg' hreg
        · obtain ⟨-, -, rfl⟩ := entryKey_inj ht hf ht hf hkey
          exact ⟨doc, hdoc, hid.symm, hx'⟩
      · rintro ⟨doc, hdoc, hid, hx⟩
        exact .inr ⟨doc, hdoc, hid.symm, x, hx, rfl⟩
    · -- A field registered before: the new entries are not under it.
      rw [← h.right id n hn t' f' hold x, or_iff_left]
      rintro ⟨doc, _, _, x', _, hkey⟩
      obtain ⟨ht', hf'⟩ := h.named.plain hold
      obtain ⟨rfl, rfl, -⟩ := entryKey_inj ht' hf' ht hf hkey
      exact hreg hold

theorem drop {t f : String} (ht : Plain t) (hf : Plain f) : Exact terms (ix.drop t f) nodes := by
  -- A field that is left does not share its keys with the one that goes.
  have hkeep : ∀ t' f', (ix.drop t f).Registered t' f' → ∀ x x',
      entryKey t' f' x ≠ entryKey t f x' := by
    intro t' f' hreg x x' hkey
    obtain ⟨hne, hreg⟩ := registered_drop.mp hreg
    obtain ⟨ht', hf'⟩ := h.named.plain hreg
    obtain ⟨rfl, rfl, -⟩ := entryKey_inj ht' hf' ht hf hkey
    exact hne rfl
  refine ⟨⟨fun k hk => ?_, fun e he => ?_⟩, fun id n hn t' f' hreg x => ?_⟩
  · refine h.named.registry k fun hnone => hk ?_
    unfold FieldIndex.drop
    rw [OrdMap.get_erase, hnone, ite_self]
  · obtain ⟨hne, he⟩ := mem_drop.mp he
    obtain ⟨t', f', x, hreg, hkey⟩ := h.named.entries e he
    refine ⟨t', f', x, registered_drop.mpr ⟨fun hsame => ?_, hreg⟩, hkey⟩
    obtain ⟨ht', hf'⟩ := h.named.plain hreg
    obtain ⟨rfl, rfl⟩ := registryKey_inj ht ht' hsame
    exact hne x hkey
  · rw [mem_drop, and_iff_right (hkeep t' f' hreg x)]
    exact h.right id n hn t' f' (registered_drop.mp hreg).2 x

/-- The nodes found under a term are the nodes of the type that have it. -/
theorem mem_lookup {t f : String} (hreg : ix.Registered t f) (x : String) {id : NodeId} {n : Node}
    (hn : nodes[id]? = some n) :
    id ∈ ix.lookup t f x ↔ t = n.nodeType ∧ HasTerm terms n.properties f x := by
  unfold lookup
  rw [Multimap.mem_get]
  exact h.right id n hn t f hreg x

end Exact

end FieldIndex

end AresaDb.Store
