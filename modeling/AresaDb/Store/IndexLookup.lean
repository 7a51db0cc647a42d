import AresaDb.Store.IndexRuns

/-! # Lookups in exact indexes

After a run of safe operations the property index returns the nodes of a type whose field has a
value, if the texts of the values tell them apart (`index_lookup_exact_iff`), and the full-text
index returns the nodes with a token of the query, if the limit leaves room for the ids of deleted
nodes that are still listed (`fulltext_search_exact`). -/

namespace AresaDb.Store

open FieldIndex

/-! ### Property lookups -/

/-- The lookup returns the nodes of the type whose field has the value, each once. -/
def LookupExact (J : Serde) (t : Tracked) (nodeType field : String) (v : Value) : Prop :=
  ∃ found s', t.store.indexLookup J nodeType field v = some (some found, s') ∧
    (found.map Node.id).Nodup ∧
    ∀ n, n ∈ found ↔ (∃ id : NodeId, t.nodes[id]? = some n) ∧ n.nodeType = nodeType ∧
      ∃ w, n.properties[field]? = some w ∧ w.eq v = true

/-- In the nodes of the type, the value and the values with its text are the same. -/
def TextsAgree (J : Serde) (t : Tracked) (nodeType field : String) (v : Value) : Prop :=
  ∀ (id : NodeId) (n : Node) (w : Value), t.nodes[id]? = some n → n.nodeType = nodeType →
    n.properties[field]? = some w → (valueText J w = valueText J v ↔ w.eq v = true)

/-- Simple values are told apart by their texts. -/
theorem textsAgree_of_simple (J : Serde) {t : Tracked} {nodeType field : String} {v : Value}
    (hv : v.Simple)
    (hsimple : ∀ (id : NodeId) (n : Node) (w : Value), t.nodes[id]? = some n →
      n.nodeType = nodeType → n.properties[field]? = some w → w.Simple) :
    TextsAgree J t nodeType field v :=
  fun id n w hn ht hw => valueText_eq_iff J hv (hsimple id n w hn ht hw)

section

variable {J : Serde} {U : Unicode}

/-- Distinct ids read distinct nodes. -/
theorem nodup_found {τ : Type} {nodes : OrdMap NodeId Node} {s : TieredStorage}
    (h : Coherent nodes s) {l : List (NodeId × τ)} (hl : (l.map Prod.fst).Nodup) :
    ((l.filterMap fun e => nodes[e.1]?.map fun n => (n, e.2)).map fun r => r.1.id).Nodup := by
  have hsub : List.Sublist ((l.filterMap fun e => nodes[e.1]?.map fun n => (n, e.2)).map
      fun r => r.1.id) (l.map Prod.fst) := by
    induction l with
    | nil => simp
    | cons e l ih =>
        have ih := ih (List.nodup_cons.mp hl).2
        cases hn : nodes[e.1]? with
        | none =>
            rw [List.filterMap_cons_none (by rw [hn]; rfl)]
            exact ih.cons _
        | some n =>
            rw [List.filterMap_cons_some (by rw [hn]; rfl), List.map_cons, List.map_cons,
              h.node_id hn]
            exact ih.cons_cons _
  exact hl.sublist hsub

theorem mem_found {τ : Type} {nodes : OrdMap NodeId Node} {l : List (NodeId × τ)} {n : Node} :
    n ∈ (l.filterMap fun e => nodes[e.1]?.map fun n => (n, e.2)).map Prod.fst ↔
      ∃ id ∈ l.map Prod.fst, nodes[id]? = some n := by
  rw [List.mem_map]
  constructor
  · rintro ⟨r, hr, rfl⟩
    obtain ⟨e, he, hread⟩ := List.mem_filterMap.mp hr
    obtain ⟨m, hm, rfl⟩ := Option.map_eq_some_iff.mp hread
    exact ⟨e.1, List.mem_map_of_mem he, hm⟩
  · rintro ⟨id, hid, hn⟩
    obtain ⟨e, he, rfl⟩ := List.mem_map.mp hid
    exact ⟨(n, e.2), List.mem_filterMap.mpr ⟨e, he, by rw [hn]; rfl⟩, rfl⟩

/-- What a lookup returns from an exact index: the nodes of the type whose value has the text. -/
theorem indexLookup_eq {t : Tracked} (h : IndexInv (propertyKind J U) t) {nodeType field : String}
    (hreg : t.store.local_.propertyFields.Registered nodeType field) (v : Value) :
    ∃ found s', t.store.indexLookup J nodeType field v = some (some found, s') ∧
      (found.map Node.id).Nodup ∧
      ∀ n, n ∈ found ↔ (∃ id : NodeId, t.nodes[id]? = some n) ∧ n.nodeType = nodeType ∧
        ∃ w, n.properties[field]? = some w ∧ valueText J w = valueText J v := by
  let ids := t.store.local_.propertyIndex.get (makePropertyIndexKey J nodeType field v)
  have hlookup : t.store.local_.indexLookup J nodeType field v = some ids := if_pos hreg
  obtain ⟨s', hread, _⟩ := readNodes_of_allParse (J := J) h.coherent h.readable
    (ids.map fun id => (id, ()))
  have hfst : (ids.map fun id => (id, ())).map Prod.fst = ids := by
    rw [List.map_map]
    exact List.map_id ids
  let found := ((ids.map fun id => (id, ())).filterMap fun e =>
    t.nodes[e.1]?.map fun n => (n, e.2)).map Prod.fst
  have hfound : t.store.indexLookup J nodeType field v = some (some found, s') := by
    unfold TieredStorage.indexLookup
    rw [hlookup]
    simp only [hread, Option.map_some]
    rfl
  refine ⟨found, s', hfound, ?_, fun n => ?_⟩
  · have hnodup := nodup_found h.coherent (l := ids.map fun id => (id, ()))
      (by rw [hfst]; exact Multimap.get_nodup _ _)
    rw [show found.map Node.id = _ from List.map_map]
    exact hnodup
  · rw [mem_found, hfst]
    have hmem : ∀ id : NodeId, t.nodes[id]? = some n → (id ∈ ids ↔ n.nodeType = nodeType ∧
        ∃ w, n.properties[field]? = some w ∧ valueText J w = valueText J v) := by
      intro id hn
      rw [← hasTerm_propertyTerms, eq_comm (a := n.nodeType)]
      exact h.exact.mem_lookup hreg (valueText J v) hn
    constructor
    · rintro ⟨id, hid, hn⟩
      exact ⟨⟨id, hn⟩, (hmem id hn).mp hid⟩
    · rintro ⟨⟨id, hn⟩, hterm⟩
      exact ⟨id, (hmem id hn).mpr hterm, hn⟩

end

theorem indexInv_new_property (J : Serde) (U : Unicode) (config : TieredConfig) (hasBucket : Bool) :
    IndexInv (propertyKind J U) (.new config hasBucket) :=
  ⟨coherent_new config hasBucket, allParse_empty, exact_empty _⟩

theorem indexInv_new_fulltext (J : Serde) (U : Unicode) (config : TieredConfig) (hasBucket : Bool) :
    IndexInv (fulltextKind J U) (.new config hasBucket) :=
  ⟨coherent_new config hasBucket, allParse_empty, exact_empty _⟩

/-- After a run of safe operations a lookup is exact, exactly for the values that their texts tell
apart from the others in the nodes of the type. -/
theorem index_lookup_exact_iff (J : Serde) (U : Unicode) (config : TieredConfig) (hasBucket : Bool)
    (ops : List StoreOp)
    (hsafe : SafeRun (propertyKind J U) config hasBucket ops) (nodeType field : String)
    (hreg : (Tracked.reached J U config hasBucket ops).store.local_.propertyFields.Registered
      nodeType field) (v : Value) :
    LookupExact J (.reached J U config hasBucket ops) nodeType field v ↔
      TextsAgree J (.reached J U config hasBucket ops) nodeType field v := by
  have hinv : IndexInv (propertyKind J U) (.reached J U config hasBucket ops) :=
    exact_run (indexInv_new_property J U config hasBucket) hsafe
  obtain ⟨found, s', hlookup, hnodup, hfound⟩ := indexLookup_eq hinv hreg v
  constructor
  · rintro ⟨found', s'', hlookup', -, hfound'⟩ id n w hn ht hw
    rw [hlookup] at hlookup'
    obtain ⟨hsame, -⟩ := Prod.mk.inj (Option.some.inj hlookup')
    obtain rfl := Option.some.inj hsame
    have hiff := (hfound n).symm.trans (hfound' n)
    constructor
    · intro htext
      obtain ⟨-, -, w', hw', heq⟩ := hiff.mp ⟨⟨id, hn⟩, ht, w, hw, htext⟩
      obtain rfl := Option.some.inj (hw.symm.trans hw')
      exact heq
    · intro heq
      obtain ⟨-, -, w', hw', htext⟩ := hiff.mpr ⟨⟨id, hn⟩, ht, w, hw, heq⟩
      obtain rfl := Option.some.inj (hw.symm.trans hw')
      exact htext
  · intro hagree
    refine ⟨found, s', hlookup, hnodup, fun n => (hfound n).trans ?_⟩
    refine and_congr_right fun ⟨id, hn⟩ => and_congr_right fun ht => exists_congr fun w => ?_
    exact and_congr_right fun hw => hagree id n w hn ht hw

/-- A node under a new id, of which the JSON keeps the terms. -/
theorem addsRight_of_fresh {terms : Value → List String} {ix : FieldIndex} {id : NodeId} {p : Props}
    {n : Node} (hfresh : ∀ k, (k, id) ∉ ix.entries)
    (hterms : ∀ f x, HasTerm terms p f x ↔ HasTerm terms n.properties f x) :
    AddsRight terms ix id p n := by
  intro t f _ x
  rw [or_iff_right (hfresh _), hterms]

theorem hasTerm_plainJson (terms : Value → List String) (n : Node) (f x : String) :
    HasTerm terms n.properties f x ↔ HasTerm terms (plainJson.node n).properties f x := by
  have hget : (plainJson.props n.properties)[f]? = n.properties[f]? := by
    rw [Serde.get_props]
    exact congrFun Option.map_id _
  unfold HasTerm
  rw [show (plainJson.node n).properties[f]? = n.properties[f]? from hget]

/-- An index on ages and a node with an age. -/
def sampleLookup : List StoreOp :=
  [.createIndex "user" "age",
    .insertNode ⟨⟨1⟩, "user", (∅ : Props).insert "age" (.int 30), 0, 0⟩]

theorem safe_sampleLookup :
    SafeRun (propertyKind plainJson asciiUnicode) ⟨1000, 0, false⟩ false sampleLookup := by
  have hparses : parses ((∅ : Props).insert "age" (.int 30)) = true := by decide +kernel
  refine ⟨⟨trivial, ⟨by decide, by decide, ?_⟩, trivial⟩, ⟨hparses, ?_, trivial⟩, trivial⟩
  · intro _ id n hn
    exact absurd hn (by simp [Tracked.new])
  · exact addsRight_of_fresh (fun k => Multimap.not_mem_empty _) (hasTerm_plainJson _ _)


theorem index_lookup_exact_iff_sample :
    (SafeRun (propertyKind plainJson asciiUnicode) ⟨1000, 0, false⟩ false sampleLookup ∧
      (Tracked.reached plainJson asciiUnicode ⟨1000, 0, false⟩ false
        sampleLookup).store.local_.propertyFields.Registered "user" "age") ∧
    (LookupExact plainJson (.reached plainJson asciiUnicode ⟨1000, 0, false⟩ false sampleLookup)
        "user" "age" (.int 30) ↔
      TextsAgree plainJson (.reached plainJson asciiUnicode ⟨1000, 0, false⟩ false sampleLookup)
        "user" "age" (.int 30)) := by
  have hreg : (Tracked.reached plainJson asciiUnicode ⟨1000, 0, false⟩ false
      sampleLookup).store.local_.propertyFields.Registered "user" "age" := by decide +kernel
  exact ⟨⟨safe_sampleLookup, hreg⟩, index_lookup_exact_iff _ _ _ _ _ safe_sampleLookup _ _ hreg _⟩

/-- A node with an age, in a database with an index on ages, and an update of the age. -/
def sampleIndexed : List StoreOp :=
  [.createIndex "user" "age",
    .insertNode ⟨⟨1⟩, "user", (∅ : Props).insert "age" (.int 30), 0, 0⟩,
    .updateNode 5 ⟨1⟩ (.object [("age", .int 31)])]

/-- The lookup of the new age returns nothing. -/
theorem update_not_looked_up :
    (Tracked.reached plainJson asciiUnicode ⟨1000, 0, false⟩ false
        sampleIndexed).store.local_.propertyFields.Registered "user" "age" ∧
      ¬ LookupExact plainJson (.reached plainJson asciiUnicode ⟨1000, 0, false⟩ false sampleIndexed)
        "user" "age" (.int 31) := by
  refine ⟨by decide +kernel, ?_⟩
  rintro ⟨found, s', hlookup, -, hfound⟩
  have hnone : (((Tracked.reached plainJson asciiUnicode ⟨1000, 0, false⟩ false
      sampleIndexed).store.indexLookup plainJson "user" "age" (.int 31)).map
        fun r => r.1.map List.length) = some (some 0) := by decide +kernel
  rw [hlookup, Option.map_some, Option.map_some, Option.some.injEq, Option.some.injEq] at hnone
  obtain rfl := List.eq_nil_of_length_eq_zero hnone
  have hnode : ((Tracked.reached plainJson asciiUnicode ⟨1000, 0, false⟩ false
      sampleIndexed).nodes[(⟨1⟩ : NodeId)]?.map fun n =>
        (n.nodeType, n.properties["age"]?.map fun w => w.eq (.int 31))) =
          some ("user", some true) := by decide +kernel
  obtain ⟨n, hn, heq⟩ := Option.map_eq_some_iff.mp hnode
  obtain ⟨htype, hage⟩ := Prod.mk.inj heq
  obtain ⟨w, hw, heq⟩ := Option.map_eq_some_iff.mp hage
  exact absurd ((hfound n).mpr ⟨⟨⟨1⟩, hn⟩, htype, w, hw, heq⟩) List.not_mem_nil

/-! ### Full-text search -/

/-- The search returns the nodes of the type whose text has a token of the query, each once. -/
def SearchExact (J : Serde) (U : Unicode) (A : Scoring) (H : HashOrder) (t : Tracked)
    (nodeType field query : String) (limit : ℕ) : Prop :=
  ∃ found s', t.store.fulltextSearch J U A H nodeType field query limit = some (found, s') ∧
    (found.map fun r => r.1.id).Nodup ∧
    ∀ n, n ∈ found.map Prod.fst ↔ (∃ id : NodeId, t.nodes[id]? = some n) ∧ n.nodeType = nodeType ∧
      ∃ text, n.properties[field]? = some (.string text) ∧
        ∃ token ∈ tokenize U query, token ∈ tokenize U text

/-- The ids listed under a token of the query, those of deleted nodes among them. -/
def listedIds (U : Unicode) (ix : FieldIndex) (nodeType field query : String) : List NodeId :=
  ((tokenize U query).flatMap (ix.lookup nodeType field)).dedup

theorem mem_listedIds {U : Unicode} {ix : FieldIndex} {nodeType field query : String}
    {id : NodeId} :
    id ∈ listedIds U ix nodeType field query ↔
      ∃ token ∈ tokenize U query, id ∈ ix.lookup nodeType field token := by
  unfold listedIds
  rw [List.mem_dedup, List.mem_flatMap]

/-- A list without repetition that is part of another is no longer. -/
theorem length_le_of_nodup_subset {α : Type} {l₁ l₂ : List α} (h : l₁.Nodup)
    (hsub : ∀ a ∈ l₁, a ∈ l₂) : l₁.length ≤ l₂.length :=
  (h.subperm hsub).length_le

section

variable {J : Serde} {U : Unicode}

/-- With room for all of them, a search returns the listed ids, each once. -/
theorem localSearch_eq (A : Scoring) (H : HashOrder) {l : LocalStorage}
    {nodeType field query : String} (hreg : l.fulltextFields.Registered nodeType field) {limit : ℕ}
    (hlimit : (listedIds U l.fulltextFields nodeType field query).length ≤ limit) :
    ∃ results, l.fulltextSearch U A H nodeType field query limit = some results ∧
      (results.map Prod.fst).Nodup ∧
      ∀ id, id ∈ results.map Prod.fst ↔ id ∈ listedIds U l.fulltextFields nodeType field query := by
  let scores := (tokenize U query).foldl (l.scoreToken A nodeType field) ∅
  let results := (H.order scores.toList).mergeSort fun a b => !(a.2.lt b.2)
  have hperm : results.Perm scores.toList := (List.mergeSort_perm _ _).trans (H.perm _)
  have hkeys : (scores.toList.map Prod.fst).Nodup :=
    List.Pairwise.map _ (fun _ _ hab => hab.ne) (OrdMap.toList_sorted scores)
  have hmem : ∀ id, id ∈ scores.toList.map Prod.fst ↔
      id ∈ listedIds U l.fulltextFields nodeType field query := by
    intro id
    rw [mem_listedIds, ← LocalStorage.mem_scores A, List.mem_map]
    constructor
    · rintro ⟨⟨id, score⟩, hin, rfl⟩
      exact ⟨score, (OrdMap.mem_toList _ _ _).mp hin⟩
    · rintro ⟨score, hscore⟩
      exact ⟨(id, score), (OrdMap.mem_toList _ _ _).mpr hscore, rfl⟩
  have hlength : results.length ≤ limit := by
    have hmap : (scores.toList.map Prod.fst).length = scores.toList.length := List.length_map _
    rw [hperm.length_eq, ← hmap]
    exact (length_le_of_nodup_subset hkeys fun id hid => (hmem id).mp hid).trans hlimit
  refine ⟨results, ?_, (hperm.map Prod.fst).nodup_iff.mpr hkeys, fun id => ?_⟩
  · unfold LocalStorage.fulltextSearch
    rw [if_pos hreg]
    exact congrArg some (List.take_of_length_le hlength)
  · rw [(hperm.map Prod.fst).mem_iff]
    exact hmem id

/-- The term of a value is a token of its text. -/
theorem hasTerm_fulltextTerms (p : Props) (field token : String) :
    HasTerm (fulltextTerms U) p field token ↔
      ∃ text, p[field]? = some (.string text) ∧ token ∈ tokenize U text := by
  constructor
  · rintro ⟨value, hvalue, htoken⟩
    cases value with
    | string text => exact ⟨text, hvalue, (mem_fulltextTerms U text token).mp htoken⟩
    | _ => exact absurd htoken List.not_mem_nil
  · rintro ⟨text, htext, htoken⟩
    exact ⟨.string text, htext, (mem_fulltextTerms U text token).mpr htoken⟩

end

/-- After a run of safe operations a search is exact, if the limit has room for every id listed
under a token of the query. -/
theorem fulltext_search_exact (J : Serde) (U : Unicode) (A : Scoring) (H : HashOrder)
    (config : TieredConfig) (hasBucket : Bool) (ops : List StoreOp)
    (hsafe : SafeRun (fulltextKind J U) config hasBucket ops) (nodeType field : String)
    (hreg : (Tracked.reached J U config hasBucket ops).store.local_.fulltextFields.Registered
      nodeType field) (query : String) (limit : ℕ)
    (hlimit : (listedIds U (Tracked.reached J U config hasBucket ops).store.local_.fulltextFields
      nodeType field query).length ≤ limit) :
    SearchExact J U A H (.reached J U config hasBucket ops) nodeType field query limit := by
  have hinv : IndexInv (fulltextKind J U) (.reached J U config hasBucket ops) :=
    exact_run (indexInv_new_fulltext J U config hasBucket) hsafe
  obtain ⟨results, hsearch, hnodup, hresults⟩ := localSearch_eq A H hreg hlimit
  obtain ⟨s', hread, _⟩ := readNodes_of_allParse (J := J) hinv.coherent hinv.readable results
  refine ⟨_, s', ?_, nodup_found hinv.coherent hnodup, fun n => ?_⟩
  · unfold TieredStorage.fulltextSearch
    rw [hsearch]
    exact hread
  rw [mem_found]
  -- A node that there is is listed under the tokens of its text.
  have hmem : ∀ id : NodeId,
      (Tracked.reached J U config hasBucket ops).nodes[id]? = some n →
        (id ∈ results.map Prod.fst ↔ n.nodeType = nodeType ∧
          ∃ text, n.properties[field]? = some (.string text) ∧
            ∃ token ∈ tokenize U query, token ∈ tokenize U text) := by
    intro id hn
    rw [hresults, mem_listedIds]
    have hlookup := fun token => hinv.exact.mem_lookup hreg token hn
    constructor
    · rintro ⟨token, htoken, hid⟩
      obtain ⟨ht, hterm⟩ := (hlookup token).mp hid
      obtain ⟨text, htext, hin⟩ := (hasTerm_fulltextTerms _ _ _).mp hterm
      exact ⟨ht.symm, text, htext, token, htoken, hin⟩
    · rintro ⟨ht, text, htext, token, htoken, hin⟩
      exact ⟨token, htoken,
        (hlookup token).mpr ⟨ht.symm, (hasTerm_fulltextTerms _ _ _).mpr ⟨text, htext, hin⟩⟩⟩
  constructor
  · rintro ⟨id, hid, hn⟩
    exact ⟨⟨id, hn⟩, (hmem id hn).mp hid⟩
  · rintro ⟨⟨id, hn⟩, hterm⟩
    exact ⟨id, (hmem id hn).mpr hterm, hn⟩

/-- An index on texts and a node with a text. -/
def sampleText : List StoreOp :=
  [.createFulltextIndex "post" "body",
    .insertNode ⟨⟨1⟩, "post", (∅ : Props).insert "body" (.string "a red fox"), 0, 0⟩]

theorem safe_sampleText :
    SafeRun (fulltextKind plainJson asciiUnicode) ⟨1000, 0, false⟩ false sampleText := by
  have hparses : parses ((∅ : Props).insert "body" (.string "a red fox")) =
    true := by decide +kernel
  refine ⟨⟨trivial, ⟨by decide, by decide, ?_⟩, trivial⟩, ⟨hparses, ?_, trivial⟩, trivial⟩
  · intro _ id n hn
    exact absurd hn (by simp [Tracked.new])
  · exact addsRight_of_fresh (fun k => Multimap.not_mem_empty _) (hasTerm_plainJson _ _)

/-- The scores of one document for one token. -/
def sampleScoring : Scoring := ⟨⟨0⟩, fun _ score => score, fun _ _ _ => ⟨0x3fd269621134db91⟩⟩

/-- One document has one order. -/
def sampleOrder : HashOrder := ⟨id, List.Perm.refl⟩

theorem fulltext_search_exact_sample :
    (SafeRun (fulltextKind plainJson asciiUnicode) ⟨1000, 0, false⟩ false sampleText ∧
      (Tracked.reached plainJson asciiUnicode ⟨1000, 0, false⟩ false
        sampleText).store.local_.fulltextFields.Registered "post" "body" ∧
      (listedIds asciiUnicode (Tracked.reached plainJson asciiUnicode ⟨1000, 0, false⟩ false
        sampleText).store.local_.fulltextFields "post" "body" "Fox").length ≤ 1) ∧
    SearchExact plainJson asciiUnicode sampleScoring sampleOrder
      (.reached plainJson asciiUnicode ⟨1000, 0, false⟩ false sampleText) "post" "body"
          "Fox" 1 := by
  have hreg : (Tracked.reached plainJson asciiUnicode ⟨1000, 0, false⟩ false
      sampleText).store.local_.fulltextFields.Registered "post" "body" := by decide +kernel
  have hlimit : (listedIds asciiUnicode (Tracked.reached plainJson asciiUnicode ⟨1000, 0, false⟩
      false sampleText).store.local_.fulltextFields "post" "body" "Fox").length ≤ 1 := by
    decide +kernel
  exact ⟨⟨safe_sampleText, hreg, hlimit⟩,
    fulltext_search_exact _ _ _ _ _ _ _ safe_sampleText _ _ hreg _ _ hlimit⟩

/-- The text is replaced. -/
def sampleRewrite : List StoreOp :=
  sampleText ++ [.updateNode 5 ⟨1⟩ (.object [("body", .string "a blue whale")])]

/-- The search for a word of the new text returns nothing. -/
theorem update_not_found :
    (Tracked.reached plainJson asciiUnicode ⟨1000, 0, false⟩ false
        sampleRewrite).store.local_.fulltextFields.Registered "post" "body" ∧
      ¬ SearchExact plainJson asciiUnicode sampleScoring sampleOrder
        (.reached plainJson asciiUnicode ⟨1000, 0, false⟩ false sampleRewrite) "post" "body" "whale"
        10 := by
  have hreg : (Tracked.reached plainJson asciiUnicode ⟨1000, 0, false⟩ false
      sampleRewrite).store.local_.fulltextFields.Registered "post" "body" := by decide +kernel
  have hnone : listedIds asciiUnicode (Tracked.reached plainJson asciiUnicode ⟨1000, 0, false⟩ false
      sampleRewrite).store.local_.fulltextFields "post" "body" "whale" = [] := by decide +kernel
  have hlimit : (listedIds asciiUnicode (Tracked.reached plainJson asciiUnicode ⟨1000, 0, false⟩
      false sampleRewrite).store.local_.fulltextFields "post" "body" "whale").length ≤ 10 := by
    rw [hnone]
    decide
  refine ⟨hreg, ?_⟩
  rintro ⟨found, s', hsearch, -, hfound⟩
  -- No id is listed, so no node is read.
  obtain ⟨results, hlocal, -, hresults⟩ := localSearch_eq sampleScoring sampleOrder hreg hlimit
  have hempty : results = [] := by
    have hids : results.map Prod.fst = [] := by
      refine List.eq_nil_iff_forall_not_mem.mpr fun id hid => ?_
      rw [hresults, hnone] at hid
      exact absurd hid List.not_mem_nil
    exact List.map_eq_nil_iff.mp hids
  unfold TieredStorage.fulltextSearch at hsearch
  rw [hlocal, hempty] at hsearch
  obtain ⟨rfl, -⟩ := Prod.mk.inj (Option.some.inj hsearch)
  have hnode : ((Tracked.reached plainJson asciiUnicode ⟨1000, 0, false⟩ false
      sampleRewrite).nodes[(⟨1⟩ : NodeId)]?.map fun n =>
        (n.nodeType, n.properties["body"]?.map fun w => w.eq (.string "a blue whale"))) =
          some ("post", some true) := by decide +kernel
  obtain ⟨n, hn, heq⟩ := Option.map_eq_some_iff.mp hnode
  obtain ⟨htype, hbody⟩ := Prod.mk.inj heq
  obtain ⟨w, hw, heq⟩ := Option.map_eq_some_iff.mp hbody
  obtain rfl : w = .string "a blue whale" := by
    cases w with
    | string text => rw [eq_of_beq heq]
    | _ => cases heq
  exact absurd ((hfound n).mpr ⟨⟨⟨1⟩, hn⟩, htype, _, hw, "whale", by decide +kernel,
    by decide +kernel⟩) List.not_mem_nil

end AresaDb.Store
