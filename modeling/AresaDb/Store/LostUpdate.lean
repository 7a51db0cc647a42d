import AresaDb.Store.Concurrent
import AresaDb.Store.Tiering

/-! # Lost updates

Concurrent updates of one node merge their fields into the payload that each of them has resolved,
and write the whole of it back.  Nothing keeps two of them from resolving the same payload, and
then the fields of the first to write are gone (`update_lost`).  As long as every update that is
not the first to write does so over the very payload it has resolved (`WriteCurrent`), the stored
node carries the fields of all that have returned (`updates_kept`). -/

namespace AresaDb.Store

/-- The fields that an update sets. -/
def Value.fields : Value → List (String × Value)
  | .object o => o
  | _ => []

/-- The tables are written. -/
def UpdateStage.wrote : UpdateStage → Bool
  | reading _ => false
  | _ => true

def UpdateStage.returned : UpdateStage → Bool
  | finished _ _ => true
  | _ => false

/-- The call is an update that has written the tables. -/
def Call.wrote : Call → Bool
  | update _ _ stage => stage.wrote
  | _ => false

/-- The call is an update that has returned the node. -/
def Call.acknowledged : Call → Bool
  | update _ _ stage => stage.returned
  | _ => false

/-- The fields that a call sets. -/
def Call.fields : Call → List (String × Value)
  | update _ newProperties _ => newProperties.fields
  | _ => []

/-- Every field has its value, as it is read back after some number of writes. -/
def Carries (J : Serde) (p : Props) (fields : List (String × Value)) : Prop :=
  ∀ kv ∈ fields, ∃ n, p[kv.1]? = some (J.reread^[n] kv.2)

/-- The payload that an update is about to merge its fields into. -/
def Call.base : Call → Option Props
  | update _ _ (.reading (.resolved _ payload)) => some payload
  | _ => none

namespace Concurrent

/-- Update calls that are about to begin. -/
def updates (s : TieredStorage) (ups : List (Timestamp × Value)) : Concurrent :=
  ⟨s, ups.map fun up => .update up.1 up.2 (.reading .start)⟩

/-- The stored node, read past the cache, carries the fields of every acknowledged update. -/
def UpdatesKept (J : Serde) (id : NodeId) (m : Concurrent) : Prop :=
  ∀ c ∈ m.calls, c.acknowledged → ∃ n s',
    (m.store.cacheRemove id).getNode J id = some (some n, s') ∧ Carries J n.properties c.fields

/-- An update writes the tables before all others, or over the payload it has resolved. -/
def WriteCurrent (id : NodeId) (m : Concurrent) : Move → Prop
  | .loseCache => True
  | .call i => ∀ payload, m.calls[i]?.bind Call.base = some payload →
      (∃ c ∈ m.calls, c.wrote) → m.store.local_.nodePayloads[id]? = some payload

end Concurrent

/-! ### Merging -/

theorem mergeProps_eq (p : Props) (v : Value) :
    mergeProps p v = p.insertAll Prod.fst Prod.snd v.fields := by
  cases v <;> rfl

/-- A merge sets its own fields. -/
theorem carries_merge (J : Serde) (p : Props) {v : Value}
    (hnodup : (v.fields.map Prod.fst).Nodup) : Carries J (J.props (mergeProps p v)) v.fields := by
  intro kv hkv
  have hnames : ∀ x ∈ v.fields, ∀ y ∈ v.fields, x.1 = y.1 → x.2 = y.2 :=
    fun x hx y hy he => congrArg Prod.snd (List.inj_on_of_nodup_map hnodup hx hy he)
  refine ⟨1, ?_⟩
  rw [J.get_props, mergeProps_eq,
    OrdMap.get_insertAll_of_mem p Prod.fst Prod.snd v.fields hnames kv hkv]
  rfl

/-- A merge keeps the other fields. -/
theorem Carries.merge {J : Serde} {p : Props} {fields : List (String × Value)}
    (h : Carries J p fields) {v : Value}
    (hdisjoint : List.Disjoint (fields.map Prod.fst) (v.fields.map Prod.fst)) :
    Carries J (J.props (mergeProps p v)) fields := by
  intro kv hkv
  obtain ⟨n, hn⟩ := h kv hkv
  have hnot : ∀ x ∈ v.fields, x.1 ≠ kv.1 := by
    intro x hx he
    exact hdisjoint (List.mem_map_of_mem hkv) (he ▸ List.mem_map_of_mem hx)
  refine ⟨n + 1, ?_⟩
  rw [J.get_props, mergeProps_eq,
    OrdMap.get_insertAll_of_notMem p Prod.fst Prod.snd v.fields kv.1 hnot, hn, Option.map_some,
    Function.iterate_succ_apply']

/-! ### One step -/

section

variable {J : Serde} {id : NodeId} {s : TieredStorage}

/-- A read leaves the tables. -/
theorem ReadStage.step_local (stage : ReadStage) : (stage.step J id s).1.local_ = s.local_ := by
  cases stage with
  | start =>
      simp only [ReadStage.step]
      split <;> rfl
  | indexed index =>
      simp only [ReadStage.step]
      split <;> rfl
  | missed index =>
      simp only [ReadStage.step]
      split <;> rfl
  | _ => rfl

/-- The tables, after an update has written its merge over a payload. -/
def writtenTables (J : Serde) (id : NodeId) (l : LocalStorage) (now : Timestamp) (v : Value)
    (index : NodeIndex) (payload : Props) : LocalStorage :=
  l.writeNodeTiered J id (TieredStorage.updatedIndex J now index (mergeProps payload v))
    (J.props (mergeProps payload v))

/-- A step of an update writes the tables, or leaves them. -/
theorem UpdateStage.step_cases (now : Timestamp) (v : Value) (stage : UpdateStage) :
    (∃ index payload, stage = .reading (.resolved index payload) ∧
      parses (mergeProps payload v) = true ∧
      (stage.step J id s now v).1.local_ = writtenTables J id s.local_ now v index payload) ∨
      (stage.step J id s now v).1.local_ = s.local_ ∧
        (stage.step J id s now v).2.wrote = stage.wrote := by
  cases stage with
  | reading r =>
      cases r with
      | resolved index payload =>
          simp only [UpdateStage.step, LocalStorage.updateNodeTiered, J.parses_props]
          by_cases hparses : parses (mergeProps payload v) = true
          · rw [if_pos hparses]
            exact .inl ⟨index, payload, rfl, hparses, rfl⟩
          · rw [if_neg hparses]
            exact .inr ⟨rfl, rfl⟩
      | _ => exact .inr ⟨ReadStage.step_local _, rfl⟩
  | cached index properties =>
      right
      refine ⟨?_, rfl⟩
      simp only [UpdateStage.step, TieredStorage.pushThrough]
      split_ifs <;> rfl
  | _ => exact .inr ⟨rfl, rfl⟩

/-- The tables hold the fields of an update, with the payload local; it parses. -/
def Stored (J : Serde) (id : NodeId) (l : LocalStorage) (fields : List (String × Value)) : Prop :=
  ∃ index p, l.nodeIndexes[id]? = some index ∧ index.payloadLocation = .local ∧
    l.nodePayloads[id]? = some p ∧ parses p = true ∧ Carries J p fields

/-- The calls are the updates they were, and the tables hold the fields of those that have
written. -/
structure Held (J : Serde) (id : NodeId) (ups : List (Timestamp × Value)) (m : Concurrent) :
    Prop where
  calls : ∀ (i : ℕ) c, m.calls[i]? = some c →
    ∃ up stage, ups[i]? = some up ∧ c = .update up.1 up.2 stage
  stored : ∀ c ∈ m.calls, c.wrote → Stored J id m.store.local_ c.fields

variable {ups : List (Timestamp × Value)} {m : Concurrent}

theorem held_updates (s : TieredStorage) : Held J id ups (.updates s ups) where
  calls i c hc := by
    simp only [Concurrent.updates, List.getElem?_map, Option.map_eq_some_iff] at hc
    obtain ⟨up, hup, rfl⟩ := hc
    exact ⟨up, _, hup, rfl⟩
  stored c hc hwrote := by
    obtain ⟨up, _, rfl⟩ := List.mem_map.mp hc
    cases hwrote

/-- Two updates set no field both. -/
theorem disjoint_fields (h : (ups.flatMap fun up => up.2.fields.map Prod.fst).Nodup) {i j : ℕ}
    (hij : i ≠ j) {a b : Timestamp × Value} (ha : ups[i]? = some a) (hb : ups[j]? = some b) :
    List.Disjoint (a.2.fields.map Prod.fst) (b.2.fields.map Prod.fst) := by
  have hpairs := List.pairwise_iff_getElem.mp (List.nodup_flatMap.mp h).2
  obtain ⟨hi, rfl⟩ := List.getElem?_eq_some_iff.mp ha
  obtain ⟨hj, rfl⟩ := List.getElem?_eq_some_iff.mp hb
  obtain hlt | hlt := Nat.lt_or_gt_of_ne hij
  · exact hpairs i j hi hj hlt
  · exact (hpairs j i hj hi hlt).symm

/-- The calls of the list stay updates when one of them moves. -/
theorem Held.calls_step (h : Held J id ups m) {i : ℕ} {now : Timestamp} {v : Value}
    {stage : UpdateStage} (hc : m.calls[i]? = some (.update now v stage)) (j : ℕ) (c : Call)
    (hj : (m.step J id (.call i)).calls[j]? = some c) :
    ∃ up stage, ups[j]? = some up ∧ c = .update up.1 up.2 stage := by
  rw [Concurrent.getElem?_step_call hc] at hj
  split_ifs at hj with hij
  · subst hij
    obtain ⟨up, stage', hup, heq⟩ := h.calls i _ hc
    obtain ⟨rfl, rfl, _⟩ := Call.update.inj heq
    exact ⟨up, _, hup, (Option.some.inj hj).symm⟩
  · exact h.calls j c hj

theorem Held.step (h : Held J id ups m)
    (hdisjoint : (ups.flatMap fun up => up.2.fields.map Prod.fst).Nodup) {a : Move}
    (hsafe : m.WriteCurrent id a) : Held J id ups (m.step J id a) := by
  cases a with
  | loseCache => exact ⟨h.calls, h.stored⟩
  | call i =>
      cases hc : m.calls[i]? with
      | none =>
          rw [Concurrent.step_none hc]
          exact h
      | some c =>
          obtain ⟨⟨now, v⟩, stage, hup, rfl⟩ := h.calls i c hc
          refine ⟨h.calls_step hc, fun c hmem hwrote => ?_⟩
          obtain ⟨j, hj⟩ := List.mem_iff_getElem?.mp hmem
          rw [Concurrent.getElem?_step_call hc] at hj
          rw [Concurrent.step_call hc]
          obtain ⟨index, payload, rfl, hparses, hwritten⟩ | ⟨hlocal, hstage⟩ :=
            @UpdateStage.step_cases J id m.store now v stage
          · -- The call writes its merge over the payload that carries the fields of the others.
            rw [show ((Call.update now v (.reading (.resolved index payload))).step J id
              m.store).1.local_ = _ from hwritten]
            refine ⟨_, _, OrdMap.get_insert_self _ _ _, rfl, OrdMap.get_insert_self _ _ _,
              (J.parses_props _).trans hparses, ?_⟩
            split_ifs at hj with hij
            · obtain rfl := Option.some.inj hj
              exact carries_merge J payload
                ((List.nodup_flatMap.mp hdisjoint).1 _ (List.mem_of_getElem? hup))
            · have hother : c ∈ m.calls := List.mem_of_getElem? hj
              obtain ⟨_, p, _, _, hp, -, hcarries⟩ := h.stored c hother hwrote
              have hbase : m.calls[i]?.bind Call.base = some payload := by
                rw [hc]
                rfl
              have hcurrent := hsafe payload hbase ⟨c, hother, hwrote⟩
              obtain rfl : p = payload := Option.some.inj (hp.symm.trans hcurrent)
              obtain ⟨up, stage, hup', rfl⟩ := h.calls j c hj
              exact hcarries.merge (disjoint_fields hdisjoint (Ne.symm hij) hup' hup)
          · -- The tables stay, and no call is new among those that have written.
            have hkept : ∀ c ∈ m.calls, c.wrote → Stored J id
                ((Call.update now v stage).step J id m.store).1.local_ c.fields := by
              intro c hmem hwrote
              rw [show ((Call.update now v stage).step J id m.store).1.local_ = _ from hlocal]
              exact h.stored c hmem hwrote
            split_ifs at hj with hij
            · obtain rfl := Option.some.inj hj
              exact hkept (.update now v stage) (List.mem_of_getElem? hc)
                (hstage.symm.trans hwrote)
            · exact hkept c (List.mem_of_getElem? hj) hwrote

/-- Past the cache, a read finds the local payload. -/
theorem Stored.getNode {fields : List (String × Value)} (h : Stored J id s.local_ fields) :
    ∃ n s', (s.cacheRemove id).getNode J id = some (some n, s') ∧
        Carries J n.properties fields := by
  obtain ⟨index, p, hindex, hlocal, hp, hparses, hcarries⟩ := h
  have hcopies := (s.changes_cacheRemove id).at_id
  have hrecord : ((s.cacheRemove id).copies id).getNodeIndex J = some (some index) := by
    unfold Copies.getNodeIndex
    rw [show ((s.cacheRemove id).copies id).index = some index from hindex]
  have hread : ((s.cacheRemove id).copies id).find J index = some p := by
    unfold Copies.find Copies.getPayload
    rw [hcopies, hlocal]
    simp only [show (s.copies id).payload = some p from hp]
  obtain ⟨s', hs'⟩ := getNode_of_copies hrecord hread
  exact ⟨_, s', hs'.trans (if_pos hparses), hcarries⟩

end

/-! ### The result -/

/-- When updates write over the payload that they have resolved, the stored node carries the fields
of all that have returned, in every interleaving. -/
theorem updates_kept (J : Serde) (id : NodeId) (s : TieredStorage) (ups : List (Timestamp × Value))
    (hdisjoint : (ups.flatMap fun up => up.2.fields.map Prod.fst).Nodup) (moves : List Move)
    (hsafe : Run.Along (Concurrent.step J id) (Concurrent.WriteCurrent id) (.updates s ups) moves) :
    (Run.run (Concurrent.step J id) (.updates s ups) moves).UpdatesKept J id := by
  have hheld : Held J id ups (Run.run (Concurrent.step J id) (.updates s ups) moves) :=
    hsafe.invariant (fun _ _ h hs => h.step hdisjoint hs) (held_updates s)
  intro c hmem hreturned
  have hwrote : c.wrote := by
    cases c with
    | update now v stage =>
        cases stage with
        | finished index properties => rfl
        | _ => cases hreturned
    | _ => cases hreturned
  exact (hheld.stored c hmem hwrote).getNode

/-- One node, for two updates of one field each. -/
def sampleShared : TieredStorage :=
  (TieredStorage.new ⟨1000, 0, false⟩ false).insertNode plainJson asciiUnicode
    ⟨⟨1⟩, "user", (∅ : Props).insert "age" (.int 30), 0, 0⟩

def sampleUpdates : List (Timestamp × Value) :=
  [(1, .object [("city", .string "Rome")]), (2, .object [("role", .string "admin")])]

/-- Only a write of the tables is held to the condition. -/
theorem writeCurrent_of_none {id : NodeId} {m : Concurrent} {i : ℕ}
    (h : m.calls[i]?.bind Call.base = none) : m.WriteCurrent id (.call i) := by
  intro payload hp
  rw [h] at hp
  cases hp

/-- The second update begins when the first has returned. -/
theorem updates_kept_in_turn :
    (sampleUpdates.flatMap fun up => up.2.fields.map Prod.fst).Nodup ∧
      (Run.run (Concurrent.step plainJson ⟨1⟩) (.updates sampleShared sampleUpdates)
        (.replicate 7 (.call 0) ++ .replicate 7 (.call 1))).UpdatesKept plainJson ⟨1⟩ := by
  have hdisjoint : (sampleUpdates.flatMap fun up => up.2.fields.map Prod.fst).Nodup := by decide
  refine ⟨hdisjoint, updates_kept plainJson ⟨1⟩ sampleShared sampleUpdates hdisjoint _ ?_⟩
  have hnone := @writeCurrent_of_none ⟨1⟩
  refine ⟨hnone rfl, hnone rfl, ?first, hnone rfl, hnone rfl, hnone rfl, hnone rfl,
    hnone rfl, hnone rfl, ?second, hnone rfl, hnone rfl, hnone rfl, hnone rfl, trivial⟩
  case first =>
    intro payload _ hwrote
    exact absurd hwrote (by decide +kernel)
  case second =>
    intro payload hp _
    exact Eq.trans rfl hp

/-- Both updates resolve the payload before either of them writes. -/
def sampleOverlap : Concurrent :=
  Run.run (Concurrent.step plainJson ⟨1⟩) (.updates sampleShared sampleUpdates)
    [.call 0, .call 0, .call 1, .call 1, .call 0, .call 0, .call 0, .call 1, .call 1, .call 1]

/-- Both have returned, and the field of the first is lost. -/
theorem update_lost :
    sampleOverlap.calls.all Call.acknowledged ∧ ¬ sampleOverlap.UpdatesKept plainJson ⟨1⟩ := by
  refine ⟨by decide +kernel, fun h => ?_⟩
  obtain ⟨n, s', hread, hcarries⟩ := h _ (List.mem_of_getElem? (i := 0) rfl) rfl
  obtain ⟨k, hk⟩ := hcarries ("city", .string "Rome") (List.mem_singleton_self _)
  have hcity := congrArg (Option.map fun r => r.1.bind fun n => n.properties["city"]?) hread
  simp only [Option.map_some, Option.bind_some, hk] at hcity
  have hfound := congrArg (Option.map Option.isSome) hcity
  simp only [Option.map_some, Option.isSome_some] at hfound
  exact absurd hfound (by decide +kernel)

end AresaDb.Store
