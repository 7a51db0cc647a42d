import AresaDb.Query.ShortestPath

/-! # Spellings of an id

Ids come in as text: a UUID in any case, with or without hyphens, alone or behind a type.  All reads
parse them first, and so does everything that goes on from an id; but the id that a path is to lead
to is compared as text with ids that are printed (`shortestPathLoop`).  Two spellings of it give the
same answer when both or none are the printed one, or when no path leads there anyway
(`sameAnswers_iff`). -/

namespace AresaDb.Query

open AresaDb.Store BreadthFirst

/-- A stored edge leads from an id to another. -/
def LeadsTo (s : TieredStorage) (a b : NodeId) : Prop :=
  ∃ e ∈ s.local_.edgeRows (s.local_.edgeFromIndex.get a), e.to_ = b

/-- No path of so many edges leads from what a text spells to an id. -/
def OutOfReach (T : UuidText) (s : TieredStorage) (other : String) (maxDepth : ℕ) (id : NodeId) :
    Prop :=
  ∀ source, NodeId.parse T other = some source → ¬ ∃ n ≤ maxDepth, Walk (LeadsTo s) n source id

/-- Every query answers alike for two spellings. -/
structure SameAnswers (F : JsonFormat) (T : UuidText) (s : TieredStorage) (a b other : String)
    (maxDepth : ℕ) (edgeType : Option String) (edgeTypes : Option (List String)) : Prop where
  getNode : (Database.getNode F s T a).map Prod.fst = (Database.getNode F s T b).map Prod.fst
  getEdgesFrom : Database.getEdgesFrom s T a edgeType = Database.getEdgesFrom s T b edgeType
  getEdgesTo : Database.getEdgesTo s T a edgeType = Database.getEdgesTo s T b edgeType
  traverse : (traverse F T s a maxDepth edgeTypes).map Prod.fst =
    (traverse F T s b maxDepth edgeTypes).map Prod.fst
  pathFrom : (shortestPath F T s a other maxDepth).map Prod.fst =
    (shortestPath F T s b other maxDepth).map Prod.fst
  pathTo : (shortestPath F T s other a maxDepth).map Prod.fst =
    (shortestPath F T s other b maxDepth).map Prod.fst

section

variable {F : JsonFormat} {T : UuidText} {J : Serde} {used : EdgeId → Prop}
  {nodes : OrdMap NodeId Node} {edges : OrdMap EdgeId Edge} {s : TieredStorage} {a b other : String}
  {id source : NodeId} {maxDepth : ℕ}

theorem getNode_congr (h : NodeId.parse T a = NodeId.parse T b) :
    Database.getNode F s T a = Database.getNode F s T b := by
  unfold Database.getNode
  rw [h]

theorem getEdgesFrom_congr (h : NodeId.parse T a = NodeId.parse T b) (edgeType : Option String) :
    Database.getEdgesFrom s T a edgeType = Database.getEdgesFrom s T b edgeType := by
  unfold Database.getEdgesFrom
  rw [h]

theorem getEdgesTo_congr (h : NodeId.parse T a = NodeId.parse T b) (edgeType : Option String) :
    Database.getEdgesTo s T a edgeType = Database.getEdgesTo s T b edgeType := by
  unfold Database.getEdgesTo
  rw [h]

theorem traverse_congr (h : NodeId.parse T a = NodeId.parse T b) (maxDepth : ℕ)
    (edgeTypes : Option (List String)) :
    traverse F T s a maxDepth edgeTypes = traverse F T s b maxDepth edgeTypes := by
  unfold traverse
  rw [h, getNode_congr h]

/-! ### Where a path begins -/

/-- Texts that spell the same ids. -/
def Alike (T : UuidText) : List String → List String → Prop :=
  List.Forall₂ fun a b => NodeId.parse T a = NodeId.parse T b

theorem Alike.refl (texts : List String) : Alike T texts texts := List.forall₂_refl texts

theorem readPath_congr {texts texts' : List String} (h : Alike T texts texts') (s : TieredStorage) :
    readPath F T s texts = readPath F T s texts' := by
  induction h generalizing s with
  | nil => rfl
  | cons hhead _ ih =>
      unfold readPath
      simp only [getNode_congr hhead, ih]

/-- Entries for the same id, with texts that spell the same way to it. -/
def AlikeEntries (T : UuidText) (e e' : NodeId × List String) : Prop :=
  e.1 = e'.1 ∧ Alike T e.2 e'.2

theorem shortestPathLoop_congr {queue queue' : List (NodeId × List String)}
    (h : List.Forall₂ (AlikeEntries T) queue queue') (toStr : String) (maxDepth fuel : ℕ)
    (s : TieredStorage) (visited : List String) :
    shortestPathLoop F T toStr maxDepth fuel s queue visited =
      shortestPathLoop F T toStr maxDepth fuel s queue' visited := by
  induction fuel generalizing queue queue' visited with
  | zero => rfl
  | succ fuel ih =>
      cases h with
      | nil => rfl
      | @cons e e' rest rest' hhead hrest =>
          obtain ⟨current, texts⟩ := e
          obtain ⟨current', texts'⟩ := e'
          obtain ⟨hid, htexts⟩ := hhead
          dsimp only at hid htexts
          subst hid
          unfold shortestPathLoop
          rw [readPath_congr htexts s, htexts.length_eq, ih hrest]
          refine if_congr Iff.rfl rfl (if_congr Iff.rfl rfl (Option.bind_congr fun es _ => ?_))
          refine ih (List.rel_append hrest ?_) _
          refine List.forall₂_map_left_iff.mpr (List.forall₂_map_right_iff.mpr ?_)
          refine List.forall₂_same.mpr fun edge _ => ⟨rfl, ?_⟩
          exact List.rel_append htexts (Alike.refl [edge.to_.display])

theorem shortestPath_congr (h : NodeId.parse T a = NodeId.parse T b) (toId : String)
    (maxDepth : ℕ) :
    shortestPath F T s a toId maxDepth = shortestPath F T s b toId maxDepth := by
  unfold shortestPath
  rw [h]
  have hqueue : ∀ source, List.Forall₂ (AlikeEntries T) [(source, [a])] [(source, [b])] :=
    fun source => .cons ⟨rfl, .cons h .nil⟩ .nil
  exact Option.bind_congr fun source _ => shortestPathLoop_congr (hqueue source) toId
    maxDepth _ s []

/-! ### Where a path leads -/

theorem getEdgesFrom_eq_some {es : List Edge}
    (hes : Database.getEdgesFrom s T id.display none = some es) :
    es = s.local_.edgeRows (s.local_.edgeFromIndex.get id) := by
  unfold Database.getEdgesFrom at hes
  rw [NodeId.parse_display, Option.bind_eq_bind, Option.bind_some] at hes
  obtain ⟨rows, hrows, rfl⟩ := Option.map_eq_some_iff.mp hes
  rw [(readRows_eq_some hrows).2]
  exact List.filter_eq_self.mpr fun _ _ => rfl

/-- Texts that are both or neither printed for any id that can be reached are no different targets.
-/
theorem shortestPathLoop_target (source : NodeId) (hsame : ∀ (n : ℕ) (c : NodeId), n ≤ maxDepth →
      Walk (LeadsTo s) n source c → (c.display = a ↔ c.display = b))
    {queue : List (NodeId × List String)} (hqueue : ∀ e ∈ queue, ∃ n ≤ maxDepth,
      e.2.length = n + 1 ∧ Walk (LeadsTo s) n source e.1) (fuel : ℕ) (visited : List String) :
    shortestPathLoop F T a maxDepth fuel s queue visited =
      shortestPathLoop F T b maxDepth fuel s queue visited := by
  induction fuel generalizing queue visited with
  | zero => rfl
  | succ fuel ih =>
      cases queue with
      | nil => rfl
      | cons e rest =>
          obtain ⟨current, texts⟩ := e
          obtain ⟨n, hn, hlength, hwalk⟩ := hqueue _ List.mem_cons_self
          have hrest := fun e he => hqueue e (List.mem_cons_of_mem _ he)
          dsimp only at hlength hwalk
          unfold shortestPathLoop
          rw [ih hrest]
          refine if_congr (hsame n current hn hwalk) rfl ?_
          split_ifs with hpass
          · rfl
          · refine Option.bind_congr fun es hes => ih ?_ _
            rw [getEdgesFrom_eq_some hes]
            intro e he
            obtain he | he := List.mem_append.mp he
            · exact hrest e he
            · obtain ⟨edge, hedge, rfl⟩ := List.mem_map.mp he
              have hleads : LeadsTo s current edge.to_ := ⟨edge, List.mem_of_mem_filter hedge, rfl⟩
              refine ⟨n + 1, by omega, ?_, .snoc hwalk hleads⟩
              rw [List.length_append, List.length_singleton, hlength]

/-- What is found was printed for an id. -/
theorem shortestPathLoop_found {toStr : String} {fuel : ℕ} {queue : List (NodeId × List String)}
    {visited : List String} {found : List Node} {s' : TieredStorage}
    (h : shortestPathLoop F T toStr maxDepth fuel s queue visited = some (some found, s')) :
    ∃ c : NodeId, c.display = toStr := by
  induction fuel generalizing queue visited with
  | zero => cases h
  | succ fuel ih =>
      cases queue with
      | nil => cases h
      | cons e rest =>
          obtain ⟨current, texts⟩ := e
          unfold shortestPathLoop at h
          dsimp only at h
          split_ifs at h with htarget hpass
          · exact ⟨current, htarget⟩
          · exact ih h
          · obtain ⟨es, -, hloop⟩ := Option.bind_eq_some_iff.mp h
            exact ih hloop

/-- Only the printed text of an id is one of an id. -/
theorem display_eq_iff (ha : NodeId.parse T a = some id) (c : NodeId) :
    c.display = a ↔ c = id ∧ a = id.display := by
  constructor
  · rintro rfl
    rw [NodeId.parse_display] at ha
    obtain rfl := Option.some.inj ha
    exact ⟨rfl, rfl⟩
  · rintro ⟨rfl, rfl⟩
    rfl

theorem shortestPath_target (ha : NodeId.parse T a = some id) (hb : NodeId.parse T b = some id)
    (h : (a = id.display ↔ b = id.display) ∨ OutOfReach T s other maxDepth id) :
    shortestPath F T s other a maxDepth = shortestPath F T s other b maxDepth := by
  unfold shortestPath
  refine Option.bind_congr fun source hsource => ?_
  refine shortestPathLoop_target source (fun n c hn hwalk => ?_) (fun e he => ?_) _ []
  · rw [display_eq_iff ha, display_eq_iff hb]
    obtain hprinted | hreach := h
    · rw [hprinted]
    · have hne : c ≠ id := by
        rintro rfl
        exact hreach source hsource ⟨n, hn, hwalk⟩
      exact iff_of_false (fun hc => hne hc.1) fun hc => hne hc.1
  · obtain rfl := List.mem_singleton.mp he
    exact ⟨0, Nat.zero_le _, rfl, .nil source⟩

theorem leadsTo_iff (h : KeepsGraph J used nodes edges s) {a b : NodeId} :
    LeadsTo s a b ↔ Joins edges none a b := by
  unfold LeadsTo
  rw [h.rows_from, joins_none]

/-- The printed text of an id leads to it, and no other spelling does. -/
theorem shortestPath_differs (h : KeepsGraph J used nodes edges s)
    (hb : NodeId.parse T b = some id) (hprinted : b ≠ id.display)
    (hreach : ¬ OutOfReach T s other maxDepth id) :
    (shortestPath F T s other id.display maxDepth).map Prod.fst ≠
      (shortestPath F T s other b maxDepth).map Prod.fst := by
  unfold OutOfReach at hreach
  push Not at hreach
  obtain ⟨source, hsource, n, hn, hwalk⟩ := hreach
  obtain ⟨path, hpath, hlength⟩ := (hwalk.mono fun _ _ => (leadsTo_iff h).mp).exists_path
  obtain ⟨answer, s', hanswer, -, hexact⟩ := shortestPath_exact h (F := F) hsource id maxDepth
  have hlength' : path.length ≤ maxDepth + 1 := by omega
  obtain ⟨found, rfl⟩ := Option.isSome_iff_exists.mp (hexact.isSome.mpr ⟨path, hpath, hlength'⟩)
  rw [hanswer]
  intro heq
  obtain ⟨⟨answer, s''⟩, hspelled, rfl⟩ := Option.map_eq_some_iff.mp heq.symm
  unfold shortestPath at hspelled
  obtain ⟨source', -, hloop⟩ := Option.bind_eq_some_iff.mp hspelled
  obtain ⟨c, hc⟩ := shortestPathLoop_found hloop
  exact hprinted ((display_eq_iff hb c).mp hc).2

/-- For two spellings of an id every query answers alike, if both or neither are the printed one or
no path leads to the id; and where the stored rows parse, only then. -/
theorem sameAnswers_iff (ha : NodeId.parse T a = some id) (hb : NodeId.parse T b = some id)
    (other : String) (maxDepth : ℕ) (edgeType : Option String) (edgeTypes : Option (List String)) :
    ((a = id.display ↔ b = id.display) ∨ OutOfReach T s other maxDepth id →
      SameAnswers F T s a b other maxDepth edgeType edgeTypes) ∧
    (KeepsGraph J used nodes edges s → SameAnswers F T s a b other maxDepth edgeType edgeTypes →
      (a = id.display ↔ b = id.display) ∨ OutOfReach T s other maxDepth id) := by
  have hab : NodeId.parse T a = NodeId.parse T b := ha.trans hb.symm
  constructor
  · intro hcond
    exact
      { getNode := congrArg _ (getNode_congr hab)
        getEdgesFrom := getEdgesFrom_congr hab edgeType
        getEdgesTo := getEdgesTo_congr hab edgeType
        traverse := congrArg _ (traverse_congr hab maxDepth edgeTypes)
        pathFrom := congrArg _ (shortestPath_congr hab other maxDepth)
        pathTo := congrArg _ (shortestPath_target ha hb hcond) }
  · intro h hsame
    by_contra hcond
    obtain ⟨hprinted, hreach⟩ := not_or.mp hcond
    by_cases hpa : a = id.display
    · have hpb : b ≠ id.display := fun hpb => hprinted (iff_of_true hpa hpb)
      have hdiffers := shortestPath_differs h (F := F) hb hpb hreach
      rw [← hpa] at hdiffers
      exact hdiffers hsame.pathTo
    · have hpb : b = id.display := by
        by_contra hpb
        exact hprinted (iff_of_false hpa hpb)
      have hdiffers := shortestPath_differs h (F := F) ha hpa hreach
      rw [← hpb] at hdiffers
      exact hdiffers hsame.pathTo.symm

/-- The id of the second user without its hyphens. -/
def sampleDigits : String := "00000000000000000000000000000002"

theorem sameAnswers_iff_sample :
    (NodeId.parse hexText (NodeId.display ⟨2⟩) = some ⟨2⟩ ∧
      NodeId.parse hexText sampleDigits = some ⟨2⟩) ∧
    ((NodeId.display ⟨2⟩ = NodeId.display ⟨2⟩ ↔ sampleDigits = NodeId.display ⟨2⟩) ∨
        OutOfReach hexText sampleNetwork (NodeId.display ⟨2⟩) 0 ⟨2⟩ →
      SameAnswers plainFormat hexText sampleNetwork (NodeId.display ⟨2⟩) sampleDigits
        (NodeId.display ⟨2⟩) 0 none none) ∧
    (KeepsGraph plainJson sampleUsed sampleUsers sampleEdges sampleNetwork →
      SameAnswers plainFormat hexText sampleNetwork (NodeId.display ⟨2⟩) sampleDigits
        (NodeId.display ⟨2⟩) 0 none none →
      (NodeId.display ⟨2⟩ = NodeId.display ⟨2⟩ ↔ sampleDigits = NodeId.display ⟨2⟩) ∨
        OutOfReach hexText sampleNetwork (NodeId.display ⟨2⟩) 0 ⟨2⟩) := by
  have hprinted := NodeId.parse_display hexText ⟨2⟩
  have hdigits : NodeId.parse hexText sampleDigits = some ⟨2⟩ := by decide +kernel
  exact ⟨⟨hprinted, hdigits⟩, sameAnswers_iff hprinted hdigits _ 0 none none⟩

/-- No path leads to an id whose hyphens are left out. -/
theorem digits_lead_nowhere :
    ¬ ∀ (F : JsonFormat) (T : UuidText) (s : TieredStorage) (a b other : String) (id : NodeId)
      (maxDepth : ℕ) (edgeType : Option String) (edgeTypes : Option (List String)),
      NodeId.parse T a = some id → NodeId.parse T b = some id →
        SameAnswers F T s a b other maxDepth edgeType edgeTypes := by
  intro h
  have hprinted := NodeId.parse_display hexText ⟨2⟩
  have hdigits : NodeId.parse hexText sampleDigits = some ⟨2⟩ := by decide +kernel
  have hne : sampleDigits ≠ NodeId.display ⟨2⟩ := by decide +kernel
  have hreach : ¬ OutOfReach hexText sampleNetwork (NodeId.display ⟨2⟩) 0 ⟨2⟩ :=
    fun hout => hout ⟨2⟩ hprinted ⟨0, le_rfl, .nil _⟩
  have hsame := h plainFormat hexText sampleNetwork (NodeId.display ⟨2⟩) sampleDigits
    (NodeId.display ⟨2⟩) ⟨2⟩ 0 none none hprinted hdigits
  exact shortestPath_differs keepsGraph_sampleNetwork hdigits hne hreach hsame.pathTo

end

end AresaDb.Query
