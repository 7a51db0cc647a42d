import AresaDb.Store.Bucket

/-! # Synchronisation with a bucket

`BucketStorage::sync_with_local` (`storage/bucket.rs`): what is newer, or only on one side, is
copied to the other.  A copy is stamped when it is made, so it is newer than what it was made from,
and the next run copies it back.

So a second run has nothing to do just when the first one had nothing to do either; one that only
reads the bucket settles when it may (`bucket_sync_settles_iff`). -/

namespace AresaDb.Store

open Segments OrdMap

/-- `SyncStats` -/
structure SyncStats where
  uploaded : ℕ
  downloaded : ℕ
deriving DecidableEq

/-- Newer than on the other side, or not there at all. -/
def shouldCopy (others : OrdMap Path ℤ) (e : Path × ℤ) : Bool :=
  match others[e.1]? with
  | some time => decide (time < e.2)
  | none => true

/-- The paths to copy, as a hash map gives them out. -/
def newer (O : Enumeration) (files others : OrdMap Path ℤ) : List Path :=
  ((O.order files.toList).filter fun e => shouldCopy others e).map Prod.fst

/-- The times of the local files. -/
def localFiles (O : Enumeration) (disk : OrdMap Path File) : OrdMap Path ℤ :=
  OrdMap.insertAll ∅ Prod.fst (fun e => e.2.modified) (walk O disk)

namespace BucketStorage

/-- The times of the objects. -/
def remoteFiles (P : PathPart) (O : Enumeration) (b : BucketStorage) (objects : OrdMap Path File) :
    OrdMap Path ℤ :=
  OrdMap.insertAll ∅ (fun e => b.relative e.1) (fun e => e.2.modified) (b.listed P O objects)

def uploads (P : PathPart) (O : Enumeration) (b : BucketStorage) (w : World) : List Path :=
  if b.readonly then [] else newer O (localFiles O w.disk) (b.remoteFiles P O w.objects)

def downloads (P : PathPart) (O : Enumeration) (b : BucketStorage) (w : World) : List Path :=
  newer O (b.remoteFiles P O w.objects) (localFiles O w.disk)

/-- `sync_with_local` -/
def sync (P : PathPart) (O : Enumeration) (b : BucketStorage) (w : World) :
    Option (World × SyncStats) := do
  let w₁ ← (b.uploads P O w).foldlM (fun w path => w.send (b.target P path) path) w
  let w₂ ← (b.downloads P O w).foldlM (fun w path => w.fetch (b.target P path) path) w₁
  return (w₂, ⟨(b.uploads P O w).length, (b.downloads P O w).length⟩)

/-! ### What is asked for -/

/-- Every file under `.aresadb` has the content of its object. -/
def SameContent (P : PathPart) (b : BucketStorage) (w : World) : Prop :=
  ∀ path : Path, below ".aresadb".toList path = true →
    (w.disk[path]?).map File.content = (w.objects[b.target P path]?).map File.content

/-- Two runs go through, and the second has nothing to do. -/
def Settles (P : PathPart) (O₁ O₂ : Enumeration) (b : BucketStorage) (w : World) : Prop :=
  ∃ w₁ stats w₂, b.sync P O₁ w = some (w₁, stats) ∧ b.sync P O₂ w₁ = some (w₂, ⟨0, 0⟩) ∧
    b.SameContent P w₂

/-- The objects are all under `.aresadb`, those to download can be read, and the other files have
their content already. -/
def Readable (P : PathPart) (O : Enumeration) (b : BucketStorage) (w : World) : Prop :=
  (∀ path : Path, ((b.remoteFiles P O w.objects)[path]?).isSome →
    below ".aresadb".toList path = true) ∧
  (∀ path ∈ b.downloads P O w, (w.objects[b.target P path]?).isSome) ∧
  ∀ path : Path, below ".aresadb".toList path = true → path ∉ b.downloads P O w →
    (w.disk[path]?).map File.content = (w.objects[b.target P path]?).map File.content

end BucketStorage

/-- Objects have names without empty segments, and everything was written in the past. -/
structure World.WellFormed (w : World) : Prop where
  names : ∀ (name : Path) (o : File), w.objects[name]? = some o → ∀ a ∈ name.splitOn '/', a ≠ []
  diskPast : ∀ (path : Path) (f : File), w.disk[path]? = some f → f.modified < w.clock
  objectsPast : ∀ (name : Path) (o : File), w.objects[name]? = some o → o.modified < w.clock

/-! ### The listings -/

variable {P : PathPart} {O O₁ O₂ : Enumeration} {b : BucketStorage} {w : World} {path : Path}

theorem mem_newer {files others : OrdMap Path ℤ} : path ∈ newer O files others ↔
    ∃ time, files[path]? = some time ∧ ∀ other, others[path]? = some other → other < time := by
  unfold newer
  simp only [List.mem_map, List.mem_filter, O.mem_order]
  constructor
  · rintro ⟨e, ⟨he, hcopy⟩, rfl⟩
    rw [← Prod.mk.eta (p := e), mem_toList] at he
    refine ⟨e.2, he, fun other hother => ?_⟩
    rw [shouldCopy, hother] at hcopy
    exact of_decide_eq_true hcopy
  · rintro ⟨time, htime, hcopy⟩
    refine ⟨(path, time), ⟨(mem_toList _ _ _).mpr htime, ?_⟩, rfl⟩
    unfold shouldCopy
    cases hother : others[path]? with
    | none => rfl
    | some other => exact decide_eq_true (hcopy other hother)

theorem newer_eq_nil_iff {files others : OrdMap Path ℤ} : newer O files others = [] ↔
    ∀ (path : Path) (time : ℤ), files[path]? = some time →
      ∃ other, others[path]? = some other ∧ time ≤ other := by
  rw [List.eq_nil_iff_forall_not_mem]
  refine forall_congr' fun path => ?_
  rw [mem_newer]
  push Not
  exact forall₂_congr fun time _ => by simp [and_comm]

theorem get_localFiles (O : Enumeration) (disk : OrdMap Path File) (path : Path) (time : ℤ) :
    (localFiles O disk)[path]? = some time ↔
      below ".aresadb".toList path = true ∧ ∃ f, disk[path]? = some f ∧ f.modified = time := by
  rw [localFiles, get_insertAll_iff]
  · constructor
    · rintro ⟨e, he, rfl, rfl⟩
      obtain ⟨hf, hbelow⟩ := (mem_walk _ _).mp he
      exact ⟨hbelow, e.2, hf, rfl⟩
    · rintro ⟨hbelow, f, hf, rfl⟩
      exact ⟨(path, f), (mem_walk _ _).mpr ⟨hf, hbelow⟩, rfl, rfl⟩
  · intro e he e' he' heq
    have hf := ((mem_walk _ _).mp he).1
    rw [heq, ((mem_walk _ _).mp he').1] at hf
    rw [Option.some.inj hf]

namespace BucketStorage

/-- Objects below the path of the URL have paths of their own. -/
theorem relative_injective (hw : w.WellFormed) {e e' : Path × File}
    (he : e ∈ b.listed P O w.objects) (he' : e' ∈ b.listed P O w.objects)
    (heq : b.relative e.1 = b.relative e'.1) : e.1 = e'.1 := by
  rw [mem_listed] at he he'
  unfold relative at heq
  by_cases hbase : b.basePath = []
  · rwa [if_pos hbase, if_pos hbase] at heq
  · rw [if_neg hbase, if_neg hbase] at heq
    have hfront := fun (e : Path × File) (h : w.objects[e.1]? = some e.2)
      (hbelow : below (objectPath P b.basePath) e.1 = true) =>
        front_iff hbase (hw.names e.1 e.2 h) hbelow
    have h₁ := hfront e he.1 (he.2.resolve_left hbase)
    have h₂ := hfront e' he'.1 (he'.2.resolve_left hbase)
    by_cases hgood : objectPath P b.basePath = b.basePath
    · obtain ⟨r, hr⟩ := h₁.mpr hgood
      obtain ⟨r', hr'⟩ := h₂.mpr hgood
      rw [← hr, ← hr', strip_append, strip_append] at heq
      rw [← hr, ← hr']
      exact congrArg _ heq
    · rw [strip, if_neg fun h => hgood (h₁.mp h), strip, if_neg fun h => hgood (h₂.mp h)] at heq
      exact heq

theorem get_remoteFiles (hw : w.WellFormed) (O : Enumeration) (path : Path) (time : ℤ) :
    (b.remoteFiles P O w.objects)[path]? = some time ↔
      ∃ e ∈ b.listed P O w.objects, b.relative e.1 = path ∧ e.2.modified = time := by
  rw [remoteFiles, get_insertAll_iff]
  intro e he e' he' heq
  have hname := relative_injective hw he he' heq
  rw [mem_listed] at he he'
  rw [hname, he'.1] at he
  rw [Option.some.inj he.1]

/-- A run is two rounds of copying. -/
theorem sync_eq (P : PathPart) (O : Enumeration) (b : BucketStorage) (w : World) : b.sync P O w =
    (copyAll w.disk ((b.uploads P O w).map fun path => (path, b.target P path))
        (w.objects, w.clock)).bind fun s =>
      (copyAll s.1 ((b.downloads P O w).map fun path => (b.target P path, path))
        (w.disk, s.2)).map fun s' =>
          (⟨s'.1, s.1, s'.2⟩, ⟨(b.uploads P O w).length, (b.downloads P O w).length⟩) := by
  have hsend : (b.uploads P O w).foldlM (fun w path => w.send (b.target P path) path) w = _ :=
    World.foldlM_send (b.target P) (fun path => path) (b.uploads P O w) w
  have hfetch : ∀ w₁ : World,
      (b.downloads P O w).foldlM (fun w path => w.fetch (b.target P path) path) w₁ = _ :=
    World.foldlM_fetch (b.target P) (fun path => path) (b.downloads P O w)
  unfold sync
  simp only [hsend, hfetch]
  cases copyAll w.disk ((b.uploads P O w).map fun path => (path, b.target P path))
      (w.objects, w.clock) with
  | none => rfl
  | some s =>
      simp only [Option.map_some, Option.bind_eq_bind, Option.bind_some]
      cases copyAll s.1 ((b.downloads P O w).map fun path => (b.target P path, path))
        (w.disk, s.2) <;> rfl

/-- What a run does: the uploads, then the downloads of what is in the bucket after them. -/
theorem sync_spec {w' : World} {stats : SyncStats} (h : b.sync P O w = some (w', stats)) :
    stats = ⟨(b.uploads P O w).length, (b.downloads P O w).length⟩ ∧
      ∃ mid, w.clock ≤ mid ∧
        Copied w.disk ((b.uploads P O w).map fun path => (path, b.target P path)) w.objects
          w'.objects w.clock mid ∧
        Copied w'.objects ((b.downloads P O w).map fun path => (b.target P path, path))
          w.disk w'.disk mid w'.clock := by
  rw [sync_eq, Option.bind_eq_some_iff] at h
  obtain ⟨s, hs, h⟩ := h
  obtain ⟨s', hs', h⟩ := Option.map_eq_some_iff.mp h
  obtain ⟨rfl, rfl⟩ := Prod.mk.inj h
  obtain ⟨hle, hcopied⟩ := copyAll_spec hs
  exact ⟨rfl, s.2, hle, hcopied, (copyAll_spec hs').2⟩

/-- A run without anything to do. -/
theorem sync_idle (hup : b.uploads P O w = []) (hdown : b.downloads P O w = []) :
    b.sync P O w = some (w, ⟨0, 0⟩) := by
  rw [sync, hup, hdown]
  rfl

theorem idle_of_sync {w' : World} (h : b.sync P O w = some (w', ⟨0, 0⟩)) :
    b.uploads P O w = [] ∧ b.downloads P O w = [] ∧ w' = w := by
  obtain ⟨hstats, -⟩ := sync_spec h
  have hup := List.length_eq_zero_iff.mp (congrArg SyncStats.uploaded hstats).symm
  have hdown := List.length_eq_zero_iff.mp (congrArg SyncStats.downloaded hstats).symm
  rw [sync_idle hup hdown] at h
  exact ⟨hup, hdown, (congrArg Prod.fst (Option.some.inj h)).symm⟩

theorem remote_of_get {objects : OrdMap Path File} {time : ℤ}
    (h : (b.remoteFiles P O objects)[path]? = some time) :
    ∃ e ∈ b.listed P O objects, b.relative e.1 = path ∧ e.2.modified = time :=
  exists_of_get_insertAll h

theorem isSome_remote {objects : OrdMap Path File} {e : Path × File}
    (he : e ∈ b.listed P O objects) : ((b.remoteFiles P O objects)[b.relative e.1]?).isSome :=
  isSome_get_insertAll ∅ (fun e : Path × File => b.relative e.1) (fun e => e.2.modified) he

/-! ### Two runs -/

/-- What is the same on both sides, and nothing else. -/
theorem newer_eq_nil_iff_eq (hreadonly : b.readonly = false) :
    b.uploads P O w = [] ∧ b.downloads P O w = [] ↔
      localFiles O w.disk = b.remoteFiles P O w.objects := by
  rw [uploads, hreadonly, downloads, if_neg Bool.false_ne_true, newer_eq_nil_iff, newer_eq_nil_iff]
  constructor
  · rintro ⟨hup, hdown⟩
    refine OrdMap.ext fun path => Option.ext fun time => ⟨fun h => ?_, fun h => ?_⟩
    · obtain ⟨other, hother, hle⟩ := hup path time h
      obtain ⟨back, hback, hle'⟩ := hdown path other hother
      obtain rfl := Option.some.inj (h.symm.trans hback)
      rwa [le_antisymm hle hle']
    · obtain ⟨other, hother, hle⟩ := hdown path time h
      obtain ⟨back, hback, hle'⟩ := hup path other hother
      obtain rfl := Option.some.inj (h.symm.trans hback)
      rwa [le_antisymm hle hle']
  · intro h
    rw [h]
    exact ⟨fun path time ht => ⟨time, ht, le_rfl⟩, fun path time ht => ⟨time, ht, le_rfl⟩⟩

/-- Of the files of a run that has nothing to do no copy was made in the run before. -/
theorem idle_before (hw : w.WellFormed) (hreadonly : b.readonly = false) {w₁ : World}
    {stats : SyncStats} (h : b.sync P O₁ w = some (w₁, stats))
    (hsame : localFiles O₂ w₁.disk = b.remoteFiles P O₂ w₁.objects) :
    b.uploads P O₁ w = [] ∧ b.downloads P O₁ w = [] := by
  obtain ⟨-, mid, hmid, hup, hdown⟩ := sync_spec h
  have huploads : b.uploads P O₁ w =
      newer O₁ (localFiles O₁ w.disk) (b.remoteFiles P O₁ w.objects) := by
    rw [uploads, hreadonly, if_neg Bool.false_ne_true]
  -- An object that is as old as the first run was not touched by it, the others are from before the
  -- downloads.
  have hobject : ∀ (name : Path) (o : File), w₁.objects[name]? = some o →
      w.objects[name]? = some o ∧ o.modified < w.clock ∨
          w.clock ≤ o.modified ∧ o.modified < mid := by
    intro name o ho
    obtain ⟨heq, -⟩ | ⟨e, -, -, f, t, -, ht, hlo, hhi⟩ := hup name
    · rw [ho] at heq
      exact .inl ⟨heq.symm, hw.objectsPast name o heq.symm⟩
    · obtain rfl := Option.some.inj (ho.symm.trans ht)
      exact .inr ⟨hlo, hhi⟩
  constructor
  · refine List.eq_nil_iff_forall_not_mem.mpr fun path hpath => ?_
    rw [huploads, mem_newer] at hpath
    obtain ⟨time, htime, hnewer⟩ := hpath
    obtain ⟨hbelow, f, hf, rfl⟩ := (get_localFiles _ _ _ _).mp htime
    -- The file is not downloaded, so it keeps its time, and the object has that time too.
    have hdisk : w₁.disk[path]? = some f := by
      rw [hdown.unchanged fun e he heq => ?_, hf]
      obtain ⟨q, hq, rfl⟩ := List.mem_map.mp he
      obtain rfl : q = path := heq
      obtain ⟨other, hother, hlt⟩ := mem_newer.mp hq
      exact lt_asymm (hnewer other hother) (hlt _ htime)
    have hremote : (b.remoteFiles P O₂ w₁.objects)[path]? = some f.modified := by
      rw [← hsame, get_localFiles]
      exact ⟨hbelow, f, hdisk, rfl⟩
    obtain ⟨e, he, hrelative, hmodified⟩ := remote_of_get hremote
    have hpast := hw.diskPast path f hf
    obtain ⟨he₁, hlisted⟩ := (mem_listed _ _).mp he
    obtain ⟨hold, -⟩ | ⟨hlo, -⟩ := hobject e.1 e.2 he₁
    · refine lt_irrefl _ (hnewer f.modified ((get_remoteFiles hw O₁ path _).mpr ⟨e, ?_, hrelative,
        hmodified⟩))
      exact (mem_listed _ _).mpr ⟨hold, hlisted⟩
    · omega
  · refine List.eq_nil_iff_forall_not_mem.mpr fun path hpath => ?_
    obtain ⟨time, htime, -⟩ := mem_newer.mp hpath
    -- The object is still there, and the file that was made from it is newer than any object.
    obtain ⟨e, he, rfl, -⟩ := remote_of_get htime
    obtain ⟨hobj, hlisted⟩ := (mem_listed _ _).mp he
    obtain ⟨o, ho⟩ : ∃ o, w₁.objects[e.1]? = some o := by
      obtain ⟨heq, -⟩ | ⟨_, -, -, f, t, -, ht, -⟩ := hup e.1
      · exact ⟨e.2, heq.trans hobj⟩
      · exact ⟨_, ht⟩
    have he₁ : (e.1, o) ∈ b.listed P O₂ w₁.objects := (mem_listed _ _).mpr ⟨ho, hlisted⟩
    obtain ⟨time₁, htime₁⟩ := Option.isSome_iff_exists.mp (isSome_remote he₁)
    obtain ⟨e₂, he₂, -, rfl⟩ := remote_of_get htime₁
    rw [← hsame, get_localFiles] at htime₁
    obtain ⟨-, f, hf, hmodified⟩ := htime₁
    obtain ⟨-, hno⟩ | ⟨_, -, -, g, t, -, ht, hlo, -⟩ := hdown (b.relative e.1)
    · exact hno _ (List.mem_map_of_mem hpath) rfl
    · obtain rfl := Option.some.inj (hf.symm.trans ht)
      simp only at hmodified
      obtain ⟨-, hlt⟩ | ⟨-, hlt⟩ := hobject e₂.1 e₂.2 ((mem_listed _ _).mp he₂).1 <;> omega

/-- The order in which things are given out does not matter to the listings. -/
theorem localFiles_order (O O' : Enumeration) (disk : OrdMap Path File) :
    localFiles O disk = localFiles O' disk :=
  OrdMap.ext fun path => Option.ext fun time => by
    rw [get_localFiles, get_localFiles]

theorem remoteFiles_order (hw : w.WellFormed) (O O' : Enumeration) :
    b.remoteFiles P O w.objects = b.remoteFiles P O' w.objects :=
  OrdMap.ext fun path => Option.ext fun time => by
    rw [get_remoteFiles hw, get_remoteFiles hw]
    simp only [mem_listed]

theorem settles_iff_of_writable (hw : w.WellFormed) (hreadonly : b.readonly = false) :
    b.Settles P O₁ O₂ w ↔
      localFiles O₁ w.disk = b.remoteFiles P O₁ w.objects ∧ b.SameContent P w := by
  constructor
  · rintro ⟨w₁, stats, w₂, h₁, h₂, hcontent⟩
    obtain ⟨hup, hdown, rfl⟩ := idle_of_sync h₂
    obtain ⟨hup₁, hdown₁⟩ :=
      idle_before hw hreadonly h₁ ((newer_eq_nil_iff_eq hreadonly).mp ⟨hup, hdown⟩)
    rw [sync_idle hup₁ hdown₁] at h₁
    obtain rfl : w = w₂ := congrArg Prod.fst (Option.some.inj h₁)
    exact ⟨(newer_eq_nil_iff_eq hreadonly).mp ⟨hup₁, hdown₁⟩, hcontent⟩
  · rintro ⟨hsame, hcontent⟩
    obtain ⟨hup, hdown⟩ := (newer_eq_nil_iff_eq hreadonly).mpr hsame
    rw [localFiles_order O₁ O₂, remoteFiles_order hw O₁ O₂] at hsame
    obtain ⟨hup', hdown'⟩ := (newer_eq_nil_iff_eq hreadonly).mpr hsame
    exact ⟨w, _, w, sync_idle hup hdown, sync_idle hup' hdown', hcontent⟩

theorem uploads_readonly (hreadonly : b.readonly = true) : b.uploads P O w = [] := if_pos hreadonly

/-- A run that only reads the bucket. -/
theorem sync_readonly (hreadonly : b.readonly = true) {w₁ : World} {stats : SyncStats}
    (h : b.sync P O w = some (w₁, stats)) : w₁.objects = w.objects ∧ ∃ mid, w.clock ≤ mid ∧
      Copied w.objects ((b.downloads P O w).map fun path => (b.target P path, path)) w.disk w₁.disk
        mid w₁.clock := by
  obtain ⟨-, mid, hmid, hup, hdown⟩ := sync_spec h
  have hobjects : w₁.objects = w.objects := OrdMap.ext fun k => hup.unchanged fun e he => by
    rw [uploads_readonly hreadonly] at he
    exact (List.not_mem_nil he).elim
  rw [hobjects] at hdown
  exact ⟨hobjects, mid, hmid, hdown⟩

theorem sync_isSome_readonly (hreadonly : b.readonly = true) : (b.sync P O w).isSome ↔
    ∀ path ∈ b.downloads P O w, (w.objects[b.target P path]?).isSome := by
  have hnone : copyAll w.disk [] (w.objects, w.clock) = some (w.objects, w.clock) := rfl
  rw [sync_eq, uploads_readonly hreadonly, List.map_nil, hnone, Option.bind_some, Option.isSome_map,
    copyAll_isSome]
  simp

/-- What the first run left is what the second one finds. -/
theorem idle_after (hw : w.WellFormed) (hreadonly : b.readonly = true) {w₁ : World}
    {stats : SyncStats} (h : b.sync P O₁ w = some (w₁, stats)) : b.downloads P O₂ w₁ = [] ↔
      ∀ path : Path, ((b.remoteFiles P O₁ w.objects)[path]?).isSome →
        below ".aresadb".toList path = true := by
  obtain ⟨hobjects, mid, hmid, hdown⟩ := sync_readonly hreadonly h
  rw [downloads, newer_eq_nil_iff, hobjects, remoteFiles_order hw O₂ O₁]
  refine forall_congr' fun path => ?_
  constructor
  · intro hidle hsome
    obtain ⟨time, htime⟩ := Option.isSome_iff_exists.mp hsome
    obtain ⟨other, hother, -⟩ := hidle time htime
    exact ((get_localFiles _ _ _ _).mp hother).1
  · intro hall time htime
    have hbelow := hall (Option.isSome_iff_exists.mpr ⟨time, htime⟩)
    by_cases hmem : path ∈ b.downloads P O₁ w
    · -- It was downloaded after all objects were made.
      obtain ⟨-, hno⟩ | ⟨e, -, -, f, t, -, ht, hlo, -⟩ := hdown path
      · exact absurd rfl (hno _ (List.mem_map_of_mem hmem))
      · refine ⟨t, (get_localFiles _ _ _ _).mpr ⟨hbelow, _, ht, rfl⟩, ?_⟩
        obtain ⟨o, ho, -, rfl⟩ := remote_of_get htime
        have hpast := hw.objectsPast o.1 o.2 ((mem_listed _ _).mp ho).1
        omega
    · have hdisk : w₁.disk[path]? = w.disk[path]? := hdown.unchanged fun e he heq => by
        obtain ⟨q, hq, rfl⟩ := List.mem_map.mp he
        exact hmem (heq ▸ hq)
      rw [downloads, mem_newer] at hmem
      push Not at hmem
      obtain ⟨other, hother, hle⟩ := hmem time htime
      refine ⟨other, ?_, hle⟩
      rw [get_localFiles, hdisk, ← get_localFiles O₁]
      exact hother

theorem settles_iff_of_readonly (hw : w.WellFormed) (hreadonly : b.readonly = true) :
    b.Settles P O₁ O₂ w ↔ b.Readable P O₁ w := by
  have hcontent : ∀ {w₁ : World} {stats : SyncStats}, b.sync P O₁ w = some (w₁, stats) →
      (b.SameContent P w₁ ↔ ∀ path : Path, below ".aresadb".toList path = true →
        path ∉ b.downloads P O₁ w →
          (w.disk[path]?).map File.content = (w.objects[b.target P path]?).map File.content) := by
    intro w₁ stats h
    obtain ⟨hobjects, mid, -, hdown⟩ := sync_readonly hreadonly h
    rw [SameContent, hobjects]
    refine forall₂_congr fun path hbelow => ?_
    by_cases hmem : path ∈ b.downloads P O₁ w
    · obtain ⟨f, t, hf, ht⟩ := hdown.content (fun e he e' he' heq => by
        obtain ⟨q, -, rfl⟩ := List.mem_map.mp he
        obtain ⟨q', -, rfl⟩ := List.mem_map.mp he'
        exact congrArg (b.target P) heq) (List.mem_map_of_mem hmem)
      rw [hf, ht]
      exact iff_of_true rfl fun hno => absurd hmem hno
    · rw [hdown.unchanged fun e he heq => ?_]
      · exact ⟨fun heq _ => heq, fun heq => heq hmem⟩
      · obtain ⟨q, hq, rfl⟩ := List.mem_map.mp he
        exact hmem (heq ▸ hq)
  constructor
  · rintro ⟨w₁, stats, w₂, h₁, h₂, hsame⟩
    obtain ⟨-, hdown, rfl⟩ := idle_of_sync h₂
    exact ⟨(idle_after hw hreadonly h₁).mp hdown,
      (sync_isSome_readonly hreadonly).mp (Option.isSome_iff_exists.mpr ⟨_, h₁⟩),
      (hcontent h₁).mp hsame⟩
  · rintro ⟨hbelow, hthere, hrest⟩
    obtain ⟨⟨w₁, stats⟩, h₁⟩ := Option.isSome_iff_exists.mp
      ((sync_isSome_readonly hreadonly).mpr hthere)
    exact ⟨w₁, stats, w₁, h₁, sync_idle (uploads_readonly hreadonly)
      ((idle_after hw hreadonly h₁).mpr hbelow), (hcontent h₁).mpr hrest⟩

end BucketStorage

open BucketStorage

/-- A second run has nothing to do, and both sides have the same content, just when the first run
had nothing to do and they had; or, for a handle that only reads, when it can make them the same. -/
theorem bucket_sync_settles_iff (P : PathPart) (O₁ O₂ : Enumeration) (b : BucketStorage) (w : World)
    (hw : w.WellFormed) : b.Settles P O₁ O₂ w ↔
      if b.readonly then b.Readable P O₁ w
      else localFiles O₁ w.disk = b.remoteFiles P O₁ w.objects ∧ b.SameContent P w := by
  split_ifs with hreadonly
  · exact settles_iff_of_readonly hw hreadonly
  · exact settles_iff_of_writable hw (Bool.eq_false_iff.mpr hreadonly)

theorem oneFile_wellFormed : oneFile.WellFormed where
  names name o h := by
    rw [oneFile, get_empty] at h
    cases h
  diskPast path f h := by
    by_cases heq : someFile = path
    · subst heq
      rw [oneFile, get_insert_self] at h
      obtain rfl := Option.some.inj h
      decide
    · rw [oneFile, get_insert_of_ne _ _ heq, get_empty] at h
      cases h
  objectsPast name o h := by
    rw [oneFile, get_empty] at h
    cases h

theorem bucket_sync_settles_oneFile :
    Settles plainPart inOrder inOrder ⟨"s3://b".toList, false⟩ oneFile ↔
      if (⟨"s3://b".toList, false⟩ : BucketStorage).readonly then
        Readable plainPart inOrder ⟨"s3://b".toList, false⟩ oneFile
      else
        localFiles inOrder oneFile.disk =
            remoteFiles plainPart inOrder ⟨"s3://b".toList, false⟩ oneFile.objects ∧
          SameContent plainPart ⟨"s3://b".toList, false⟩ oneFile :=
  bucket_sync_settles_iff plainPart inOrder inOrder ⟨"s3://b".toList, false⟩ oneFile
    oneFile_wellFormed

/-- The file that is uploaded by the first run is downloaded by the second, and the other way round.
-/
theorem bucket_sync_back :
    ((sync plainPart inOrder ⟨"s3://b".toList, false⟩ oneFile).bind fun r =>
        sync plainPart inOrder ⟨"s3://b".toList, false⟩ r.1).map Prod.snd = some ⟨0, 1⟩ ∧
    ((sync plainPart inOrder ⟨"s3://b".toList, false⟩ ⟨∅, oneFile.disk, 1⟩).bind fun r =>
        sync plainPart inOrder ⟨"s3://b".toList, false⟩ r.1).map Prod.snd = some ⟨1, 0⟩ := by
  decide

end AresaDb.Store
