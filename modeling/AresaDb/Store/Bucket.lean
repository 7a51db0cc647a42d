import AresaDb.Lib.OrdMap
import AresaDb.Lib.Segments

/-! # Buckets

`BucketStorage` (`storage/bucket.rs`): the files under `.aresadb` are uploaded as objects below the
path of the URL, and downloaded or synchronised from there.  Object names drop the empty segments of
what they are made from, but the path is taken off again as the URL spells it, and where it is not
found nothing is taken off.

So what was uploaded is downloaded to the same places just when there was nothing, or the path of
the URL has no segments, or is spelled as object names are (`bucket_round_trip_iff`). -/

namespace AresaDb.Store

open Segments

/-- A path of a file, or the name of an object. -/
abbrev Path := List Char

instance : Std.TransCmp (@compare Path LinearOrder.toOrd) := inferInstance

/-- A file or an object. -/
structure File where
  content : List UInt8
  modified : ℤ
deriving DecidableEq

/-- The files of a local directory by their paths in it, the objects of a bucket by their names, and
a clock that goes on with every file or object written. -/
structure World where
  disk : OrdMap Path File
  objects : OrdMap Path File
  clock : ℤ

namespace World

/-- The object store keeps an object under a name. -/
def put (w : World) (name : Path) (content : List UInt8) : World :=
  { w with objects := w.objects.insert name ⟨content, w.clock⟩, clock := w.clock + 1 }

/-- A file is written. -/
def write (w : World) (path : Path) (content : List UInt8) : World :=
  { w with disk := w.disk.insert path ⟨content, w.clock⟩, clock := w.clock + 1 }

/-- A file is read and kept as an object. -/
def send (name : Path) (path : Path) (w : World) : Option World :=
  (w.disk[path]?).map fun f => w.put name f.content

/-- An object is read and written as a file. -/
def fetch (name : Path) (path : Path) (w : World) : Option World :=
  (w.objects[name]?).map fun o => w.write path o.content

end World

/-! ### Object names -/

def ordinaryChar (c : Char) : Bool := c.isAlphanum || c = '.' || c = '_' || c = '-'

/-- A segment of letters, digits, dots, underscores and dashes, no directory of its own or above. -/
def ordinary (s : List Char) : Bool :=
  s ≠ [] && s.all ordinaryChar && s ≠ ['.'] && s ≠ ['.', '.']

/-- The segments of object names, which the object store may encode. -/
structure PathPart where
  part : List Char → List Char
  part_ordinary : ∀ s, ordinary s = true → part s = s
  part_ne_nil : ∀ s, s ≠ [] → part s ≠ []
  part_no_delimiter : ∀ s, '/' ∉ s → '/' ∉ part s

/-- Nothing is encoded. -/
def plainPart : PathPart where
  part := id
  part_ordinary _ _ := rfl
  part_ne_nil _ h := h
  part_no_delimiter _ h := h

/-- `ObjectPath::from` -/
def objectPath (P : PathPart) (s : Path) : Path :=
  ['/'].intercalate ((segments '/' s).map P.part)

/-- The segments of the one go on below those of the other. -/
def below (s t : Path) : Bool :=
  segments '/' s <+: segments '/' t && segments '/' s ≠ segments '/' t

/-- The order in which the file system, the object store and hash maps give out what they hold. -/
structure Enumeration where
  order : {α : Type} → List α → List α
  perm : ∀ {α : Type} (l : List α), (order l).Perm l

theorem Enumeration.mem_order (O : Enumeration) {α : Type} (l : List α) (a : α) :
    a ∈ O.order l ↔ a ∈ l := (O.perm l).mem_iff

/-- `WalkDir` on `.aresadb` -/
def walk (O : Enumeration) (disk : OrdMap Path File) : List (Path × File) :=
  O.order (disk.toList.filter fun e => below ".aresadb".toList e.1)

/-- `ObjectStore::list` -/
def listObjects (O : Enumeration) (objects : OrdMap Path File) : Option Path → List (Path × File)
  | none => O.order objects.toList
  | some pre => O.order (objects.toList.filter fun e => below pre e.1)

/-! ### The storage -/

structure BucketStorage where
  url : List Char
  readonly : Bool
deriving DecidableEq

namespace BucketStorage

/-- The rest of a URL behind one of the schemes. -/
def afterScheme (url : List Char) : Option (List Char) :=
  (strip "s3://".toList url).or (strip "gs://".toList url)

/-- A handle, if the scheme is known. -/
def connect (url : List Char) : Option BucketStorage :=
  (afterScheme url).map fun _ => ⟨url, false⟩

/-- The path behind the name of the bucket. -/
def basePath (b : BucketStorage) : Path :=
  match afterScheme b.url with
  | some rest => (rest.dropWhile (· ≠ '/')).drop 1
  | none => []

/-- The name of the object for a path. -/
def target (P : PathPart) (b : BucketStorage) (path : Path) : Path :=
  if b.basePath = [] then objectPath P path else objectPath P (b.basePath ++ '/' :: path)

/-- The path for an object. -/
def relative (b : BucketStorage) (name : Path) : Path :=
  if b.basePath = [] then name else (strip (b.basePath ++ ['/']) name).getD name

/-- The objects below the path of the URL. -/
def listed (P : PathPart) (O : Enumeration) (b : BucketStorage) (objects : OrdMap Path File) :
    List (Path × File) :=
  listObjects O objects (if b.basePath = [] then none else some (objectPath P b.basePath))

/-- `upload_from_local` -/
def upload (P : PathPart) (O : Enumeration) (b : BucketStorage) (w : World) : Option World :=
  if b.readonly then none
  else (walk O w.disk).foldlM (fun w e => w.send (b.target P e.1) e.1) w

/-- `download_to_local` -/
def download (P : PathPart) (O : Enumeration) (b : BucketStorage) (w : World) : Option World :=
  (b.listed P O w.objects).foldlM (fun w e => w.fetch e.1 (b.relative e.1)) w

end BucketStorage

/-! ### Copying -/

/-- Entries are copied from places of the one map to places of the other, stamped one after the
other. -/
def copyAll (src : OrdMap Path File) (es : List (Path × Path)) (s : OrdMap Path File × ℤ) :
    Option (OrdMap Path File × ℤ) :=
  es.foldlM (fun s e => (src[e.1]?).map fun f => (s.1.insert e.2 ⟨f.content, s.2⟩, s.2 + 1)) s

/-- What is different after copying. -/
def Copied (src : OrdMap Path File) (es : List (Path × Path)) (dst dst' : OrdMap Path File)
    (lo hi : ℤ) : Prop :=
  ∀ k, dst'[k]? = dst[k]? ∧ (∀ e ∈ es, e.2 ≠ k) ∨
    ∃ e ∈ es, e.2 = k ∧ ∃ f t, src[e.1]? = some f ∧ dst'[k]? = some ⟨f.content, t⟩ ∧ lo ≤ t ∧ t < hi

theorem copyAll_cons (src : OrdMap Path File) (e : Path × Path) (es : List (Path × Path))
    (s : OrdMap Path File × ℤ) : copyAll src (e :: es) s =
      (src[e.1]?).bind fun f => copyAll src es (s.1.insert e.2 ⟨f.content, s.2⟩, s.2 + 1) := by
  rw [copyAll, List.foldlM_cons]
  cases src[e.1]? <;> rfl

theorem copyAll_isSome (src : OrdMap Path File) (es : List (Path × Path))
    (s : OrdMap Path File × ℤ) : (copyAll src es s).isSome ↔ ∀ e ∈ es, (src[e.1]?).isSome := by
  induction es generalizing s with
  | nil => simp [copyAll]
  | cons e es ih =>
      rw [List.forall_mem_cons, copyAll_cons]
      cases he : src[e.1]? with
      | none => simp
      | some f => simpa only [Option.bind_some, Option.isSome_some, true_and] using ih _

theorem copyAll_spec {src : OrdMap Path File} {es : List (Path × Path)}
    {s s' : OrdMap Path File × ℤ} (h : copyAll src es s = some s') :
    s.2 ≤ s'.2 ∧ Copied src es s.1 s'.1 s.2 s'.2 := by
  induction es generalizing s with
  | nil =>
      obtain rfl := Option.some.inj h
      exact ⟨le_rfl, fun k => .inl ⟨rfl, by simp⟩⟩
  | cons e es ih =>
      rw [copyAll_cons, Option.bind_eq_some_iff] at h
      obtain ⟨f, hf, h⟩ := h
      obtain ⟨hclock, hcopied⟩ := ih h
      simp only at hclock hcopied
      refine ⟨by omega, fun k => ?_⟩
      obtain ⟨hsame, hno⟩ | ⟨e', he', hk, g, t, hg, ht, hlo, hhi⟩ := hcopied k
      · by_cases hk : e.2 = k
        · subst hk
          rw [OrdMap.get_insert_self] at hsame
          exact .inr ⟨e, List.mem_cons_self, rfl, f, s.2, hf, hsame, le_rfl, by omega⟩
        · rw [OrdMap.get_insert_of_ne _ _ hk] at hsame
          exact .inl ⟨hsame, List.forall_mem_cons.mpr ⟨hk, hno⟩⟩
      · exact .inr ⟨e', List.mem_cons_of_mem _ he', hk, g, t, hg, ht, by omega, hhi⟩

namespace World

theorem foldlM_send {α : Type} (name path : α → Path) (es : List α) (w : World) :
    es.foldlM (fun w e => w.send (name e) (path e)) w =
      (copyAll w.disk (es.map fun e => (path e, name e)) (w.objects, w.clock)).map
        fun s => { w with objects := s.1, clock := s.2 } := by
  induction es generalizing w with
  | nil => rfl
  | cons e es ih =>
      rw [List.foldlM_cons, copyAll, List.map_cons, List.foldlM_cons, send]
      cases w.disk[path e]? with
      | none => rfl
      | some f => exact ih (w.put (name e) f.content)

theorem foldlM_fetch {α : Type} (name path : α → Path) (es : List α) (w : World) :
    es.foldlM (fun w e => w.fetch (name e) (path e)) w =
      (copyAll w.objects (es.map fun e => (name e, path e)) (w.disk, w.clock)).map
        fun s => { w with disk := s.1, clock := s.2 } := by
  induction es generalizing w with
  | nil => rfl
  | cons e es ih =>
      rw [List.foldlM_cons, copyAll, List.map_cons, List.foldlM_cons, fetch]
      cases w.objects[name e]? with
      | none => rfl
      | some f => exact ih (w.write (path e) f.content)

end World

/-! ### Names -/

variable {P : PathPart} {O : Enumeration} {b : BucketStorage} {path : Path}

/-- The parts of names are segments again. -/
theorem part_of_segments {s : Path} {l : List Char} (h : l ∈ (segments '/' s).map P.part) :
    '/' ∉ l ∧ l ≠ [] := by
  obtain ⟨a, ha, rfl⟩ := List.mem_map.mp h
  exact ⟨P.part_no_delimiter a (not_mem_of_mem_segments ha),
    P.part_ne_nil a (ne_nil_of_mem_segments ha)⟩

theorem segments_objectPath (P : PathPart) (s : Path) :
    segments '/' (objectPath P s) = (segments '/' s).map P.part :=
  segments_intercalate fun _ hl => part_of_segments hl

theorem objectPath_eq_nil_iff (P : PathPart) (s : Path) :
    objectPath P s = [] ↔ segments '/' s = [] := by
  constructor
  · intro h
    have hsegments := segments_objectPath P s
    rw [h] at hsegments
    exact List.map_eq_nil_iff.mp hsegments.symm
  · intro h
    rw [objectPath, h]
    rfl

/-- A path of ordinary segments. -/
def OrdinaryPath (path : Path) : Prop := ∀ a ∈ path.splitOn '/', ordinary a = true

theorem ordinary_ne_nil {a : List Char} (h : ordinary a = true) : a ≠ [] := by
  rintro rfl
  cases h

theorem OrdinaryPath.segments_eq (h : OrdinaryPath path) : segments '/' path = path.splitOn '/' :=
  segments_eq_splitOn fun a ha => ordinary_ne_nil (h a ha)

theorem OrdinaryPath.map_part (h : OrdinaryPath path) (P : PathPart) :
    (segments '/' path).map P.part = path.splitOn '/' := by
  rw [h.segments_eq]
  exact (List.map_congr_left fun a ha => P.part_ordinary a (h a ha)).trans (List.map_id _)

namespace BucketStorage

theorem segments_target (P : PathPart) (b : BucketStorage) (path : Path) :
    segments '/' (b.target P path) =
      (segments '/' b.basePath).map P.part ++ (segments '/' path).map P.part := by
  unfold target
  split_ifs with hbase
  · rw [segments_objectPath, hbase]
    rfl
  · rw [segments_objectPath, segments_append, List.map_append]

theorem target_eq (h : OrdinaryPath path) : b.target P path =
    ['/'].intercalate ((segments '/' b.basePath).map P.part ++ path.splitOn '/') := by
  unfold target
  split_ifs with hbase
  · rw [objectPath, h.map_part, hbase]
    rfl
  · rw [objectPath, segments_append, List.map_append, h.map_part]

/-- The path of the URL stands in front of the objects below it just when it is spelled as names
are. -/
theorem front_iff {name : Path} (hbase : b.basePath ≠ []) (hname : ∀ a ∈ name.splitOn '/', a ≠ [])
    (hbelow : below (objectPath P b.basePath) name = true) :
    b.basePath ++ ['/'] <+: name ↔ objectPath P b.basePath = b.basePath := by
  simp only [below, Bool.and_eq_true, decide_eq_true_eq, segments_objectPath,
    segments_eq_splitOn hname] at hbelow
  obtain ⟨⟨cs, hcs⟩, hne⟩ := hbelow
  have hjoin : ['/'].intercalate (name.splitOn '/') = name := List.intercalate_splitOn '/'
  have hfront : b.basePath ++ ['/'] <+: name ↔
      ∃ cs, cs ≠ [] ∧ name.splitOn '/' = b.basePath.splitOn '/' ++ cs := by
    conv_lhs => rw [← hjoin]
    exact prefix_intercalate_iff (List.splitOn_ne_nil '/' name) fun l hl =>
      not_mem_of_mem_splitOn hl
  rw [hfront]
  constructor
  · rintro ⟨ds, -, hds⟩
    have hsegments : segments '/' b.basePath = b.basePath.splitOn '/' := by
      refine segments_eq_splitOn fun a ha => hname a ?_
      rw [hds]
      exact List.mem_append_left ds ha
    have hpart := List.append_inj_left (hcs.trans hds) (by rw [List.length_map, hsegments])
    rw [objectPath, hpart]
    exact List.intercalate_splitOn '/'
  · intro hgood
    have hparts : b.basePath.splitOn '/' = (segments '/' b.basePath).map P.part := by
      conv_lhs => rw [← hgood]
      refine List.splitOn_intercalate '/' (fun l hl => (part_of_segments hl).1) fun hnil => hbase ?_
      rw [← hgood, objectPath, hnil]
      rfl
    rw [hparts]
    refine ⟨cs, fun hnil => hne ?_, hcs.symm⟩
    rw [← hcs, hnil, List.append_nil]

theorem target_ne_nil (h : OrdinaryPath path) : ∀ a ∈ (b.target P path).splitOn '/', a ≠ [] := by
  have hsplit : (b.target P path).splitOn '/' =
      (segments '/' b.basePath).map P.part ++ path.splitOn '/' := by
    rw [target_eq h]
    refine List.splitOn_intercalate '/' (fun l hl => ?_)
      (List.append_ne_nil_of_right_ne_nil _ (List.splitOn_ne_nil '/' path))
    obtain hl | hl := List.mem_append.mp hl
    · exact (part_of_segments hl).1
    · exact not_mem_of_mem_splitOn hl
  rw [hsplit]
  intro a ha
  obtain ha | ha := List.mem_append.mp ha
  · exact (part_of_segments ha).2
  · exact ordinary_ne_nil (h a ha)

theorem target_of_objectPath (h : OrdinaryPath path) (hbase : b.basePath ≠ [])
    (hgood : objectPath P b.basePath = b.basePath) :
    b.target P path = b.basePath ++ ['/'] ++ path := by
  have hne : (segments '/' b.basePath).map P.part ≠ [] := by
    intro hnil
    rw [objectPath, hnil] at hgood
    exact hbase hgood.symm
  rw [target_eq h, intercalate_append hne (List.splitOn_ne_nil '/' path), List.intercalate_splitOn,
    List.append_assoc, List.singleton_append]
  exact congrArg (· ++ '/' :: path) hgood

theorem target_of_nil (h : OrdinaryPath path) (hnil : objectPath P b.basePath = []) :
    b.target P path = path := by
  rw [target_eq h, (objectPath_eq_nil_iff P _).mp hnil]
  exact List.intercalate_splitOn '/'

/-- The objects of a path are below that of the URL. -/
theorem below_target (hpath : segments '/' path ≠ []) :
    below (objectPath P b.basePath) (b.target P path) = true := by
  rw [below, segments_objectPath, segments_target]
  simp [hpath]

/-- What is left of the name of an object when the path of the URL is taken off. -/
theorem relative_target (h : OrdinaryPath path) : b.relative (b.target P path) =
    if objectPath P b.basePath = b.basePath ∨ objectPath P b.basePath = [] then path
    else b.target P path := by
  have hpath : segments '/' path ≠ [] := by
    rw [h.segments_eq]
    exact List.splitOn_ne_nil '/' path
  unfold relative
  by_cases hbase : b.basePath = []
  · have hnil : objectPath P b.basePath = [] := by
      rw [hbase]
      rfl
    rw [if_pos hbase, if_pos (.inr hnil), target_of_nil h hnil]
  rw [if_neg hbase]
  by_cases hgood : objectPath P b.basePath = b.basePath
  · rw [if_pos (.inl hgood), target_of_objectPath h hbase hgood, strip_append, Option.getD_some]
  · have hstrip : strip (b.basePath ++ ['/']) (b.target P path) = none :=
      if_neg fun hfront => hgood ((front_iff hbase (target_ne_nil h) (below_target hpath)).mp
        hfront)
    rw [hstrip, Option.getD_none]
    split_ifs with hcond
    · exact target_of_nil h (hcond.resolve_left hgood)
    · rfl

theorem length_lt_target (h : OrdinaryPath path) (hne : objectPath P b.basePath ≠ []) :
    path.length < (b.target P path).length := by
  have hmap : (segments '/' b.basePath).map P.part ≠ [] := by
    intro hnil
    exact hne ((objectPath_eq_nil_iff P _).mpr (List.map_eq_nil_iff.mp hnil))
  rw [target_eq h, intercalate_append hmap (List.splitOn_ne_nil '/' path), List.intercalate_splitOn,
    List.length_append, List.singleton_append, List.length_cons]
  omega

theorem target_injective {path' : Path} (h : OrdinaryPath path) (h' : OrdinaryPath path')
    (heq : b.target P path = b.target P path') : path = path' := by
  have hsegments := congrArg (segments '/') heq
  rw [segments_target, segments_target, List.append_cancel_left_eq, h.map_part,
    h'.map_part] at hsegments
  have hjoin := congrArg ['/'].intercalate hsegments
  rwa [List.intercalate_splitOn, List.intercalate_splitOn] at hjoin

theorem mem_listed (objects : OrdMap Path File) (e : Path × File) :
    e ∈ b.listed P O objects ↔ objects[e.1]? = some e.2 ∧
      (b.basePath = [] ∨ below (objectPath P b.basePath) e.1 = true) := by
  unfold listed listObjects
  split_ifs with hbase
  · rw [O.mem_order, ← Prod.mk.eta (p := e), OrdMap.mem_toList]
    simp [hbase]
  · rw [O.mem_order, List.mem_filter, ← Prod.mk.eta (p := e), OrdMap.mem_toList]
    simp [hbase]

end BucketStorage

theorem mem_walk (disk : OrdMap Path File) (e : Path × File) :
    e ∈ walk O disk ↔ disk[e.1]? = some e.2 ∧ below ".aresadb".toList e.1 = true := by
  rw [walk, O.mem_order, List.mem_filter, ← Prod.mk.eta (p := e), OrdMap.mem_toList]

theorem segments_ne_nil_of_below {s t : Path} (h : below s t = true) : segments '/' t ≠ [] := by
  simp only [below, Bool.and_eq_true, decide_eq_true_eq] at h
  intro hnil
  rw [hnil, List.prefix_nil] at h
  exact h.2 h.1

/-! ### What is copied -/

section

variable {src dst dst' : OrdMap Path File} {es : List (Path × Path)} {lo hi : ℤ}

theorem Copied.unchanged (h : Copied src es dst dst' lo hi) {k : Path} (hk : ∀ e ∈ es, e.2 ≠ k) :
    dst'[k]? = dst[k]? := by
  obtain ⟨hsame, -⟩ | ⟨e, he, heq, -⟩ := h k
  · exact hsame
  · exact absurd heq (hk e he)

/-- What is copied to a place of its own is found there. -/
theorem Copied.content (h : Copied src es dst dst' lo hi)
    (hinj : ∀ e ∈ es, ∀ e' ∈ es, e.2 = e'.2 → e.1 = e'.1) {e : Path × Path} (he : e ∈ es) :
    ∃ f t, src[e.1]? = some f ∧ dst'[e.2]? = some ⟨f.content, t⟩ := by
  obtain ⟨-, hno⟩ | ⟨e', he', heq, f, t, hf, ht, -⟩ := h e.2
  · exact absurd rfl (hno e he)
  · rw [hinj e' he' e he heq] at hf
    exact ⟨f, t, hf, ht⟩

end

/-! ### There and back -/

/-- The directory has the files under `.aresadb` of the other one, and no more. -/
def Recreates (before after : OrdMap Path File) : Prop :=
  ∀ path : Path, (after[path]?).map File.content =
    if below ".aresadb".toList path then (before[path]?).map File.content else none

section

variable {before after : OrdMap Path File}

theorem walk_eq_nil_iff (O : Enumeration) (disk : OrdMap Path File) : walk O disk = [] ↔
    ∀ path : Path, below ".aresadb".toList path = true → disk[path]? = none := by
  rw [List.eq_nil_iff_forall_not_mem]
  constructor
  · intro h path hpath
    by_contra hsome
    obtain ⟨f, hf⟩ := Option.ne_none_iff_exists'.mp hsome
    exact h (path, f) ((mem_walk _ _).mpr ⟨hf, hpath⟩)
  · intro h e he
    obtain ⟨hf, hbelow⟩ := (mem_walk _ _).mp he
    rw [h e.1 hbelow] at hf
    cases hf

/-- Files that come back to where they were, and no others. -/
theorem recreates_of_same (back : Path → Path)
    (hfile : ∀ e ∈ walk O before, ∃ t, after[back e.1]? = some ⟨e.2.content, t⟩)
    (hnone : ∀ path, (∀ e ∈ walk O before, back e.1 ≠ path) → after[path]? = none)
    (hsame : ∀ e ∈ walk O before, back e.1 = e.1) : Recreates before after := by
  intro path
  by_cases hin : ∃ e ∈ walk O before, e.1 = path
  · obtain ⟨e, he, rfl⟩ := hin
    obtain ⟨hf, hbelow⟩ := (mem_walk _ _).mp he
    obtain ⟨t, ht⟩ := hfile e he
    rw [hsame e he] at ht
    rw [ht, if_pos hbelow, hf]
    rfl
  · push Not at hin
    rw [hnone path fun e he => by rw [hsame e he]; exact hin e he]
    split_ifs with hbelow
    · cases hf : before[path]? with
      | none => rfl
      | some f => exact absurd rfl (hin (path, f) ((mem_walk _ _).mpr ⟨hf, hbelow⟩))
    · rfl

/-- When all paths get longer, the longest of them is not there any more. -/
theorem recreates_iff_of_longer (back : Path → Path)
    (hfile : ∀ e ∈ walk O before, ∃ t, after[back e.1]? = some ⟨e.2.content, t⟩)
    (hnone : ∀ path, (∀ e ∈ walk O before, back e.1 ≠ path) → after[path]? = none)
    (hlonger : ∀ e ∈ walk O before, e.1.length < (back e.1).length) :
    Recreates before after ↔ walk O before = [] := by
  constructor
  · intro h
    by_contra hne
    obtain ⟨e, he, hmax⟩ := Set.exists_max_image {e | e ∈ walk O before} (fun e => e.1.length)
      (List.finite_toSet _) (List.exists_mem_of_ne_nil _ hne)
    obtain ⟨t, ht⟩ := hfile e he
    have hback := h (back e.1)
    rw [ht, Option.map_some] at hback
    split_ifs at hback with hbelow
    obtain ⟨f, hf, -⟩ := Option.map_eq_some_iff.mp hback.symm
    have hle := hmax (back e.1, f) ((mem_walk _ _).mpr ⟨hf, hbelow⟩)
    exact absurd (hlonger e he) (not_lt.mpr hle)
  · intro h
    refine recreates_of_same back hfile hnone fun e he => ?_
    rw [h] at he
    exact (List.not_mem_nil he).elim

end

namespace BucketStorage

variable {w : World}

/-- Uploaded are the files under `.aresadb`, and nothing else is below the path of the URL then. -/
theorem upload_spec (O : Enumeration) (hreadonly : b.readonly = false)
    (hplain : ∀ e ∈ walk O w.disk, OrdinaryPath e.1)
    (hempty : ∀ e, e ∉ b.listed P O w.objects) :
    ∃ w₁, b.upload P O w = some w₁ ∧
      (∀ e ∈ walk O w.disk, ∃ t, w₁.objects[b.target P e.1]? = some ⟨e.2.content, t⟩) ∧
      ∀ (O' : Enumeration) (o : Path × File), o ∈ b.listed P O' w₁.objects →
        ∃ e ∈ walk O w.disk, o.1 = b.target P e.1 := by
  have hsome := (copyAll_isSome w.disk ((walk O w.disk).map fun e => (e.1, b.target P e.1))
    (w.objects, w.clock)).mpr fun e he => by
      obtain ⟨f, hf, rfl⟩ := List.mem_map.mp he
      rw [((mem_walk _ _).mp hf).1]
      rfl
  obtain ⟨s, hs⟩ := Option.isSome_iff_exists.mp hsome
  obtain ⟨-, hcopied⟩ := copyAll_spec hs
  refine ⟨{ w with objects := s.1, clock := s.2 }, ?_, fun e he => ?_, fun O' o ho => ?_⟩
  · have hupload : b.upload P O w =
        (walk O w.disk).foldlM (fun w e => w.send (b.target P e.1) e.1) w := by
      rw [upload, hreadonly]
      rfl
    rw [hupload, World.foldlM_send (fun e : Path × File => b.target P e.1) Prod.fst, hs]
    rfl
  · have hinj : ∀ e ∈ (walk O w.disk).map fun e => (e.1, b.target P e.1),
        ∀ e' ∈ (walk O w.disk).map fun e => (e.1, b.target P e.1), e.2 = e'.2 → e.1 = e'.1 := by
      intro e he e' he' heq
      obtain ⟨f, hf, rfl⟩ := List.mem_map.mp he
      obtain ⟨f', hf', rfl⟩ := List.mem_map.mp he'
      exact target_injective (hplain f hf) (hplain f' hf') heq
    obtain ⟨f, t, hf, ht⟩ := hcopied.content hinj (List.mem_map_of_mem he)
    rw [((mem_walk _ _).mp he).1] at hf
    exact ⟨t, (Option.some.inj hf) ▸ ht⟩
  · by_contra hno
    push Not at hno
    rw [mem_listed] at ho
    refine hempty o ((mem_listed _ _).mpr ⟨?_, ho.2⟩)
    rw [← ho.1]
    refine (hcopied.unchanged fun e he => ?_).symm
    obtain ⟨f, hf, rfl⟩ := List.mem_map.mp he
    exact (hno f hf).symm

/-- Downloaded is what is listed. -/
theorem download_spec (O : Enumeration) : ∃ w₂, b.download P O { w with disk := ∅ } = some w₂ ∧
    ∃ lo hi, Copied w.objects ((b.listed P O w.objects).map fun e => (e.1, b.relative e.1))
      ∅ w₂.disk lo hi := by
  have hsome := (copyAll_isSome w.objects
    ((b.listed P O w.objects).map fun e => (e.1, b.relative e.1)) (∅, w.clock)).mpr fun e he => by
      obtain ⟨f, hf, rfl⟩ := List.mem_map.mp he
      rw [((mem_listed _ _).mp hf).1]
      rfl
  obtain ⟨s, hs⟩ := Option.isSome_iff_exists.mp hsome
  refine ⟨{ w with disk := s.1, clock := s.2 }, ?_, _, _, (copyAll_spec hs).2⟩
  rw [download, World.foldlM_fetch (Prod.fst : Path × File → Path) fun e => b.relative e.1, hs]
  rfl

end BucketStorage

open BucketStorage

theorem connect_readonly {url : List Char} (hb : connect url = some b) : b.readonly = false := by
  unfold connect at hb
  obtain ⟨_, -, rfl⟩ := Option.map_eq_some_iff.mp hb
  rfl

/-- What was uploaded is downloaded to the same places just when there was nothing, or the path of
the URL has no segments or is spelled as the object store spells it. -/
theorem bucket_round_trip_iff (P : PathPart) (O₁ O₂ : Enumeration) (url : List Char)
    (b : BucketStorage) (hb : connect url = some b) (w : World)
    (hplain : ∀ (path : Path) (f : File), w.disk[path]? = some f →
      below ".aresadb".toList path = true → OrdinaryPath path)
    (hempty : b.listed P O₁ w.objects = []) :
    (∃ w₁ w₂, b.upload P O₁ w = some w₁ ∧ b.download P O₂ { w₁ with disk := ∅ } = some w₂ ∧
        Recreates w.disk w₂.disk) ↔
      (∀ path : Path, below ".aresadb".toList path = true → w.disk[path]? = none) ∨
        objectPath P b.basePath = [] ∨ objectPath P b.basePath = b.basePath := by
  have hwalk : ∀ e ∈ walk O₁ w.disk, OrdinaryPath e.1 := fun e he =>
    hplain e.1 e.2 ((mem_walk _ _).mp he).1 ((mem_walk _ _).mp he).2
  obtain ⟨w₁, hupload, huploaded, honly⟩ := upload_spec (P := P) O₁ (connect_readonly hb) hwalk
    (by simp [hempty])
  obtain ⟨w₂, hdownload, lo, hi, hcopied⟩ := download_spec (P := P) (b := b) (w := w₁) O₂
  have hlisted : ∀ e ∈ walk O₁ w.disk, ∃ t, (b.target P e.1, ⟨e.2.content, t⟩) ∈
      b.listed P O₂ w₁.objects := by
    intro e he
    obtain ⟨t, ht⟩ := huploaded e he
    exact ⟨t, (mem_listed _ _).mpr ⟨ht, .inr (below_target
      (segments_ne_nil_of_below ((mem_walk _ _).mp he).2))⟩⟩
  have hback : (∃ w₁ w₂, b.upload P O₁ w = some w₁ ∧
      b.download P O₂ { w₁ with disk := ∅ } = some w₂ ∧ Recreates w.disk w₂.disk) ↔
        Recreates w.disk w₂.disk := by
    constructor
    · rintro ⟨v₁, v₂, h₁, h₂, h⟩
      obtain rfl := Option.some.inj (hupload.symm.trans h₁)
      obtain rfl := Option.some.inj (hdownload.symm.trans h₂)
      exact h
    · exact fun h => ⟨w₁, w₂, hupload, hdownload, h⟩
  rw [hback]
  -- Each file comes back where its object is taken to be, and no other.
  have hrelative : ∀ e ∈ walk O₁ w.disk, b.relative (b.target P e.1) =
      if objectPath P b.basePath = b.basePath ∨ objectPath P b.basePath = [] then e.1
      else b.target P e.1 := fun e he => relative_target (hwalk e he)
  have hinj : ∀ e ∈ (b.listed P O₂ w₁.objects).map fun e => (e.1, b.relative e.1),
      ∀ e' ∈ (b.listed P O₂ w₁.objects).map fun e => (e.1, b.relative e.1),
        e.2 = e'.2 → e.1 = e'.1 := by
    intro e he e' he' heq
    obtain ⟨o, ho, rfl⟩ := List.mem_map.mp he
    obtain ⟨o', ho', rfl⟩ := List.mem_map.mp he'
    obtain ⟨f, hf, hof⟩ := honly O₂ o ho
    obtain ⟨f', hf', hof'⟩ := honly O₂ o' ho'
    simp only [hof, hof', hrelative f hf, hrelative f' hf'] at heq ⊢
    split_ifs at heq
    · rw [heq]
    · exact heq
  have hfile : ∀ e ∈ walk O₁ w.disk, ∃ t,
      w₂.disk[b.relative (b.target P e.1)]? = some ⟨e.2.content, t⟩ := by
    intro e he
    obtain ⟨t, ht⟩ := hlisted e he
    obtain ⟨f, t', hf, hdisk⟩ := hcopied.content hinj (List.mem_map_of_mem ht)
    rw [((mem_listed _ _).mp ht).1] at hf
    obtain rfl := Option.some.inj hf
    exact ⟨t', hdisk⟩
  have hnone : ∀ path, (∀ e ∈ walk O₁ w.disk, b.relative (b.target P e.1) ≠ path) →
      w₂.disk[path]? = none := by
    intro path hpath
    rw [hcopied.unchanged fun e he => ?_, OrdMap.get_empty]
    obtain ⟨o, ho, rfl⟩ := List.mem_map.mp he
    obtain ⟨f, hf, hof⟩ := honly O₂ o ho
    simpa only [hof] using hpath f hf
  rw [← walk_eq_nil_iff O₁]
  by_cases hgood : objectPath P b.basePath = b.basePath ∨ objectPath P b.basePath = []
  · refine iff_of_true (recreates_of_same (fun p => b.relative (b.target P p)) hfile hnone
      fun e he => ?_) (.inr hgood.symm)
    rw [hrelative e he, if_pos hgood]
  · have hnil : objectPath P b.basePath ≠ [] := fun hnil => hgood (.inr hnil)
    rw [recreates_iff_of_longer (fun p => b.relative (b.target P p)) hfile hnone fun e he => ?_,
      or_iff_left fun h => hgood h.symm]
    rw [hrelative e he, if_neg hgood]
    exact length_lt_target (hwalk e he) hnil

/-- What is held is given out as it is kept. -/
def inOrder : Enumeration := ⟨id, fun l => .refl l⟩

def someFile : Path := ".aresadb/x".toList

/-- A directory with one file, and a bucket with nothing in it. -/
def oneFile : World := ⟨(∅ : OrdMap Path File).insert someFile ⟨[1], 0⟩, ∅, 1⟩

theorem oneFile_ordinary (path : Path) (f : File) (h : oneFile.disk[path]? = some f) :
    OrdinaryPath path := by
  by_cases heq : someFile = path
  · subst heq
    have hall : (someFile.splitOn '/').all ordinary = true := by decide
    exact List.all_eq_true.mp hall
  · rw [oneFile, OrdMap.get_insert_of_ne _ _ heq, OrdMap.get_empty] at h
    cases h

theorem bucket_round_trip_oneFile :
    (∃ w₁ w₂, upload plainPart inOrder ⟨"s3://b/p".toList, false⟩ oneFile = some w₁ ∧
        download plainPart inOrder ⟨"s3://b/p".toList, false⟩ { w₁ with disk := ∅ } = some w₂ ∧
        Recreates oneFile.disk w₂.disk) ↔
      (∀ path : Path, below ".aresadb".toList path = true → oneFile.disk[path]? = none) ∨
        objectPath plainPart (basePath ⟨"s3://b/p".toList, false⟩) = [] ∨
        objectPath plainPart (basePath ⟨"s3://b/p".toList, false⟩) =
          basePath ⟨"s3://b/p".toList, false⟩ :=
  bucket_round_trip_iff plainPart inOrder inOrder "s3://b/p".toList ⟨"s3://b/p".toList, false⟩
    (by decide) oneFile (fun path f h _ => oneFile_ordinary path f h) (by decide)

/-- With a slash at the end of the URL the file comes back somewhere else. -/
theorem bucket_trailing_slash :
    ((upload plainPart inOrder ⟨"s3://b/p/".toList, false⟩ oneFile).bind fun w =>
        download plainPart inOrder ⟨"s3://b/p/".toList, false⟩ { w with disk := ∅ }).map
      (fun w => w.disk.toList.map Prod.fst) = some ["p/.aresadb/x".toList] ∧
    oneFile.disk.toList.map Prod.fst = [someFile] := by
  decide

end AresaDb.Store
