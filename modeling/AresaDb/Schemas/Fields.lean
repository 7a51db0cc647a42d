import AresaDb.Lib.Lowercase
import AresaDb.Schemas.Registry

/-! # Field definitions

`SchemaManager::parse_fields` and `FieldType::parse` (`schema/mod.rs`, `schema/registry.rs`): fields
are separated by commas, and the name, the type and the modifiers of a field by colons.  Types may
contain both, which the splitting does not know.  So definitions are read back just when no type has
a reference in it, nor an enumeration of more values than one, or of none
(`parse_fields_render_iff`). -/

namespace AresaDb.Schemas

open Text

variable (L : Lowering)

/-! ### Parsing -/

/-- The names of the base types; any other name is one of strings. -/
def FieldType.ofBaseName : String → FieldType
  | "string" | "text" | "varchar" => .string
  | "int" | "integer" | "bigint" | "i64" => .int
  | "float" | "double" | "decimal" | "f64" => .float
  | "bool" | "boolean" => .bool
  | "datetime" | "timestamp" | "date" => .dateTime
  | "json" | "jsonb" | "object" => .json
  | "bytes" | "binary" | "blob" => .bytes
  | "uuid" | "id" => .uuid
  | _ => .string

/-- `s[n..s.len() - 1]`, between ASCII characters. -/
def inside (n : ℕ) (s : List Char) : List Char := (s.drop n).dropLast

/-- `FieldType::parse` -/
def FieldType.parse (s : List Char) : FieldType :=
  let lower := L.toLowercase s
  if "enum(".toList <+: lower ∧ lower.getLast? = some ')' then
    .enum (((inside 5 s).splitOn ',').map fun v => String.ofList (trim v))
  else if h : "array<".toList <+: lower ∧ lower.getLast? = some '>' then
    .array (FieldType.parse (inside 6 s))
  else if "ref:".toList <+: lower ∨ "reference:".toList <+: lower then
    .reference (String.ofList ((s.splitOn ':')[1]?.getD "unknown".toList))
  else
    .ofBaseName (String.ofList lower)
termination_by s.length
decreasing_by
  have hne : s ≠ [] := by
    rintro rfl
    exact absurd (List.prefix_nil.mp h.1) (by decide)
  have hpos := List.length_pos_iff.mpr hne
  simp only [inside, List.length_dropLast, List.length_drop]
  omega

def SchemaField.new (name : String) (fieldType : FieldType) : SchemaField where
  name
  fieldType
  nullable := true
  unique := false
  indexed := false
  default := none
  description := none

def SchemaField.modify (field : SchemaField) : String → SchemaField
  | "unique" => { field with unique := true }
  | "required" | "notnull" => { field with nullable := false }
  | "indexed" | "index" => { field with indexed := true }
  | _ => field

/-- The field of a definition, if it is not empty. -/
def parseField (fieldDef : List Char) : Option SchemaField :=
  let fieldDef := trim fieldDef
  if fieldDef = [] then none
  else
    let parts := fieldDef.splitOn ':'
    let name := String.ofList (trim (parts.headD []))
    let fieldType := (parts[1]?.map fun t => FieldType.parse L (trim t)).getD .string
    some ((parts.drop 2).foldl
      (fun field part => field.modify (String.ofList (L.toLowercase (trim part))))
      (.new name fieldType))

/-- `parse_fields`, which has no error. -/
def parseFields (fieldsStr : List Char) : List SchemaField :=
  (fieldsStr.splitOn ',').filterMap (parseField L)

/-! ### Rendering -/

def FieldType.render : FieldType → List Char
  | .string => "string".toList
  | .int => "int".toList
  | .float => "float".toList
  | .bool => "bool".toList
  | .dateTime => "datetime".toList
  | .json => "json".toList
  | .bytes => "bytes".toList
  | .uuid => "uuid".toList
  | .enum values => "enum(".toList ++ ([','].intercalate (values.map String.toList) ++ [')'])
  | .array inner => "array<".toList ++ (inner.render ++ ['>'])
  | .reference target => "ref:".toList ++ target.toList

inductive Modifier where
  | unique
  | required
  | indexed
deriving DecidableEq

def Modifier.name : Modifier → String
  | .unique => "unique"
  | .required => "required"
  | .indexed => "indexed"

def Modifier.render (m : Modifier) : List Char := m.name.toList

/-- A field as it is written, its modifiers in any order. -/
structure FieldDef where
  name : String
  fieldType : FieldType
  modifiers : List Modifier

/-- What is defined. -/
def FieldDef.field (d : FieldDef) : SchemaField where
  name := d.name
  fieldType := d.fieldType
  nullable := decide (.required ∉ d.modifiers)
  unique := decide (.unique ∈ d.modifiers)
  indexed := decide (.indexed ∈ d.modifiers)
  default := none
  description := none

def FieldDef.parts (d : FieldDef) : List (List Char) :=
  d.name.toList :: d.fieldType.render :: d.modifiers.map Modifier.render

def FieldDef.render (d : FieldDef) : List Char := [':'].intercalate d.parts

def renderFields (defs : List FieldDef) : List Char :=
  [','].intercalate (defs.map FieldDef.render)

/-- A character of a word: a letter, a digit, an underscore, and no white space or punctuation of
the syntax at least. -/
def wordChar (c : Char) : Bool := !isWhitespace c && c ∉ ",:()<>".toList

def Word (s : String) : Prop := ∀ c ∈ s.toList, wordChar c = true

/-- The values and targets in the type are words. -/
def FieldType.Plain : FieldType → Prop
  | .enum values => ∀ v ∈ values, Word v
  | .array inner => inner.Plain
  | .reference target => Word target
  | _ => True

def FieldDef.Plain (d : FieldDef) : Prop := Word d.name ∧ d.fieldType.Plain

/-- The type has no reference in it, and only enumerations of one value. -/
def FieldType.Unsplit : FieldType → Prop
  | .enum values => values.length = 1
  | .array inner => inner.Unsplit
  | .reference _ => False
  | _ => True

/-! ### Reading types -/

variable {L}

theorem ofBaseName_of_mem {s : String} (h : '<' ∈ s.toList ∨ '(' ∈ s.toList) :
    FieldType.ofBaseName s = .string := by
  unfold FieldType.ofBaseName
  split <;> first | rfl | exact absurd h (by decide)

theorem inside_append (p x : List Char) (c : Char) : inside p.length (p ++ (x ++ [c])) = x := by
  rw [inside, List.drop_left, List.dropLast_concat]

/-- The slice that is taken between the parentheses, or the angle brackets, is in the text. -/
theorem slice_inside {p s : List Char} {d : Char}
    (hp : ∀ c ∈ p, c.toNat < 128 ∧ c ≠ 'i' ∧ c ≠ 'k') (hd : d.toNat < 128)
      (halpha : d.isAlpha = false)
    (hne : d ∉ p) (hbegin : p <+: L.toLowercase s) (hend : (L.toLowercase s).getLast? = some d) :
    slice p.length (size s - 1) s = some (inside p.length s) := by
  obtain ⟨a, b, rfl, ha, rfl⟩ := L.prefix_lowerFrom hp hbegin
  rw [L.getLast?_toLowercase_iff hd halpha] at hend
  obtain rfl | ⟨b, c, rfl⟩ := List.eq_nil_or_concat b
  · have hmem := List.mem_of_getLast? hend
    rw [List.append_nil] at hmem
    exact absurd (List.mem_map.mpr ⟨d, hmem, (Lowering.toLower_eq_iff halpha).mpr rfl⟩) hne
  · rw [List.concat_eq_append, ← List.append_assoc, List.getLast?_concat, Option.some_inj] at hend
    subst hend
    rw [List.concat_eq_append, List.length_map, inside_append, slice_eq_some]
    refine ⟨a, [c], (List.append_assoc _ _ _).symm, ha.size_eq, ?_⟩
    simp only [size_append, size_cons, size_nil, utf8Size_of_lt hd]
    omega

/-- No type makes the parser panic. -/
theorem FieldType.parse_slices (s : List Char) :
    ("enum(".toList <+: L.toLowercase s ∧ (L.toLowercase s).getLast? = some ')' →
      slice 5 (size s - 1) s = some (inside 5 s)) ∧
    ("array<".toList <+: L.toLowercase s ∧ (L.toLowercase s).getLast? = some '>' →
      slice 6 (size s - 1) s = some (inside 6 s)) := by
  have hclean : ∀ p : List Char, p.all (fun c => c.toNat < 128 && c ≠ 'i' && c ≠ 'k') = true →
      ∀ c ∈ p, c.toNat < 128 ∧ c ≠ 'i' ∧ c ≠ 'k' := by
    intro p hp c hc
    have hall := List.all_eq_true.mp hp c hc
    simpa [and_assoc] using hall
  constructor
  · rintro ⟨hbegin, hend⟩
    exact slice_inside (hclean "enum(".toList (by decide)) (by decide) (by decide)
      (by decide) hbegin hend
  · rintro ⟨hbegin, hend⟩
    exact slice_inside (hclean "array<".toList (by decide)) (by decide) (by decide)
      (by decide) hbegin hend

theorem FieldType.parse_eq (s : List Char) : FieldType.parse L s =
    if "enum(".toList <+: L.toLowercase s ∧ (L.toLowercase s).getLast? = some ')' then
      .enum (((inside 5 s).splitOn ',').map fun v => String.ofList (trim v))
    else if "array<".toList <+: L.toLowercase s ∧ (L.toLowercase s).getLast? = some '>' then
      .array (FieldType.parse L (inside 6 s))
    else if "ref:".toList <+: L.toLowercase s ∨ "reference:".toList <+: L.toLowercase s then
      .reference (String.ofList ((s.splitOn ':')[1]?.getD "unknown".toList))
    else .ofBaseName (String.ofList (L.toLowercase s)) := by
  rw [FieldType.parse]
  rfl

theorem begins_enum (x : List Char) : "enum(".toList <+: L.toLowercase ("enum(".toList ++ x) :=
  L.prefix_toLowercase (ascii_of_all (by decide)) (by decide) x

theorem begins_array (x : List Char) : "array<".toList <+: L.toLowercase ("array<".toList ++ x) :=
  L.prefix_toLowercase (ascii_of_all (by decide)) (by decide) x

/-- What begins with another letter is none of the forms of types. -/
theorem not_begins {c : Char} (hc : c.toNat < 128) {d : Char} (hd : d ≠ c.toLower) (p : List Char)
    {s : List Char} (hs : s.head? = some c) : ¬ d :: p <+: L.toLowercase s := by
  obtain ⟨t, rfl⟩ := List.head?_eq_some_iff.mp hs
  exact L.not_prefix_toLowercase hc hd p t

theorem ends_iff {d : Char} (hd : d.toNat < 128) (halpha : d.isAlpha = false) (x : List Char)
    (c : Char) : (L.toLowercase (x ++ [c])).getLast? = some d ↔ c = d := by
  rw [L.getLast?_toLowercase_iff hd halpha, List.getLast?_concat, Option.some_inj]

theorem FieldType.parse_enum (x : List Char) :
    FieldType.parse L ("enum(".toList ++ (x ++ [')'])) =
      .enum ((x.splitOn ',').map fun v => String.ofList (trim v)) := by
  have hlast : (L.toLowercase ("enum(".toList ++ (x ++ [')']))).getLast? = some ')' := by
    rw [← List.append_assoc]
    exact (ends_iff (by decide) (by decide) _ _).mpr rfl
  rw [parse_eq, if_pos ⟨begins_enum _, hlast⟩]
  exact congrArg (fun y : List Char => FieldType.enum ((y.splitOn ',').map fun v =>
    String.ofList (trim v))) (inside_append "enum(".toList x ')')

theorem FieldType.parse_array (x : List Char) :
    FieldType.parse L ("array<".toList ++ (x ++ ['>'])) = .array (FieldType.parse L x) := by
  have hlast : (L.toLowercase ("array<".toList ++ (x ++ ['>']))).getLast? = some '>' := by
    rw [← List.append_assoc]
    exact (ends_iff (by decide) (by decide) _ _).mpr rfl
  have hhead : ("array<".toList ++ (x ++ ['>'])).head? = some 'a' := rfl
  rw [parse_eq, if_neg fun h => not_begins (by decide) (by decide) _ hhead h.1,
    if_pos ⟨begins_array _, hlast⟩]
  exact congrArg (fun y => FieldType.array (FieldType.parse L y))
    (inside_append "array<".toList x '>')

/-- An enumeration that is not closed is read as a type of strings. -/
theorem FieldType.parse_enum_open {x : List Char} (h : x.getLast? ≠ some ')') :
    FieldType.parse L ("enum(".toList ++ x) = .string := by
  have hlast : ("enum(".toList ++ x).getLast? ≠ some ')' := by
    cases x with
    | nil => decide
    | cons c x => rwa [List.getLast?_append_of_ne_nil _ (List.cons_ne_nil c x)]
  have hhead : ("enum(".toList ++ x).head? = some 'e' := rfl
  rw [parse_eq, if_neg, if_neg fun h => not_begins (by decide) (by decide) _ hhead h.1, if_neg]
  · refine ofBaseName_of_mem (.inr ?_)
    rw [String.toList_ofList]
    exact (begins_enum x).subset (by decide)
  · rintro (h | h) <;> exact not_begins (by decide) (by decide) _ hhead h
  · rw [L.getLast?_toLowercase_iff (by decide) (by decide)]
    exact fun h => hlast h.2

/-- So is an array. -/
theorem FieldType.parse_array_open {x : List Char} (h : x.getLast? ≠ some '>') :
    FieldType.parse L ("array<".toList ++ x) = .string := by
  have hlast : ("array<".toList ++ x).getLast? ≠ some '>' := by
    cases x with
    | nil => decide
    | cons c x => rwa [List.getLast?_append_of_ne_nil _ (List.cons_ne_nil c x)]
  have hhead : ("array<".toList ++ x).head? = some 'a' := rfl
  rw [parse_eq, if_neg fun h => not_begins (by decide) (by decide) _ hhead h.1, if_neg, if_neg]
  · refine ofBaseName_of_mem (.inl ?_)
    rw [String.toList_ofList]
    exact (begins_array x).subset (by decide)
  · rintro (h | h) <;> exact not_begins (by decide) (by decide) _ hhead h
  · rw [L.getLast?_toLowercase_iff (by decide) (by decide)]
    exact fun h => hlast h.2

/-- A name in ASCII without any punctuation of the syntax. -/
theorem FieldType.parse_name {s : List Char} (hs : s.all (fun c => c.toNat < 128) = true)
    (h : '(' ∉ s ∧ '<' ∉ s ∧ ':' ∉ s) :
    FieldType.parse L s = .ofBaseName (String.ofList (s.map Char.toLower)) := by
  have hno : ∀ (d : Char) (p : List Char), d.isAlpha = false → d ∉ s → d ∈ p →
      ¬ p <+: s.map Char.toLower := by
    intro d p hd hmem hp hpre
    obtain ⟨c, hc, hcd⟩ := List.mem_map.mp (hpre.subset hp)
    rw [(Lowering.toLower_eq_iff hd).mp hcd] at hc
    exact hmem hc
  obtain ⟨hparen, hangle, hcolon⟩ := h
  rw [parse_eq, L.toLowercase_ascii (ascii_of_all hs), if_neg, if_neg, if_neg]
  · rintro (h | h) <;> exact hno ':' _ (by decide) hcolon (by decide) h
  · exact fun h => hno '<' _ (by decide) hangle (by decide) h.1
  · exact fun h => hno '(' _ (by decide) hparen (by decide) h.1

/-! ### What is left of a type -/

theorem FieldType.render_enum (values : List String) : (FieldType.enum values).render =
    "enum(".toList ++ ([','].intercalate (values.map String.toList) ++ [')']) := rfl

theorem FieldType.render_array (inner : FieldType) :
    (FieldType.array inner).render = "array<".toList ++ (inner.render ++ ['>']) := rfl

theorem FieldType.render_reference (target : String) :
    (FieldType.reference target).render = "ref:".toList ++ target.toList := rfl

theorem Word.not_mem {s : String} (h : Word s) {c : Char} (hc : wordChar c = false) :
    c ∉ s.toList := fun hmem => by simp [h c hmem] at hc

theorem Word.no_whitespace {s : String} (h : Word s) : ∀ c ∈ s.toList, isWhitespace c = false := by
  intro c hc
  have hword := h c hc
  simp only [wordChar, Bool.and_eq_true, Bool.not_eq_true'] at hword
  exact hword.1

/-- The text of a type up to the first comma or colon in it. -/
structure FieldType.Cut (L : Lowering) (t : FieldType) (cut rest : List Char) : Prop where
  render : t.render = cut ++ rest
  clean : ',' ∉ cut ∧ ':' ∉ cut
  stops : rest = [] ∨ ∃ c x, rest = c :: x ∧ (c = ',' ∨ c = ':')
  unclosed : rest ≠ [] → cut.getLast? ≠ some '>'
  whole : t.Unsplit → rest = []
  parse_iff : FieldType.parse L cut = t ↔ t.Unsplit

/-- A type that is cut nowhere. -/
theorem FieldType.cut_none {t : FieldType} (hclean : ',' ∉ t.render ∧ ':' ∉ t.render)
    (hparse : FieldType.parse L t.render = t ↔ t.Unsplit) : t.Cut L t.render [] where
  render := (List.append_nil _).symm
  clean := hclean
  stops := .inl rfl
  unclosed h := absurd rfl h
  whole _ := rfl
  parse_iff := hparse

theorem FieldType.cut_name {t : FieldType} (name : String) (hrender : t.render = name.toList)
    (ht : t.Unsplit) (hascii : name.toList.all (fun c => c.toNat < 128) = true)
    (hlower : name.toList.map Char.toLower = name.toList)
    (hplain : name.toList.all (fun c => c ∉ [',', ':', '(', '<']) = true)
    (hparse : ofBaseName name = t) : t.Cut L t.render [] := by
  have hclean : ∀ c ∈ [',', ':', '(', '<'], c ∉ name.toList := fun c hc hmem =>
    of_decide_eq_true (List.all_eq_true.mp hplain c hmem) hc
  rw [hrender]
  refine hrender ▸ cut_none ?_ (iff_of_true ?_ ht)
  · rw [hrender]
    exact ⟨hclean _ (by decide), hclean _ (by decide)⟩
  · rw [hrender, parse_name hascii ⟨hclean _ (by decide), hclean _ (by decide),
      hclean _ (by decide)⟩, hlower, String.ofList_toList, hparse]

theorem trim_word {s : String} (h : Word s) : trim s.toList = s.toList :=
  trim_of_no_whitespace h.no_whitespace

theorem FieldType.not_mem_enum {c : Char} (hc : c ∉ "enum(".toList ∧ c ∉ [')']) {v : String}
    (hv : c ∉ v.toList) : c ∉ (FieldType.enum [v]).render := by
  rw [render_enum, List.map_singleton, List.intercalate_singleton]
  simp only [List.mem_append, not_or]
  exact ⟨hc.1, hv, hc.2⟩

theorem FieldType.cut_enum_nil : (FieldType.enum []).Cut L (FieldType.enum []).render [] := by
  refine cut_none (by decide) (iff_of_false ?_ Nat.zero_ne_one)
  have hrender : (FieldType.enum []).render = "enum(".toList ++ ([] ++ [')']) := rfl
  rw [hrender, parse_enum, enum.injEq]
  exact List.cons_ne_nil _ _

theorem FieldType.cut_enum_singleton {v : String} (hv : Word v) :
    (FieldType.enum [v]).Cut L (FieldType.enum [v]).render [] := by
  refine cut_none ⟨not_mem_enum (by decide) (hv.not_mem (by decide)),
    not_mem_enum (by decide) (hv.not_mem (by decide))⟩ (iff_of_true ?_ rfl)
  rw [render_enum, List.map_singleton, List.intercalate_singleton, parse_enum,
    List.splitOn_eq_singleton (hv.not_mem (by decide)), List.map_singleton, trim_word hv,
    String.ofList_toList]

/-- The first comma is behind the first value. -/
theorem FieldType.cut_enum_cons {v w : String} {values : List String} (hv : Word v) :
    (FieldType.enum (v :: w :: values)).Cut L ("enum(".toList ++ v.toList)
      (',' :: ([','].intercalate ((w :: values).map String.toList) ++ [')'])) := by
  have hlast : ∀ d, wordChar d = false → v.toList.getLast? ≠ some d := fun d hd hmem =>
    hv.not_mem hd (List.mem_of_getLast? hmem)
  have hsplit : ¬ (FieldType.enum (v :: w :: values)).Unsplit := by
    simp [Unsplit]
  constructor
  · rw [render_enum, List.map_cons, List.map_cons, List.intercalate_cons_cons]
    simp only [List.append_assoc, List.cons_append, List.nil_append]
  · simp only [List.mem_append, not_or]
    exact ⟨⟨by decide, hv.not_mem (by decide)⟩, ⟨by decide, hv.not_mem (by decide)⟩⟩
  · exact .inr ⟨_, _, rfl, .inl rfl⟩
  · intro _ h
    rw [List.getLast?_append, Option.or_eq_some_iff] at h
    obtain h | h := h
    · exact hlast _ (by decide) h
    · exact absurd h.2 (by decide)
  · exact fun h => (hsplit h).elim
  · rw [parse_enum_open (hlast _ (by decide))]
    exact iff_of_false FieldType.noConfusion hsplit

theorem FieldType.cut_reference (target : String) :
    (FieldType.reference target).Cut L "ref".toList (':' :: target.toList) := by
  refine ⟨rfl, by decide, .inr ⟨_, _, rfl, .inr rfl⟩, fun _ => by decide, fun h => h.elim, ?_⟩
  rw [parse_name (by decide) (by decide)]
  exact iff_of_false FieldType.noConfusion id

theorem FieldType.cut_array {inner : FieldType} {cut rest : List Char} (h : inner.Cut L cut rest) :
    ∃ cut rest, (FieldType.array inner).Cut L cut rest := by
  obtain rfl | ⟨c, x, rfl, hc⟩ := h.stops
  · -- The inner type is whole, and the array is closed behind it.
    have hrender : (FieldType.array inner).render = "array<".toList ++ (cut ++ ['>']) := by
      rw [render_array, h.render, List.append_nil]
    refine ⟨_, [], cut_none ?_ ?_⟩
    · rw [hrender]
      simp only [List.mem_append, not_or]
      exact ⟨⟨by decide, h.clean.1, by decide⟩, ⟨by decide, h.clean.2, by decide⟩⟩
    · rw [hrender, parse_array, array.injEq]
      exact h.parse_iff
  · have hsplit : ¬ (FieldType.array inner).Unsplit := fun hinner =>
      List.cons_ne_nil c x (h.whole hinner)
    have hopen := h.unclosed (List.cons_ne_nil c x)
    refine ⟨"array<".toList ++ cut, c :: (x ++ ['>']), ?_, ?_, .inr ⟨c, _, rfl, hc⟩, ?_,
      fun hinner => (hsplit hinner).elim, ?_⟩
    · rw [render_array, h.render]
      simp only [List.append_assoc, List.cons_append]
    · simp only [List.mem_append, not_or]
      exact ⟨⟨by decide, h.clean.1⟩, ⟨by decide, h.clean.2⟩⟩
    · intro _ hlast
      rw [List.getLast?_append, Option.or_eq_some_iff] at hlast
      obtain hlast | hlast := hlast
      · exact hopen hlast
      · exact absurd hlast.2 (by decide)
    · rw [parse_array_open hopen]
      exact iff_of_false FieldType.noConfusion hsplit

/-- Every type is cut somewhere, and what is left is read as the type only if it is not split. -/
theorem FieldType.exists_cut (t : FieldType) (h : t.Plain) : ∃ cut rest, t.Cut L cut rest := by
  induction t with
  | enum values =>
      match values with
      | [] => exact ⟨_, _, cut_enum_nil⟩
      | [v] => exact ⟨_, _, cut_enum_singleton (h v List.mem_cons_self)⟩
      | v :: w :: values => exact ⟨_, _, cut_enum_cons (h v List.mem_cons_self)⟩
  | reference target => exact ⟨_, _, cut_reference target⟩
  | array inner ih =>
      obtain ⟨cut, rest, hcut⟩ := ih h
      exact cut_array hcut
  | string => exact ⟨_, _, cut_name "string" rfl trivial (by decide) (by decide) (by decide) rfl⟩
  | int => exact ⟨_, _, cut_name "int" rfl trivial (by decide) (by decide) (by decide) rfl⟩
  | float => exact ⟨_, _, cut_name "float" rfl trivial (by decide) (by decide) (by decide) rfl⟩
  | bool => exact ⟨_, _, cut_name "bool" rfl trivial (by decide) (by decide) (by decide) rfl⟩
  | dateTime => exact ⟨_, _, cut_name "datetime" rfl trivial (by decide) (by decide)
    (by decide) rfl⟩
  | json => exact ⟨_, _, cut_name "json" rfl trivial (by decide) (by decide) (by decide) rfl⟩
  | bytes => exact ⟨_, _, cut_name "bytes" rfl trivial (by decide) (by decide) (by decide) rfl⟩
  | uuid => exact ⟨_, _, cut_name "uuid" rfl trivial (by decide) (by decide) (by decide) rfl⟩

/-! ### Reading definitions -/

theorem parseFields_single {a : List Char} (h : ',' ∉ a) :
    parseFields L a = (parseField L a).toList := by
  rw [parseFields, List.splitOn_eq_singleton h]
  cases ha : parseField L a <;> simp [ha]

theorem parseFields_append {a : List Char} (h : ',' ∉ a) (b : List Char) :
    parseFields L (a ++ ',' :: b) = (parseField L a).toList ++ parseFields L b := by
  rw [parseFields, List.splitOn_append_cons_self_of_not_mem h]
  cases ha : parseField L a <;> simp [ha, parseFields]

/-- What is between the commas. -/
theorem parseFields_of_stop {a b : List Char} (h : ',' ∉ a) (hb : b = [] ∨ ∃ b', b = ',' :: b') :
    ∃ more, parseFields L (a ++ b) = (parseField L a).toList ++ more := by
  obtain rfl | ⟨b', rfl⟩ := hb
  · exact ⟨[], by rw [List.append_nil, List.append_nil, parseFields_single h]⟩
  · exact ⟨_, parseFields_append h b'⟩

/-- A definition of three parts or more, read part by part. -/
theorem parseField_eq {name fieldType : List Char} {more : List (List Char)} {fieldDef : List Char}
    (hspace : ∀ c ∈ fieldDef, isWhitespace c = false) (hne : fieldDef ≠ [])
    (hparts : fieldDef.splitOn ':' = name :: fieldType :: more)
    (hname : ∀ c ∈ name, isWhitespace c = false)
    (htype : ∀ c ∈ fieldType, isWhitespace c = false) :
    parseField L fieldDef = some (more.foldl
      (fun field part => field.modify (String.ofList (L.toLowercase (trim part))))
      (.new (String.ofList name) (FieldType.parse L fieldType))) := by
  unfold parseField
  rw [trim_of_no_whitespace hspace, if_neg hne, hparts]
  simp only [List.headD_cons, List.getElem?_cons_succ, List.getElem?_cons_zero, Option.map_some,
    Option.getD_some, List.drop_succ_cons, List.drop_zero, trim_of_no_whitespace hname,
    trim_of_no_whitespace htype]

theorem SchemaField.modify_fieldType (f : SchemaField) (modifier : String) :
    (f.modify modifier).fieldType = f.fieldType := by
  unfold modify
  split <;> rfl

theorem foldl_modify_fieldType (more : List (List Char)) (f : SchemaField) :
    (more.foldl
      (fun field part => field.modify (String.ofList (L.toLowercase (trim part)))) f).fieldType =
      f.fieldType := by
  induction more generalizing f with
  | nil => rfl
  | cons part more ih => rw [List.foldl_cons, ih, SchemaField.modify_fieldType]

theorem word_of_all {s : String} (h : s.toList.all wordChar = true) : Word s :=
  List.all_eq_true.mp h

theorem Modifier.word (m : Modifier) : Word m.name :=
  word_of_all (by cases m <;> decide)

theorem Modifier.lower_name (m : Modifier) :
    String.ofList (L.toLowercase (trim m.name.toList)) = m.name := by
  have hascii : m.name.toList.all (fun c => c.toNat < 128) = true := by
    cases m <;> decide
  have hlower : m.name.toList.map Char.toLower = m.name.toList := by
    cases m <;> decide
  rw [trim_word m.word, L.toLowercase_ascii (ascii_of_all hascii), hlower, String.ofList_toList]

/-- What the modifiers of a definition do. -/
theorem foldl_modify_render (modifiers : List Modifier) (f : SchemaField) :
    (modifiers.map Modifier.render).foldl
      (fun field part => field.modify (String.ofList (L.toLowercase (trim part)))) f =
      { f with
        nullable := f.nullable && decide (.required ∉ modifiers)
        unique := f.unique || decide (.unique ∈ modifiers)
        indexed := f.indexed || decide (.indexed ∈ modifiers) } := by
  induction modifiers generalizing f with
  | nil => simp
  | cons m modifiers ih =>
      rw [List.map_cons, List.foldl_cons, ih, Modifier.render, Modifier.lower_name]
      cases m with
      | unique =>
          have hmodify : f.modify "unique" = { f with unique := true } := rfl
          rw [Modifier.name, hmodify]
          simp
      | required =>
          have hmodify : f.modify "required" = { f with nullable := false } := rfl
          rw [Modifier.name, hmodify]
          simp
      | indexed =>
          have hmodify : f.modify "indexed" = { f with indexed := true } := rfl
          rw [Modifier.name, hmodify]
          simp

/-! ### Whole definitions -/

theorem forall_mem_intercalate {P : Char → Prop} {sep : Char} (hsep : P sep)
    {l : List (List Char)} (h : ∀ x ∈ l, ∀ c ∈ x, P c) : ∀ c ∈ [sep].intercalate l, P c := by
  induction l with
  | nil => exact fun c hc => (List.not_mem_nil hc).elim
  | cons x l ih =>
      obtain ⟨hx, hl⟩ := List.forall_mem_cons.mp h
      cases l with
      | nil => rwa [List.intercalate_singleton]
      | cons y l =>
          rw [List.intercalate_cons_cons]
          simp only [List.forall_mem_append, List.forall_mem_singleton]
          exact ⟨⟨hx, hsep⟩, ih hl⟩

theorem no_whitespace_of_all {t : List Char} (h : t.all (fun c => !isWhitespace c) = true) :
    ∀ c ∈ t, isWhitespace c = false := fun c hc => by
  simpa using List.all_eq_true.mp h c hc

theorem FieldType.render_no_whitespace (t : FieldType) (h : t.Plain) :
    ∀ c ∈ t.render, isWhitespace c = false := by
  induction t with
  | enum values =>
      rw [render_enum]
      simp only [List.forall_mem_append]
      refine ⟨no_whitespace_of_all (by decide), forall_mem_intercalate (by decide) ?_,
        no_whitespace_of_all (by decide)⟩
      intro x hx
      obtain ⟨v, hv, rfl⟩ := List.mem_map.mp hx
      exact (h v hv).no_whitespace
  | reference target =>
      rw [render_reference, List.forall_mem_append]
      exact ⟨no_whitespace_of_all (by decide), Word.no_whitespace h⟩
  | array inner ih =>
      rw [render_array]
      simp only [List.forall_mem_append]
      exact ⟨no_whitespace_of_all (by decide), ih h, no_whitespace_of_all (by decide)⟩
  | _ => exact no_whitespace_of_all (by decide)

variable {d : FieldDef} {defs : List FieldDef}

theorem FieldDef.render_no_whitespace (h : d.Plain) : ∀ c ∈ d.render, isWhitespace c = false := by
  refine forall_mem_intercalate (by decide) fun x hx => ?_
  obtain rfl | hx := List.mem_cons.mp hx
  · exact h.1.no_whitespace
  obtain rfl | hx := List.mem_cons.mp hx
  · exact d.fieldType.render_no_whitespace h.2
  · obtain ⟨m, -, rfl⟩ := List.mem_map.mp hx
    exact m.word.no_whitespace

/-- The name and what is left of the type are at the start of a definition. -/
theorem FieldDef.render_eq {cut rest : List Char} (h : d.fieldType.render = cut ++ rest) :
    ∃ tail, d.render = d.name.toList ++ ':' :: (cut ++ (rest ++ tail)) ∧
      (tail = [] ∨ ∃ x, tail = ':' :: x) := by
  unfold render parts
  cases hm : d.modifiers.map Modifier.render with
  | nil =>
      refine ⟨[], ?_, .inl rfl⟩
      rw [List.intercalate_cons_cons, List.intercalate_singleton, h]
      simp only [List.append_assoc, List.singleton_append, List.append_nil]
  | cons m modifiers =>
      refine ⟨':' :: [':'].intercalate (m :: modifiers), ?_, .inr ⟨_, rfl⟩⟩
      rw [List.intercalate_cons_cons, List.intercalate_cons_cons, h]
      simp only [List.append_assoc, List.singleton_append]

/-- A definition whose type is not split is read as its field. -/
theorem FieldDef.parseField_render (h : d.Plain) (hcut : d.fieldType.Cut L d.fieldType.render [])
    (hparse : FieldType.parse L d.fieldType.render = d.fieldType) :
    ',' ∉ d.render ∧ parseField L d.render = some d.field := by
  have hclean : ∀ sep, wordChar sep = false → sep ∉ d.fieldType.render →
      ∀ x ∈ d.parts, sep ∉ x := by
    intro sep hsep htype x hx
    obtain rfl | hx := List.mem_cons.mp hx
    · exact h.1.not_mem hsep
    obtain rfl | hx := List.mem_cons.mp hx
    · exact htype
    · obtain ⟨m, -, rfl⟩ := List.mem_map.mp hx
      exact m.word.not_mem hsep
  have hne : d.render ≠ [] := by
    obtain ⟨tail, htail, -⟩ := FieldDef.render_eq (d := d) (List.append_nil _).symm
    rw [htail]
    exact List.append_ne_nil_of_right_ne_nil _ (List.cons_ne_nil _ _)
  constructor
  · have hcomma := hclean ',' (by decide) hcut.clean.1
    exact fun hmem => forall_mem_intercalate (P := (· ≠ ',')) (by decide)
      (fun x hx c hc heq => hcomma x hx (heq ▸ hc)) ',' hmem rfl
  · rw [parseField_eq (FieldDef.render_no_whitespace h) hne
      (List.splitOn_intercalate ':' (hclean ':' (by decide) hcut.clean.2) (List.cons_ne_nil _ _))
      h.1.no_whitespace (d.fieldType.render_no_whitespace h.2), foldl_modify_render, hparse,
      String.ofList_toList]
    simp [SchemaField.new, FieldDef.field]

theorem splitOn_of_stop {a b : List Char} (h : ':' ∉ a) (hb : b = [] ∨ ∃ b', b = ':' :: b') :
    ∃ more, (a ++ b).splitOn ':' = a :: more := by
  obtain rfl | ⟨b', rfl⟩ := hb
  · exact ⟨[], by rw [List.append_nil, List.splitOn_eq_singleton h]⟩
  · exact ⟨_, List.splitOn_append_cons_self_of_not_mem h b'⟩

theorem parseField_front {name cut q : List Char}
    (hspace : ∀ c ∈ name ++ ':' :: (cut ++ q), isWhitespace c = false) (hname : ':' ∉ name)
    (hcut : ':' ∉ cut) (hq : q = [] ∨ ∃ x, q = ':' :: x) :
    ∃ f, parseField L (name ++ ':' :: (cut ++ q)) = some f ∧
      f.fieldType = FieldType.parse L cut := by
  obtain ⟨more, hmore⟩ := splitOn_of_stop hcut hq
  have hparts : (name ++ ':' :: (cut ++ q)).splitOn ':' = name :: cut :: more := by
    rw [List.splitOn_append_cons_self_of_not_mem hname, hmore]
  have hne : name ++ ':' :: (cut ++ q) ≠ [] :=
    List.append_ne_nil_of_right_ne_nil _ (List.cons_ne_nil _ _)
  rw [List.forall_mem_append, List.forall_mem_cons, List.forall_mem_append] at hspace
  have hfield := parseField_eq (L := L) (List.forall_mem_append.mpr
    ⟨hspace.1, List.forall_mem_cons.mpr ⟨hspace.2.1, List.forall_mem_append.mpr hspace.2.2⟩⟩)
    hne hparts hspace.1 hspace.2.2.1
  exact ⟨_, hfield, foldl_modify_fieldType more _⟩

/-- Up to the first comma. -/
theorem exists_comma (t : List Char) :
    ∃ q r, t = q ++ r ∧ ',' ∉ q ∧ (r = [] ∨ ∃ x, r = ',' :: x) := by
  induction t with
  | nil => exact ⟨[], [], rfl, List.not_mem_nil, .inl rfl⟩
  | cons c t ih =>
      obtain ⟨q, r, rfl, hq, hr⟩ := ih
      by_cases hc : ',' = c
      · exact ⟨[], c :: (q ++ r), rfl, List.not_mem_nil, .inr ⟨q ++ r, by rw [hc]⟩⟩
      · exact ⟨c :: q, r, rfl, fun hmem => (List.mem_cons.mp hmem).elim hc hq, hr⟩

/-- The first field is of the type that is left. -/
theorem FieldDef.parseFields_cut (h : d.Plain) {cut rest : List Char}
    (hcut : d.fieldType.Cut L cut rest) {b : List Char} (hb : b = [] ∨ ∃ b', b = ',' :: b') :
    ∃ f more, parseFields L (d.render ++ b) = f :: more ∧
      f.fieldType = FieldType.parse L cut := by
  obtain ⟨tail, hrender, htail⟩ := d.render_eq hcut.render
  obtain ⟨q, r, hqr, hq, hr⟩ := exists_comma (rest ++ tail)
  have hstop : q = [] ∨ ∃ x, q = ':' :: x := by
    cases q with
    | nil => exact .inl rfl
    | cons c q =>
        have hc : ',' ≠ c := fun heq => hq (heq ▸ List.mem_cons_self)
        obtain rfl | ⟨e, x, rfl, he⟩ := hcut.stops
        · obtain rfl | ⟨x, rfl⟩ := htail
          · cases hqr
          · exact .inr ⟨q, by rw [(List.cons.inj hqr).1]⟩
        · rw [(List.cons.inj hqr).1] at he
          exact .inr ⟨q, by rw [he.resolve_left (Ne.symm hc)]⟩
  have hcomma : ',' ∉ d.name.toList ++ ':' :: (cut ++ q) := by
    simp only [List.mem_append, List.mem_cons, not_or]
    exact ⟨h.1.not_mem (by decide), by decide, hcut.clean.1, hq⟩
  have htext : d.render = d.name.toList ++ ':' :: (cut ++ q) ++ r := by
    rw [hrender, hqr]
    simp only [List.append_assoc, List.cons_append]
  have hend : r ++ b = [] ∨ ∃ b', r ++ b = ',' :: b' := by
    obtain rfl | ⟨x, rfl⟩ := hr
    · exact hb
    · exact .inr ⟨x ++ b, rfl⟩
  have hspace : ∀ c ∈ d.name.toList ++ ':' :: (cut ++ q), isWhitespace c = false := by
    have hall := d.render_no_whitespace h
    rw [htext, List.forall_mem_append] at hall
    exact hall.1
  obtain ⟨more, hmore⟩ := parseFields_of_stop (L := L) hcomma hend
  obtain ⟨f, hf, htype⟩ :=
    parseField_front (L := L) hspace (h.1.not_mem (by decide)) hcut.clean.2 hstop
  refine ⟨f, more, ?_, htype⟩
  rw [htext, List.append_assoc, hmore, hf, Option.toList_some, List.singleton_append]

/-! ### The round trip -/

theorem renderFields_cons (d : FieldDef) (defs : List FieldDef) : ∃ b,
    renderFields (d :: defs) = d.render ++ b ∧
      (defs = [] ∧ b = [] ∨ b = ',' :: renderFields defs) := by
  unfold renderFields
  cases defs with
  | nil =>
      refine ⟨[], ?_, .inl ⟨rfl, rfl⟩⟩
      rw [List.map_singleton, List.intercalate_singleton, List.append_nil]
  | cons e defs =>
      refine ⟨_, ?_, .inr rfl⟩
      rw [List.map_cons, List.map_cons, List.intercalate_cons_cons, List.append_assoc,
        List.singleton_append]

/-- Fields are read back just when no comma and no colon stands in their types. -/
theorem parse_fields_render_iff (L : Lowering) (defs : List FieldDef) (h : ∀ d ∈ defs, d.Plain) :
    parseFields L (renderFields defs) = defs.map FieldDef.field ↔
      ∀ d ∈ defs, d.fieldType.Unsplit := by
  induction defs with
  | nil => exact iff_of_true rfl fun d hd => (List.not_mem_nil hd).elim
  | cons d defs ih =>
      obtain ⟨hd, hdefs⟩ := List.forall_mem_cons.mp h
      obtain ⟨cut, rest, hcut⟩ := d.fieldType.exists_cut (L := L) hd.2
      obtain ⟨b, hrender, hb⟩ := renderFields_cons d defs
      rw [hrender, List.map_cons, List.forall_mem_cons]
      by_cases hsplit : d.fieldType.Unsplit
      · obtain rfl := hcut.whole hsplit
        have hwhole : cut = d.fieldType.render := by rw [hcut.render, List.append_nil]
        subst hwhole
        obtain ⟨hcomma, hfield⟩ := FieldDef.parseField_render hd hcut (hcut.parse_iff.mpr hsplit)
        have hrest : parseFields L (d.render ++ b) =
            d.field :: parseFields L (renderFields defs) := by
          obtain ⟨rfl, rfl⟩ | rfl := hb
          · rw [List.append_nil, parseFields_single hcomma, hfield]
            rfl
          · rw [parseFields_append hcomma, hfield, Option.toList_some, List.singleton_append]
        rw [hrest, List.cons.injEq, ← ih hdefs]
        exact ⟨fun heq => ⟨hsplit, heq.2⟩, fun heq => ⟨rfl, heq.2⟩⟩
      · obtain ⟨f, more, hparse, htype⟩ := FieldDef.parseFields_cut hd hcut
          (hb.imp And.right fun heq => ⟨_, heq⟩)
        rw [hparse, List.cons.injEq]
        refine iff_of_false (fun heq => ?_) fun hall => hsplit hall.1
        rw [heq.1] at htype
        exact hsplit (hcut.parse_iff.mp htype.symm)

/-- A list of strings that is required, and an enumeration of one value. -/
def tagFields : List FieldDef := [⟨"tags", .array .string, [.required]⟩,
    ⟨"kind", .enum ["post"], []⟩]

theorem parse_fields_render_required :
    parseFields asciiLowering (renderFields tagFields) = tagFields.map FieldDef.field ↔
      ∀ d ∈ tagFields, d.fieldType.Unsplit := by
  refine parse_fields_render_iff asciiLowering tagFields fun d hd => ?_
  obtain rfl | hd := List.mem_cons.mp hd
  · exact ⟨word_of_all (by decide), trivial⟩
  · obtain rfl := List.mem_singleton.mp hd
    exact ⟨word_of_all (by decide), fun v hv => List.mem_singleton.mp hv ▸ word_of_all (by decide)⟩

/-- The second value of an enumeration is a field of its own, and a reference is a type of strings.
-/
theorem parse_fields_splits :
    parseFields asciiLowering (renderFields [⟨"status", .enum ["pending", "active"], []⟩]) =
        [.new "status" .string, .new "active)" .string] ∧
      parseFields asciiLowering (renderFields [⟨"owner", .reference "users", []⟩]) =
        [.new "owner" .string] := by
  constructor
  · have hrender : renderFields [⟨"status", .enum ["pending", "active"], []⟩] =
        "status:enum(pending".toList ++ ',' :: "active)".toList := by decide
    have hparts : "status:enum(pending".toList.splitOn ':' =
        ["status".toList, "enum(".toList ++ "pending".toList] := by decide
    have hfirst := parseField_eq (L := asciiLowering) (no_whitespace_of_all (by decide)) (by decide)
      hparts (no_whitespace_of_all (by decide)) (no_whitespace_of_all (by decide))
    have hsecond : parseField asciiLowering "active)".toList = some (.new "active)" .string) := by
      decide
    rw [FieldType.parse_enum_open (by decide)] at hfirst
    rw [hrender, parseFields_append (by decide), parseFields_single (by decide), hfirst, hsecond]
    rfl
  · have hrender : renderFields [⟨"owner", .reference "users", []⟩] = "owner:ref:users".toList := by
      decide
    have hparts : "owner:ref:users".toList.splitOn ':' =
        ["owner".toList, "ref".toList, "users".toList] := by decide
    have hfield := parseField_eq (L := asciiLowering) (no_whitespace_of_all (by decide)) (by decide)
      hparts (no_whitespace_of_all (by decide)) (no_whitespace_of_all (by decide))
    rw [FieldType.parse_name (by decide) (by decide)] at hfield
    rw [hrender, parseFields_single (by decide), hfield]
    rfl

end AresaDb.Schemas
