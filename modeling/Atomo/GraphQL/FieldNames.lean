import Atomo.GraphQL.Context
import Atomo.Migrations.Statements

/-!
# Field names in both casings

`camel_keys` and `normalize_input_keys` against the columns of a model. A capital becomes an underscore with its small
letter, so in the name of a column an underscore stands before small letters only, and `snake_to_camel` takes it back.
The columns of the platform are those of names in camel case as well, so a record has a key for each of its columns
(`columns_eq`).
-/

namespace Atomo

/-! ## Conversions -/

/-- What the conversions rely on for the characters of identifiers. -/
structure CharCase.Ascii (cc : CharCase) : Prop where
  upper : ∀ c : Char, c.isUpper = true → cc.isUppercase c = true ∧ cc.toLowercase c = c.toLower
  digit : ∀ c : Char, c.isDigit = true → cc.isUppercase c = false ∧ cc.toLowercase c = c
  capital : ∀ c : Char, c.isLower = true → cc.toUppercase c = [c.toUpper]

/-- A lower camel-case identifier of ASCII. -/
def IsCamel (s : String) : Prop :=
  ∃ c l, s.toList = c :: l ∧ c.isLower = true ∧ ∀ d ∈ l, d.isAlphanum = true

/-- What a character of an identifier becomes in the name of a column. -/
def snakeChars (c : Char) : List Char :=
  if c.isUpper then ['_', c.toLower] else [c]

theorem toLower_toUpper {c : Char} (h : c.isUpper = true) :
    c.toLower.isLower = true ∧ c.toLower ≠ '_' ∧ c.toLower.toUpper = c := by
  have hall : ∀ n < 91, 65 ≤ n → (Char.ofNat n).toLower.isLower = true ∧ (Char.ofNat n).toLower ≠ '_' ∧
      (Char.ofNat n).toLower.toUpper = Char.ofNat n := by decide
  obtain ⟨hlow, hhigh⟩ := isUpper_iff.1 h
  simpa using hall c.toNat hhigh hlow

theorem not_isUpper_of_isDigit {c : Char} (h : c.isDigit = true) : c.isUpper = false := by
  cases hupper : c.isUpper with
  | false => rfl
  | true =>
    have hbounds := isUpper_iff.1 hupper
    simp only [Char.isDigit, Bool.and_eq_true, decide_eq_true_eq, UInt32.le_iff_toNat_le, ge_iff_le] at h
    have hnine : ('9'.val).toNat = 57 := rfl
    have hc : c.toNat = c.val.toNat := rfl
    omega

theorem CharCase.ascii_ascii : CharCase.ascii.Ascii where
  upper _ h := ⟨h, rfl⟩
  digit c h := by
    have hnot := not_isUpper_of_isDigit h
    exact ⟨hnot, dif_neg (of_decide_eq_false hnot)⟩
  capital _ _ := rfl

section Conversions

variable {cc : CharCase} (hcc : cc.Ascii)

include hcc

/-- A round of the loop of `to_snake_case`. -/
theorem snake_step {c : Char} {result : List Char} (hc : c.isAlphanum = true ∨ c = '_')
    (hresult : result ≠ [] ∨ c.isUpper = false) :
    (if cc.isUppercase c && !result.isEmpty then result ++ ['_'] else result) ++ [cc.toLowercase c] =
      result ++ snakeChars c := by
  unfold snakeChars
  cases hupper : c.isUpper with
  | true =>
    obtain ⟨huppercase, hlowercase⟩ := hcc.upper c hupper
    have hne : result ≠ [] := hresult.resolve_right (by simp [hupper])
    simp [huppercase, hlowercase, hne]
  | false =>
    have hself : cc.isUppercase c = false ∧ cc.toLowercase c = c := by
      by_cases hdigit : c.isDigit = true
      · exact hcc.digit c hdigit
      · refine cc.lower c (hc.imp_left fun halpha => ?_)
        have heq : c.isAlphanum = (c.isUpper || c.isLower || c.isDigit) := rfl
        simpa [heq, hupper, hdigit] using halpha
    simp [hself]

theorem foldl_snake {l result : List Char} (hl : ∀ d ∈ l, d.isAlphanum = true ∨ d = '_') (hresult : result ≠ []) :
    l.foldl (fun result c =>
      (if cc.isUppercase c && !result.isEmpty then result ++ ['_'] else result) ++ [cc.toLowercase c]) result =
      result ++ l.flatMap snakeChars := by
  induction l generalizing result with
  | nil => simp
  | cons d l ih =>
    rw [List.forall_mem_cons] at hl
    rw [List.foldl_cons, snake_step hcc hl.1 (.inl hresult), ih hl.2 (by simp [hresult])]
    simp

theorem toSnakeCase_cons {s : String} {c : Char} {l : List Char} (hs : s.toList = c :: l)
    (hc : c.isAlphanum = true ∨ c = '_') (hupper : c.isUpper = false)
    (hl : ∀ d ∈ l, d.isAlphanum = true ∨ d = '_') : toSnakeCase cc s = .ofList (c :: l.flatMap snakeChars) := by
  unfold toSnakeCase
  rw [hs, List.foldl_cons, snake_step hcc hc (.inr hupper), foldl_snake hcc hl (by simp [snakeChars, hupper])]
  simp [snakeChars, hupper]

theorem toSnakeCase_of_camel {s : String} {c : Char} {l : List Char} (hs : s.toList = c :: l) (hc : c.isLower = true)
    (hl : ∀ d ∈ l, d.isAlphanum = true) : toSnakeCase cc s = .ofList (c :: l.flatMap snakeChars) :=
  toSnakeCase_cons hcc hs (.inl (isAlphanum_of_isLower hc)) (not_isUpper_of_isLower hc)
    fun d hd => .inl (hl d hd)

omit hcc in
/-- The name of a column has no capitals. -/
theorem snakeChars_small {l : List Char} (hl : ∀ d ∈ l, d.isAlphanum = true) :
    ∀ d ∈ l.flatMap snakeChars, (d.isAlphanum = true ∨ d = '_') ∧ d.isUpper = false := by
  intro d hd
  obtain ⟨c, hc, hmem⟩ := List.mem_flatMap.1 hd
  unfold snakeChars at hmem
  split at hmem
  · rename_i hupper
    obtain ⟨hlower, -⟩ := toLower_toUpper hupper
    rcases List.mem_cons.1 hmem with rfl | hmem
    · decide
    · rw [List.mem_singleton.1 hmem]
      exact ⟨.inl (isAlphanum_of_isLower hlower), not_isUpper_of_isLower hlower⟩
  · rename_i hupper
    rw [List.mem_singleton.1 hmem]
    exact ⟨.inl (hl c hc), by simpa using hupper⟩

/-- The name of a column is its own. -/
theorem toSnakeCase_idem {s : String} (h : IsCamel s) : toSnakeCase cc (toSnakeCase cc s) = toSnakeCase cc s := by
  obtain ⟨c, l, hs, hc, hl⟩ := h
  have hsmall := snakeChars_small hl
  have hself : (l.flatMap snakeChars).flatMap snakeChars = l.flatMap snakeChars := by
    have heach : ∀ d ∈ l.flatMap snakeChars, snakeChars d = [d] := fun d hd => if_neg (by simp [(hsmall d hd).2])
    rw [List.flatMap_congr heach, List.flatMap_singleton']
  rw [toSnakeCase_of_camel hcc hs hc hl, toSnakeCase_cons hcc String.toList_ofList
    (.inl (isAlphanum_of_isLower hc)) (not_isUpper_of_isLower hc) fun d hd => (hsmall d hd).1, hself]

theorem snakeToCamelFrom_snake {l : List Char} (hl : ∀ d ∈ l, d.isAlphanum = true) :
    snakeToCamelFrom cc false (l.flatMap snakeChars) = l := by
  induction l with
  | nil => rfl
  | cons d l ih =>
    rw [List.forall_mem_cons] at hl
    have ih := ih hl.2
    rw [List.flatMap_cons, snakeChars]
    cases hupper : d.isUpper with
    | true =>
      obtain ⟨hlower, hne, hback⟩ := toLower_toUpper hupper
      simp [snakeToCamelFrom, hne, hcc.capital _ hlower, hback, ih]
    | false =>
      have hne : d ≠ '_' := by
        rintro rfl
        exact absurd hl.1 (by decide)
      simp [snakeToCamelFrom, hne, ih]

/-- The key of a record is the name that its column was made of. -/
theorem snakeToCamel_toSnakeCase {s : String} (h : IsCamel s) : snakeToCamel cc (toSnakeCase cc s) = s := by
  obtain ⟨c, l, hs, hc, hl⟩ := h
  have hne : c ≠ '_' := by
    rintro rfl
    exact absurd hc (by decide)
  rw [toSnakeCase_of_camel hcc hs hc hl]
  unfold snakeToCamel
  rw [String.toList_ofList]
  simp only [snakeToCamelFrom, if_neg hne, Bool.false_eq_true, if_false, snakeToCamelFrom_snake hcc hl]
  rw [← hs, String.ofList_toList]

/-- Names with one column are one name. -/
theorem toSnakeCase_inj {s t : String} (hs : IsCamel s) (ht : IsCamel t) (h : toSnakeCase cc s = toSnakeCase cc t) :
    s = t := by
  rw [← snakeToCamel_toSnakeCase hcc hs, h, snakeToCamel_toSnakeCase hcc ht]

end Conversions

namespace GraphQL

open Schema (Model lookup?)
open Db (Postgres Row rowToMap decode)
open Client (Record)
open Migrations (ColumnDef platformColumns tableColumns declaredColumn)

/-! ## Records -/

/-- A model with field names in camel case. -/
structure CamelFields (model : Model) : Prop where
  nodup : (model.fields.map Prod.fst).Nodup
  named : ∀ entry ∈ model.fields, entry.2.name = entry.1
  camel : ∀ entry ∈ model.fields, IsCamel entry.1

/-- The names of the platform's columns. -/
def platformNames : List String :=
  ["createdAt", "updatedAt", "deletedAt", "tenantId"]

/-- The keys of a record: the declared names, and those of the platform's columns that are not declared. -/
def apiNames (model : Model) : List String :=
  model.fields.map Prod.fst ++ platformNames.filter fun name => name ∉ model.fields.map Prod.fst

/-- A field of an input object: its name, whether it is spelled as its column is, and its value. -/
structure Spelled where
  field : String
  asColumn : Bool
  value : Json

variable (cc : CharCase)

def Spelled.entry (s : Spelled) : String × Json :=
  (if s.asColumn then toSnakeCase cc s.field else s.field, s.value)

/-- The columns of the table of a model. -/
def columnNames (model : Model) : List String :=
  (tableColumns cc model).map ColumnDef.name

theorem platformNames_camel : ∀ name ∈ platformNames, IsCamel name := by
  intro name hname
  simp only [platformNames, List.mem_cons, List.not_mem_nil, or_false] at hname
  rcases hname with rfl | rfl | rfl | rfl
  · exact ⟨'c', ['r', 'e', 'a', 't', 'e', 'd', 'A', 't'], rfl, rfl, by simp⟩
  · exact ⟨'u', ['p', 'd', 'a', 't', 'e', 'd', 'A', 't'], rfl, rfl, by simp⟩
  · exact ⟨'d', ['e', 'l', 'e', 't', 'e', 'd', 'A', 't'], rfl, rfl, by simp⟩
  · exact ⟨'t', ['e', 'n', 'a', 'n', 't', 'I', 'd'], rfl, rfl, by simp⟩

theorem insertKey_of_notMem {key : String} {value : Json} {data : Record} (h : key ∉ data.map Prod.fst) :
    insertKey key value data = data ++ [(key, value)] := by
  induction data with
  | nil => rfl
  | cons entry data ih =>
    rw [List.map_cons, List.mem_cons, not_or] at h
    rw [insertKey, if_neg (Ne.symm h.1), ih h.2, List.cons_append]

/-- Entries with keys of their own are all kept. -/
theorem collect_of_nodup {entries : Record} (h : (entries.map Prod.fst).Nodup) : collect entries = entries := by
  have hfold : ∀ (entries data : Record), ((data ++ entries).map Prod.fst).Nodup →
      entries.foldl (fun data entry => insertKey entry.1 entry.2 data) data = data ++ entries := by
    intro entries
    induction entries with
    | nil => simp
    | cons entry entries ih =>
      intro data hnodup
      have hfresh : entry.1 ∉ data.map Prod.fst := by
        rw [List.map_append, List.map_cons, List.nodup_append] at hnodup
        exact fun hmem => hnodup.2.2 _ hmem _ List.mem_cons_self rfl
      have hassoc : data ++ entry :: entries = data ++ [entry] ++ entries := by simp
      rw [List.foldl_cons, insertKey_of_notMem hfresh, hassoc]
      rw [hassoc] at hnodup
      exact ih _ hnodup
  exact hfold entries [] h

section Names

variable {cc : CharCase} {model : Model} (hcc : cc.Ascii) (h : CamelFields model)

include h

theorem CamelFields.mem_camel {name : String} (hname : name ∈ model.fields.map Prod.fst) : IsCamel name := by
  obtain ⟨entry, hentry, rfl⟩ := List.mem_map.1 hname
  exact h.camel entry hentry

theorem apiNames_camel : ∀ name ∈ apiNames model, IsCamel name := by
  intro name hname
  rcases List.mem_append.1 hname with hname | hname
  · exact h.mem_camel hname
  · exact platformNames_camel name (List.mem_of_mem_filter hname)

theorem apiNames_nodup : (apiNames model).Nodup := by
  refine List.nodup_append.2 ⟨h.nodup, List.Nodup.filter _ (by decide), ?_⟩
  rintro name hname _ hplatform rfl
  exact absurd hname (by simpa using (List.mem_filter.1 hplatform).2)

include hcc

theorem columns_nodup : ((apiNames model).map (toSnakeCase cc)).Nodup :=
  List.Nodup.map_on (fun _ hs _ ht heq => toSnakeCase_inj hcc (apiNames_camel h _ hs) (apiNames_camel h _ ht) heq)
    (apiNames_nodup h)

omit h in
/-- The columns of the platform are those of its names. -/
theorem platformColumns_eq : platformColumns.map ColumnDef.name = platformNames.map (toSnakeCase cc) := by
  have hcreated : toSnakeCase cc "createdAt" = "created_at" :=
    (toSnakeCase_of_camel hcc (l := ['r', 'e', 'a', 't', 'e', 'd', 'A', 't']) rfl rfl (by simp)).trans (by decide)
  have hupdated : toSnakeCase cc "updatedAt" = "updated_at" :=
    (toSnakeCase_of_camel hcc (l := ['p', 'd', 'a', 't', 'e', 'd', 'A', 't']) rfl rfl (by simp)).trans (by decide)
  have hdeleted : toSnakeCase cc "deletedAt" = "deleted_at" :=
    (toSnakeCase_of_camel hcc (l := ['e', 'l', 'e', 't', 'e', 'd', 'A', 't']) rfl rfl (by simp)).trans (by decide)
  have htenant : toSnakeCase cc "tenantId" = "tenant_id" :=
    (toSnakeCase_of_camel hcc (l := ['e', 'n', 'a', 'n', 't', 'I', 'd']) rfl rfl (by simp)).trans (by decide)
  simp [platformColumns, platformNames, hcreated, hupdated, hdeleted, htenant]

/-- A platform name is declared if its column is. -/
theorem declared_iff {name : String} (hname : name ∈ platformNames) :
    toSnakeCase cc name ∈ (model.fields.map Prod.fst).map (toSnakeCase cc) ↔ name ∈ model.fields.map Prod.fst := by
  refine ⟨fun hmem => ?_, fun hmem => List.mem_map_of_mem hmem⟩
  obtain ⟨field, hfield, heq⟩ := List.mem_map.1 hmem
  rwa [← toSnakeCase_inj hcc (h.mem_camel hfield) (platformNames_camel name hname) heq]

omit hcc in
theorem declared_eq : (model.fields.map fun (_, field) => declaredColumn cc field).map ColumnDef.name =
    (model.fields.map Prod.fst).map (toSnakeCase cc) := by
  rw [List.map_map, List.map_map]
  refine List.map_congr_left ?_
  rintro ⟨key, field⟩ hentry
  have hname : field.name = key := h.named _ hentry
  rw [Function.comp_apply, Function.comp_apply, ← hname]
  dsimp only [declaredColumn]
  split <;> rfl

/-- Each column is that of a name. -/
theorem columns_eq : columnNames cc model = (apiNames model).map (toSnakeCase cc) := by
  have hplatform : (platformColumns.filter fun c => c.name ∉ (model.fields.map Prod.fst).map (toSnakeCase cc)).map
      ColumnDef.name = (platformNames.filter fun name => name ∉ model.fields.map Prod.fst).map (toSnakeCase cc) := by
    calc
      _ = (platformColumns.map ColumnDef.name).filter
            fun name => name ∉ (model.fields.map Prod.fst).map (toSnakeCase cc) := List.filter_map.symm
      _ = (platformNames.filter
            fun name => toSnakeCase cc name ∉ (model.fields.map Prod.fst).map (toSnakeCase cc)).map (toSnakeCase cc) := by
        rw [platformColumns_eq hcc]
        exact List.filter_map
      _ = _ := by
        refine congrArg _ (List.filter_congr fun name hname => ?_)
        exact decide_eq_decide.2 (not_congr (declared_iff hcc h hname))
  unfold columnNames tableColumns apiNames
  dsimp only
  rw [List.map_append, List.map_append, declared_eq h, hplatform]

/-- A record has a key for each column. -/
theorem camelKeys_rowToMap (pg : Postgres) (row : Row) :
    camelKeys cc (rowToMap pg (columnNames cc model) row) =
      (apiNames model).map fun name => (name, decode pg (row.get (toSnakeCase cc name))) := by
  have hmap : (rowToMap pg (columnNames cc model) row).map (fun entry => (snakeToCamel cc entry.1, entry.2)) =
      (apiNames model).map fun name => (name, decode pg (row.get (toSnakeCase cc name))) := by
    rw [columns_eq hcc h]
    unfold rowToMap
    rw [List.map_map, List.map_map]
    refine List.map_congr_left fun name hname => ?_
    simp only [Function.comp_apply]
    rw [snakeToCamel_toSnakeCase hcc (apiNames_camel h name hname)]
  unfold camelKeys
  rw [hmap]
  refine collect_of_nodup ?_
  rw [List.map_map]
  exact (List.map_id (apiNames model)).symm ▸ apiNames_nodup h

omit hcc h in
theorem isSome_lookup?_iff {key : String} : (lookup? key model.fields).isSome = true ↔ key ∈ model.fields.map Prod.fst := by
  simp [lookup?]

/-- The name in the schema for a declared name, however it is spelled. -/
theorem canonicalKey_spelled {s : Spelled} (hs : s.field ∈ model.fields.map Prod.fst) :
    canonicalKey cc model (s.entry cc).1 = s.field := by
  have hsnake : toSnakeCase cc (s.entry cc).1 = toSnakeCase cc s.field := by
    unfold Spelled.entry
    split
    · exact toSnakeCase_idem hcc (h.mem_camel hs)
    · rfl
  have hsame : ∀ name ∈ model.fields.map Prod.fst, toSnakeCase cc name = toSnakeCase cc (s.entry cc).1 → name = s.field :=
    fun name hname heq => toSnakeCase_inj hcc (h.mem_camel hname) (h.mem_camel hs) (heq.trans hsnake)
  unfold canonicalKey
  split
  · rename_i hsome
    exact hsame _ (isSome_lookup?_iff.1 hsome) rfl
  · split
    · rename_i field hfind
      exact hsame field.1 (List.mem_map_of_mem (List.mem_of_find?_eq_some hfind)) (by simpa using List.find?_some hfind)
    · rename_i hfind
      obtain ⟨entry, hentry, heq⟩ := List.mem_map.1 hs
      have hnot := List.find?_eq_none.1 hfind entry hentry
      rw [heq, hsnake] at hnot
      simp at hnot

/-- A platform name that is not declared is left as it is. -/
theorem canonicalKey_apiName {name : String} (hname : name ∈ apiNames model) : canonicalKey cc model name = name := by
  unfold canonicalKey
  split
  · rfl
  · split
    · rename_i field hfind
      have hfield := List.mem_map_of_mem (f := Prod.fst) (List.mem_of_find?_eq_some hfind)
      exact toSnakeCase_inj hcc (h.mem_camel hfield) (apiNames_camel h name hname) (by simpa using List.find?_some hfind)
    · rfl

end Names

/-- Fields have columns of their own, a record has a key for each of its columns, named as declared or as the platform
names it, an input object that spells fields either way is read as one of their names, and a record that is written
back addresses the columns that it was read from. -/
theorem names_survive {cc : CharCase} (hcc : cc.Ascii) (pg : Postgres) {schema : Atomo.Schema} {modelName : String}
    {model : Model} (hmodel : schema.model? modelName = some model) (h : CamelFields model) :
    (model.fields.map fun entry => toSnakeCase cc entry.1).Nodup ∧
    (apiNames model).Nodup ∧ columnNames cc model = (apiNames model).map (toSnakeCase cc) ∧
    (∀ row, camelKeys cc (rowToMap pg (columnNames cc model) row) =
      (apiNames model).map fun name => (name, decode pg (row.get (toSnakeCase cc name)))) ∧
    (∀ input : List Spelled, (∀ s ∈ input, s.field ∈ model.fields.map Prod.fst) → (input.map Spelled.field).Nodup →
      normalizeInputKeys cc schema modelName (input.map (Spelled.entry cc)) = input.map fun s => (s.field, s.value)) ∧
    ∀ row, (normalizeInputKeys cc schema modelName (camelKeys cc (rowToMap pg (columnNames cc model) row))).map
      (fun entry => (toSnakeCase cc entry.1, entry.2)) = rowToMap pg (columnNames cc model) row := by
  refine ⟨?_, apiNames_nodup h, columns_eq hcc h, camelKeys_rowToMap hcc h pg, fun input hfields hnodup => ?_,
    fun row => ?_⟩
  · have hcolumns := columns_nodup hcc h
    unfold apiNames at hcolumns
    rw [List.map_append, List.map_map] at hcolumns
    exact (List.nodup_append.1 hcolumns).1
  · have hkeys : (input.map (Spelled.entry cc)).map (fun entry => (canonicalKey cc model entry.1, entry.2)) =
        input.map fun s => (s.field, s.value) := by
      rw [List.map_map]
      refine List.map_congr_left fun s hs => ?_
      rw [Function.comp_apply, canonicalKey_spelled hcc h (hfields s hs)]
      rfl
    unfold normalizeInputKeys
    rw [hmodel]
    dsimp only
    rw [hkeys]
    refine collect_of_nodup ?_
    rw [List.map_map]
    exact hnodup
  · have hkeys : ((apiNames model).map fun name => (name, decode pg (row.get (toSnakeCase cc name)))).map
        (fun entry => (canonicalKey cc model entry.1, entry.2)) =
        (apiNames model).map fun name => (name, decode pg (row.get (toSnakeCase cc name))) := by
      rw [List.map_map]
      refine List.map_congr_left fun name hname => ?_
      rw [Function.comp_apply, canonicalKey_apiName hcc h hname]
    have hnodup : (((apiNames model).map fun name => (name, decode pg (row.get (toSnakeCase cc name)))).map
        Prod.fst).Nodup := by
      rw [List.map_map]
      exact (List.map_id (apiNames model)).symm ▸ apiNames_nodup h
    unfold normalizeInputKeys
    rw [hmodel, camelKeys_rowToMap hcc h]
    dsimp only
    rw [hkeys, collect_of_nodup hnodup, columns_eq hcc h]
    unfold rowToMap
    rw [List.map_map, List.map_map]
    rfl

/-- A model with a run of capitals and a digit in a name. -/
def deviceModel : Model where
  name := "Device"
  fields := [("id", { name := "id", fieldType := .entityId, optional := false }),
    ("lastIPv4", { name := "lastIPv4", fieldType := .string, optional := true })]

theorem names_survive_device :
    normalizeInputKeys .ascii { models := [("Device", deviceModel)] } "Device"
        [("last_i_pv4", .string "10.0.0.1"), ("id", .string "d1")] =
      [("lastIPv4", .string "10.0.0.1"), ("id", .string "d1")] := by
  have hfields : CamelFields deviceModel := by
    refine ⟨by decide, by decide, fun entry hentry => ?_⟩
    simp only [deviceModel, List.mem_cons, List.not_mem_nil, or_false] at hentry
    rcases hentry with rfl | rfl
    · exact ⟨'i', ['d'], rfl, rfl, by simp⟩
    · exact ⟨'l', ['a', 's', 't', 'I', 'P', 'v', '4'], rfl, rfl, by simp⟩
  have hspelled : toSnakeCase .ascii "lastIPv4" = "last_i_pv4" := by decide
  have hmodel : ({ models := [("Device", deviceModel)] } : Atomo.Schema).model? "Device" = some deviceModel := by
    simp [Schema.model?, lookup?]
  have hsurvive := (names_survive CharCase.ascii_ascii .bare hmodel hfields).2.2.2.2.1
    [⟨"lastIPv4", true, .string "10.0.0.1"⟩, ⟨"id", false, .string "d1"⟩] (by decide) (by decide)
  simpa [Spelled.entry, hspelled] using hsurvive

end GraphQL

end Atomo
