import Atomo.TypeScript.Interfaces

/-!
# Properties of an interface

`parse_schema` has a field for a property that its piece of the body shows: one before which no brace closes and no
comment begins, and whose type begins on the line of its name and has no bar up to the next semicolon or line. All other
properties are dropped, and the one warning that names such a property is that about a validation rule for it
(`property_iff`).
-/

namespace Atomo.TypeScript

open Pattern (Item Match Passes Reads find matchAt)
open Schema
open Dsl

/-! ## Warnings -/

/-- That a model has no field of this name. -/
def fieldWarning (name key : String) : String :=
  "schema.models." ++ name ++ ".validation: '" ++ key ++ "' is not a field of '" ++ name ++ "' — rules never applied"

section Warnings

variable (u : Unicode)

/-- The keys in the validation blocks of a model, as the diagnostics come upon them. -/
def validationKeys (content : List Char) (name : String) : List String :=
  let entries : Option (List (String × List Char)) := do
    let m ← find [text "schema", blanks, mark '=', blanks, mark '\x7b'] content
    let schema ← (balancedBody bareBraces content (endOf m)).join
    let block ← (subBlock schema "models").join
    topLevelEntries u block
  (entries.getD []).flatMap fun entry => if entry.1 = name then (blockKeys u entry.2 "validation").getD [] else []

variable {u}

theorem toList_fieldWarning (name key : String) :
    (fieldWarning name key).toList = "schema.models.".toList ++ (name.toList ++ '.' :: ("validation: '".toList ++
      (key.toList ++ '\'' :: (" is not a field of '".toList ++ (name.toList ++ "' — rules never applied".toList))))) := by
  have hdot : ".validation: '".toList = '.' :: "validation: '".toList := by simp
  have hquote : "' is not a field of '".toList = '\'' :: " is not a field of '".toList := by simp
  unfold fieldWarning
  simp only [String.toList_append, List.append_assoc, hdot, hquote, List.cons_append]

/-- Texts about a model that go on behind its name with something else than a letter. -/
theorem model_of_start {name name' rest rest' : List Char} {c c' : Char} (hname : ∀ c ∈ name, u.isWord c = true)
    (hname' : ∀ c ∈ name', u.isWord c = true) (hc : u.isWord c = false) (hc' : u.isWord c' = false)
    (h : "schema.models.".toList ++ (name ++ c :: rest) = "schema.models.".toList ++ (name' ++ c' :: rest')) :
    name = name' ∧ c = c' ∧ rest = rest' := by
  have hhead : ∀ {c : Char} {rest : List Char}, u.isWord c = false → ∀ d ∈ (c :: rest).head?, u.isWord d = false := by
    intro c rest hc d hd
    cases hd
    exact hc
  obtain ⟨hsame, hrest⟩ := Pattern.append_head_inj hname (hhead hc) hname' (hhead hc') (List.append_cancel_left h)
  exact ⟨hsame, List.cons.inj hrest⟩

theorem fieldWarning_inj (hu : u.Lawful) {name key name' key' : String} (hname : ∀ c ∈ name.toList, u.isWord c = true)
    (hname' : ∀ c ∈ name'.toList, u.isWord c = true) (hkey : ∀ c ∈ key.toList, u.isWord c = true)
    (hkey' : ∀ c ∈ key'.toList, u.isWord c = true) (h : fieldWarning name key = fieldWarning name' key') :
    name = name' ∧ key = key' := by
  have htext := congrArg String.toList h
  rw [toList_fieldWarning, toList_fieldWarning] at htext
  obtain ⟨hsame, -, hrest⟩ := model_of_start hname hname' (dot_of_lawful hu) (dot_of_lawful hu) htext
  have hquote : ∀ l : List Char, ∀ c ∈ ('\'' :: l).head?, u.isWord c = false := by
    intro l c hc
    cases hc
    rw [hu.ascii _ (by decide)]
    decide
  obtain ⟨hkeys, -⟩ := Pattern.append_head_inj hkey (hquote _) hkey' (hquote _) (List.append_cancel_left hrest)
  exact ⟨String.toList_inj.1 hsame, String.toList_inj.1 hkeys⟩

/-- A text that does not begin with `schema.models.` is another. -/
theorem ne_fieldWarning_of_head {w name key : String} (h : ¬ "schema.models.".toList <+: w.toList) :
    w ≠ fieldWarning name key := by
  rintro rfl
  rw [toList_fieldWarning] at h
  exact h (List.prefix_append _ _)

/-- So is one about a model that goes on with something else. -/
theorem ne_fieldWarning_of_rest (hu : u.Lawful) {name key name' : String} (hname : ∀ c ∈ name.toList, u.isWord c = true)
    (hname' : ∀ c ∈ name'.toList, u.isWord c = true) {c : Char} (hc : u.isWord c = false) (rest : List Char)
    (hrest : c = '.' → rest.head? ≠ some 'v') {w : String}
    (hw : w.toList = "schema.models.".toList ++ (name'.toList ++ c :: rest)) : w ≠ fieldWarning name key := by
  rintro rfl
  rw [toList_fieldWarning] at hw
  obtain ⟨-, rfl, rfl⟩ := model_of_start hname hname' (dot_of_lawful hu) hc hw
  have hvalidation : "validation: '".toList = 'v' :: "alidation: '".toList := by simp
  refine hrest rfl ?_
  rw [hvalidation]
  rfl

section Entry

variable {name key name' : String} {models : List (String × Model)} {block : List Char}

theorem ne_fieldWarning_relationship (hu : u.Lawful) (hname : ∀ c ∈ name.toList, u.isWord c = true)
    (hname' : ∀ c ∈ name'.toList, u.isWord c = true) {rel : String} {rdef : List Char} {warnings : List String}
    (h : relationshipDiagnostics u name' rel rdef = some warnings) : fieldWarning name key ∉ warnings := by
  have hdot : ".relationships.".toList = '.' :: 'r' :: "elationships.".toList := by simp
  unfold relationshipDiagnostics at h
  obtain ⟨keys, -, h⟩ := Option.bind_eq_some_iff.1 h
  cases h
  intro hmem
  rcases List.mem_append.1 hmem with hmem | hmem
  · split at hmem
    · exact absurd hmem List.not_mem_nil
    · refine ne_fieldWarning_of_rest hu hname hname' (dot_of_lawful hu) ('r' :: ("elationships.".toList ++ (rel.toList ++
        ": missing 'type'/'model' — ignored".toList))) (fun _ h => by cases h) ?_ (List.mem_singleton.1 hmem).symm
      simp only [String.toList_append, List.append_assoc, hdot, List.cons_append]
  · obtain ⟨key', -, heq⟩ := List.mem_map.1 hmem
    refine ne_fieldWarning_of_rest hu hname hname' (dot_of_lawful hu) ('r' :: ("elationships.".toList ++ (rel.toList ++
      (": unrecognized key '".toList ++ (key'.toList ++ "' ignored".toList))))) (fun _ h => by cases h) ?_ heq
    simp only [String.toList_append, List.append_assoc, hdot, List.cons_append]

/-- The diagnostics of an entry say of a model that it has no field of a name just where a rule is written for it. -/
theorem mem_entryDiagnostics (hu : u.Lawful) (hname : ∀ c ∈ name.toList, u.isWord c = true)
    (hkey : ∀ c ∈ key.toList, u.isWord c = true) (hname' : ∀ c ∈ name'.toList, u.isWord c = true) {warnings : List String}
    (h : entryDiagnostics u models name' block = some warnings) :
    fieldWarning name key ∈ warnings ↔ name' = name ∧ key ∈ (blockKeys u block "validation").getD [] ∧
      ∃ model, lookup? name models = some model ∧ lookup? key model.fields = none := by
  have hcolon : ": unrecognized key '".toList = ':' :: " unrecognized key '".toList := by simp
  have hdot : ".access: unrecognized key '".toList = '.' :: 'a' :: "ccess: unrecognized key '".toList := by simp
  unfold entryDiagnostics at h
  simp only [Option.bind_eq_bind, Option.bind_eq_some_iff] at h
  obtain ⟨keys, -, accessKeys, -, validationKeys, hvalidation, relationships, -, relationshipWarnings, hrelationships,
    h⟩ := h
  cases h
  rw [hvalidation, Option.getD_some]
  constructor
  · intro hmem
    rcases List.mem_append.1 hmem with hmem | hmem
    · rcases List.mem_append.1 hmem with hmem | hmem
      · rcases List.mem_append.1 hmem with hmem | hmem
        · obtain ⟨key', -, heq⟩ := List.mem_map.1 hmem
          refine absurd heq (ne_fieldWarning_of_rest hu hname hname' (colon_of_lawful hu) (" unrecognized key '".toList ++
            (key'.toList ++ ("' ignored (known: ".toList ++ ((", ".intercalate ["tableName", "validation", "access",
              "relationships", "events", "ui"]).toList ++ ")".toList)))) (fun h => by cases h) ?_)
          simp only [String.toList_append, List.append_assoc, hcolon, List.cons_append]
        · obtain ⟨key', -, heq⟩ := List.mem_map.1 hmem
          refine absurd heq (ne_fieldWarning_of_rest hu hname hname' (dot_of_lawful hu) ('a' ::
            ("ccess: unrecognized key '".toList ++ (key'.toList ++
              "' ignored (known: create, read, update, delete)".toList)))
            (fun _ h => by cases h) ?_)
          simp only [String.toList_append, List.append_assoc, hdot, List.cons_append]
      · cases hmodel : lookup? name' models with
        | none =>
          rw [hmodel] at hmem
          exact absurd hmem List.not_mem_nil
        | some model =>
          rw [hmodel] at hmem
          obtain ⟨key', hkeys, heq⟩ := List.mem_map.1 hmem
          obtain ⟨hkeys, hnone⟩ := List.mem_filter.1 hkeys
          obtain ⟨rfl, rfl⟩ := fieldWarning_inj hu hname' hname (word_of_blockKeys hvalidation key' hkeys) hkey heq
          exact ⟨rfl, hkeys, model, hmodel, Option.isNone_iff_eq_none.1 hnone⟩
    · obtain ⟨warnings, hwarnings, hmem⟩ := List.mem_flatten.1 hmem
      obtain ⟨⟨rel, rdef⟩, -, hread⟩ := (mem_of_mapM hrelationships).2 warnings hwarnings
      exact absurd hmem (ne_fieldWarning_relationship hu hname hname' hread)
  · rintro ⟨rfl, hkeys, model, hmodel, hnone⟩
    refine List.mem_append_left _ (List.mem_append_right _ ?_)
    rw [hmodel]
    exact List.mem_map.2 ⟨key, List.mem_filter.2 ⟨hkeys, Option.isNone_iff_eq_none.2 hnone⟩, rfl⟩

end Entry

/-- So do those of all entries. -/
theorem mem_entriesDiagnostics (hu : u.Lawful) {block : List Char} {name key : String}
    (hname : ∀ c ∈ name.toList, u.isWord c = true) (hkey : ∀ c ∈ key.toList, u.isWord c = true)
    {models : List (String × Model)} {entries : List (String × List Char)}
    (hentries : topLevelEntries u block = some entries) {warnings : List (List String)}
    (h : entries.mapM (fun entry => entryDiagnostics u models entry.1 entry.2) = some warnings) :
    fieldWarning name key ∈ warnings.flatten ↔
      key ∈ (entries.flatMap fun entry => if entry.1 = name then (blockKeys u entry.2 "validation").getD [] else []) ∧
        ∃ model, lookup? name models = some model ∧ lookup? key model.fields = none := by
  have hword := word_of_topLevelEntries hentries
  rw [List.mem_flatten, List.mem_flatMap]
  constructor
  · rintro ⟨own, hown, hmem⟩
    obtain ⟨entry, hentry, hread⟩ := (mem_of_mapM h).2 own hown
    obtain ⟨hsame, hkeys, hmodel⟩ := (mem_entryDiagnostics hu hname hkey (hword entry hentry) hread).1 hmem
    exact ⟨⟨entry, hentry, by rwa [if_pos hsame]⟩, hmodel⟩
  · rintro ⟨⟨entry, hentry, hkeys⟩, hmodel⟩
    obtain ⟨own, hown, hread⟩ := (mem_of_mapM h).1 entry hentry
    split at hkeys
    · rename_i hsame
      exact ⟨own, hown, (mem_entryDiagnostics hu hname hkey (hword entry hentry) hread).2 ⟨hsame, hkeys, hmodel⟩⟩
    · exact absurd hkeys List.not_mem_nil

theorem mem_modelBlockDiagnostics (hu : u.Lawful) {content : List Char} {name key : String}
    (hname : ∀ c ∈ name.toList, u.isWord c = true) (hkey : ∀ c ∈ key.toList, u.isWord c = true)
    {models : List (String × Model)} {warnings : List String} (h : modelBlockDiagnostics u content models = some warnings) :
    fieldWarning name key ∈ warnings ↔ key ∈ validationKeys u content name ∧
      ∃ model, lookup? name models = some model ∧ lookup? key model.fields = none := by
  have hspread : ∀ (block : List Char) (text : String), ¬ "schema.models.".toList <+: text.toList →
      fieldWarning name key ∉ (if hasToplevelSpread block = true then [text] else []) := by
    intro block text hhead hmem
    split at hmem
    · exact ne_fieldWarning_of_head hhead (List.mem_singleton.1 hmem).symm
    · exact absurd hmem List.not_mem_nil
  have hschemaSpread := fun block => hspread block
    "spread expression in `export const schema` cannot be resolved statically — spread content is dropped"
    (by rintro ⟨x, hx⟩; simp at hx)
  have hmodelSpread := fun block => hspread block
    "spread expression in schema.models cannot be resolved statically — declare the model explicitly"
    (by rintro ⟨x, hx⟩; simp at hx)
  have hempty : ∀ {p : Prop}, (key ∈ ([] : List String) ∧ p) ↔ False :=
    ⟨fun hmem => absurd hmem.1 List.not_mem_nil, False.elim⟩
  unfold modelBlockDiagnostics at h
  unfold validationKeys
  dsimp only
  cases hfind : find [text "schema", blanks, mark '=', blanks, mark '\x7b'] content with
  | none =>
    rw [hfind] at h
    cases h
    exact (iff_of_false List.not_mem_nil id).trans hempty.symm
  | some m =>
    rw [hfind] at h
    obtain ⟨schemaBlock, hschema, h⟩ := Option.bind_eq_some_iff.1 h
    simp only [Option.bind_eq_bind, Option.bind_some, hschema, Option.join_some]
    cases schemaBlock with
    | none =>
      cases h
      exact (iff_of_false List.not_mem_nil id).trans hempty.symm
    | some schemaBlock =>
      obtain ⟨modelsBlock, hmodels, h⟩ := Option.bind_eq_some_iff.1 h
      simp only [Option.bind_some, hmodels, Option.join_some]
      cases modelsBlock with
      | none =>
        cases h
        exact (iff_of_false (hschemaSpread schemaBlock) id).trans hempty.symm
      | some modelsBlock =>
        obtain ⟨found, hfound, h⟩ := Option.bind_eq_some_iff.1 h
        obtain ⟨entryWarnings, hentries, h⟩ := Option.bind_eq_some_iff.1 h
        cases h
        rw [Option.bind_some, hfound, Option.getD_some, List.mem_append, List.mem_append,
          or_iff_right (hschemaSpread schemaBlock), or_iff_right (hmodelSpread modelsBlock)]
        exact mem_entriesDiagnostics hu hname hkey hfound hentries

/-- The one warning about a property that is no field. -/
theorem mem_warnings {lib : Library} (hu : lib.toUnicode.Lawful) {content : List Char} {schema : Atomo.Schema}
    {models : List Model} {metadata : List (String × ModelMetadata)} {entries : List (String × List Char)}
    (h : Parsed lib content schema models metadata entries) {name key : String}
    (hname : ∀ c ∈ name.toList, lib.isWord c = true) (hkey : ∀ c ∈ key.toList, lib.isWord c = true) :
    fieldWarning name key ∈ schema.warnings ↔ key ∈ validationKeys lib.toUnicode content name ∧
      ∃ model, lookup? name schema.models = some model ∧ lookup? key model.fields = none := by
  obtain ⟨blockWarnings, hblock, hwarnings⟩ := h.warnings
  have hdeclared : fieldWarning name key ∉ (declaredModels (entries.map (·.1)) (withMetadata metadata models)).2 := by
    intro hmem
    rcases List.mem_append.1 hmem with hmem | hmem
    · obtain ⟨model, -, heq⟩ := List.mem_map.1 hmem
      exact ne_fieldWarning_of_head (by rintro ⟨x, hx⟩; simp at hx) heq
    · obtain ⟨entry, -, heq⟩ := List.mem_map.1 hmem
      exact ne_fieldWarning_of_head (by rintro ⟨x, hx⟩; simp at hx) heq
  have hreserved : fieldWarning name key ∉ reservedIdentifierWarnings lib.toUnicode schema.models := by
    intro hmem
    obtain ⟨model, -, hmem⟩ := List.mem_flatMap.1 hmem
    split at hmem
    · exact absurd hmem List.not_mem_nil
    · rcases List.mem_append.1 hmem with hmem | hmem
      · split at hmem
        · exact ne_fieldWarning_of_head (by rintro ⟨x, hx⟩; simp at hx) (List.mem_singleton.1 hmem).symm
        · exact absurd hmem List.not_mem_nil
      · obtain ⟨field, -, heq⟩ := List.mem_filterMap.1 hmem
        dsimp only at heq
        split at heq
        · exact ne_fieldWarning_of_head (by rintro ⟨x, hx⟩; simp at hx) (Option.some.inj heq)
        · cases heq
  rw [hwarnings, List.mem_append, List.mem_append, or_iff_left hreserved, or_iff_right hdeclared]
  exact mem_modelBlockDiagnostics hu hname hkey hblock

end Warnings

/-! ## Fields -/

/-- An annotation of its own: no part of a longer word, nor of the one with two signs, which is about the model. -/
def Annotated (u : Unicode) (comment : List Char) (mark : String) : Prop :=
  ∃ before after, comment = before ++ mark.toList ++ after ∧ before.getLast? ≠ some '@' ∧
    ∀ c ∈ after.head?, u.isWord c = false

section Properties

variable {d : Declaration}

/-- The model has the property as a field, with its mark and its annotations; an `email` is unique without one. -/
def HasField (u : Unicode) (schema : Atomo.Schema) (p : Place d) : Prop :=
  ∃ model field, lookup? (.ofList d.name) schema.models = some model ∧
    lookup? (.ofList p.property.name) model.fields = some field ∧ field.optional = p.property.optional ∧
    (.unique ∈ field.attributes ↔ p.property.name = "email".toList ∨ Annotated u p.annotations "@unique") ∧
    (.index ∈ field.attributes ↔ Annotated u p.annotations "@index")

/-- The property is a field, or a warning says that it is none. -/
def Preserved (u : Unicode) (schema : Atomo.Schema) (p : Place d) : Prop :=
  HasField u schema p ∨ fieldWarning (.ofList d.name) (.ofList p.property.name) ∈ schema.warnings

/-- The piece of the property is read: no brace closes before it, no comment begins before it in its line, and up to the
next semicolon, line, comment or brace its type is there and has no bar. -/
structure Place.Legible (p : Place d) : Prop where
  unclosed : '\x7d' ∉ p.front
  uncommented : Uncommented p.front
  bar : '|' ∉ headOf (untilBrace p.rest)
  typed : ¬ Blank (headOf (untilBrace p.rest))

/-- What the parser takes for the comment of the property has the annotations of that comment. -/
structure Place.WellAnnotated (u : Unicode) (p : Place d) : Prop where
  unique : p.property.name = "email".toList ∨
    (contains (annotationsOf (untilBrace p.rest)) "@unique" = true ↔ Annotated u p.annotations "@unique")
  index : contains (annotationsOf (untilBrace p.rest)) "@index" = true ↔ Annotated u p.annotations "@index"

/-- No other piece of the body is read as a property of that name. -/
structure Place.Sole (u : Unicode) (p : Place d) : Prop where
  before : .ofList p.property.name ∉ textNames u (untilBrace p.front)
  behind : .ofList p.property.name ∉ textNames u (behindHead (untilBrace p.rest))

section Text

variable {u : Unicode} {p : Place d}

theorem untilBrace_body (hu : u.Lawful) (hd : d.Plain u) (h : '\x7d' ∉ p.front) :
    untilBrace d.body =
      p.front ++ (p.property.lead ++ propertyText p.property.name p.property.optional (untilBrace p.rest)) := by
  have hp := p.plain hd
  have hname : '\x7d' ∉ p.property.name := not_mem_of_word hu hp.name.word (by decide) (by decide)
  have hlead : '\x7d' ∉ p.property.lead := fun hmem => absurd (hp.lead _ hmem) (by decide)
  have hplain : '\x7d' ∉ p.front ++ (p.property.lead ++ propertyText p.property.name p.property.optional []) := by
    unfold propertyText
    cases p.property.optional <;> simp [questionMark, h, hname, hlead]
  have htext : ∀ t, p.front ++ (p.property.lead ++ propertyText p.property.name p.property.optional t) =
      p.front ++ (p.property.lead ++ propertyText p.property.name p.property.optional []) ++ t := by
    intro t
    simp [propertyText]
  rw [p.body_eq, htext, untilBrace_append hplain, ← htext]

/-- Of a property that is read there is one field. -/
theorem Place.Legible.field (hu : u.Lawful) (hd : d.Plain u) (hsole : p.Sole u) (h : p.Legible) :
    ∃ field, (textFields u (untilBrace d.body)).filter (fun field => decide (field.name = .ofList p.property.name)) =
        [field] ∧
      field.optional = p.property.optional ∧
      field.attributes = attributesOf p.property.name (annotationsOf (untilBrace p.rest)) := by
  have hp := p.plain hd
  obtain ⟨c, t, htype, hc⟩ := hp.type
  have hslash : (untilBrace p.rest).head? ≠ some '/' := by
    unfold Place.rest untilBrace
    rw [htype, List.cons_append]
    by_cases hbrace : c = '\x7d'
    · rw [List.takeWhile_cons_of_neg (by simp [hbrace])]
      exact fun hnone => by cases hnone
    · rw [List.takeWhile_cons_of_pos (by simpa using hbrace)]
      exact fun hhead => hc (Option.some.inj hhead)
  have hbefore := hsole.before
  rw [untilBrace_of_not_mem h.unclosed] at hbefore
  rw [untilBrace_body hu hd h.unclosed]
  exact field_of_legible hu p.bordered hp.lead hp.line hp.name p.property.optional hslash hbefore hsole.behind
    h.uncommented h.bar h.typed

/-- Of any other there is none. -/
theorem Place.Sole.no_field (hu : u.Lawful) (hd : d.Plain u) (hsole : p.Sole u) (h : ¬ p.Legible) :
    .ofList p.property.name ∉ textNames u (untilBrace d.body) := by
  have hp := p.plain hd
  by_cases hclosed : '\x7d' ∈ p.front
  · rw [p.body_eq, untilBrace_of_mem hclosed]
    exact hsole.before
  · have hbefore := hsole.before
    rw [untilBrace_of_not_mem hclosed] at hbefore
    rw [untilBrace_body hu hd hclosed]
    exact no_field_of_illegible hu p.bordered hp.lead hp.line hp.name p.property.optional hbefore hsole.behind
      fun hread => h ⟨hclosed, hread.1, hread.2.1, hread.2.2⟩

end Text

section Schema

variable {lib : Library} {content : List Char} {schema : Atomo.Schema} {models : List Model}
  {metadata : List (String × ModelMetadata)} {entries : List (String × List Char)} {before behind : List (List Char)}

/-- No other declaration has the name of the interface: no second model, no enum, and no `defineModel` instead of it. -/
structure OnlyDeclaration (lib : Library) (content : List Char) (name : List Char) : Prop where
  model : ∀ models, interfaceModels lib content = .ok models → (models.map (·.name)).count (.ofList name) ≤ 1
  enum : ∀ enums, collectTypeDefinitions lib.toUnicode [] (lines content) = .ok enums → .ofList name ∉ enums.map (·.1)
  command : IsCommand name → ∀ defined, parseDefineModel lib content = .ok defined → .ofList name ∉ defined.map (·.1)

/-- The parser finds the name among the entries of `models`. -/
def Listed (u : Unicode) (content : List Char) (name : List Char) : Prop :=
  ∃ entries, entriesOf u content "models" = some entries ∧ .ofList name ∈ entries.map (·.1)

theorem lookup?_map {α β : Type} (f : α → β) (key : String) (entries : List (String × α)) :
    lookup? key (entries.map fun entry : String × α => (entry.1, f entry.2)) = (lookup? key entries).map f := by
  unfold lookup?
  rw [List.find?_map, Option.map_map, Option.map_map]
  rfl

/-- The fields of the model in the schema are those of the text up to the first closing brace. -/
theorem Parsed.lookup?_field (hu : lib.toUnicode.Lawful) (h : Parsed lib content schema models metadata entries)
    (hd : d.Plain lib.toUnicode) (hlines : lines content = before ++ (splitAt '\n' d.chars ++ behind))
    (hclosed : Closed before) (honly : OnlyDeclaration lib content d.name) (hcommand : ¬ IsCommand d.name)
    (hlisted : .ofList d.name ∈ entries.map (·.1)) :
    ∃ model enums, lookup? (.ofList d.name) schema.models = some model ∧ ∀ key, lookup? key model.fields =
      ((textFields lib.toUnicode (untilBrace d.body)).filter fun field => decide (field.name = key)).getLast?.map
        (resolveEnum enums) := by
  obtain ⟨enums, parsed, defined, -, hparsed, -, hmodels⟩ := interfaceModels_eq_ok h.interfaces
  rw [hlines] at hparsed
  obtain ⟨found, hfound, hsubset⟩ := parseInterfacesFrom_behind hclosed hparsed
  obtain ⟨model, hmem, hname, hfields⟩ := model_of_interface hu hd hfound hcommand
  have hresolved := List.mem_map_of_mem (f := fun model : Model =>
    { model with fields := model.fields.map fun entry : String × Field => (entry.1, resolveEnum enums entry.2) })
    (List.mem_append_left (enums.map fun entry : String × List String => enumModel entry.1 entry.2) (hsubset hmem))
  obtain ⟨merged, hmerged, hname', hfields'⟩ := mem_mergeDefined hresolved defined
  rw [← hmodels] at hmerged
  obtain ⟨shown, hshown, hfields''⟩ := h.fields hlisted (honly.model models h.interfaces) hmerged (hname'.trans hname)
  refine ⟨shown, enums, hshown, fun key => ?_⟩
  rw [hfields'', hfields']
  dsimp only
  rw [lookup?_map, hfields, lookup?_foldl_insert (fun field : Field => field.name) (fun field => field)]
  simp [lookup?]

/-- A command, or an interface that is not listed, is no model of the schema. -/
theorem Parsed.lookup?_none (h : Parsed lib content schema models metadata entries)
    (honly : OnlyDeclaration lib content d.name) (hnot : IsCommand d.name ∨ .ofList d.name ∉ entries.map (·.1)) :
    lookup? (.ofList d.name) schema.models = none := by
  by_contra hsome
  obtain ⟨model, hmodel⟩ := Option.ne_none_iff_exists'.1 hsome
  obtain ⟨hmem, hname, hlisted⟩ := h.mem hmodel
  rcases hnot with hcommand | hnot
  · obtain ⟨enums, parsed, defined, henums, hparsed, hdefined, hmodels⟩ := interfaceModels_eq_ok h.interfaces
    have hin := List.mem_map_of_mem (f := fun model : Model => model.name) hmem
    rw [names_withMetadata, hmodels] at hin
    obtain ⟨merged, hmerged, hname'⟩ := List.mem_map.1 hin
    rcases name_of_mergeDefined hmerged with hin | hin
    · obtain ⟨resolved, hresolved, hname''⟩ := List.mem_map.1 hin
      obtain ⟨found, hfound, rfl⟩ := List.mem_map.1 hresolved
      have hfoundName : found.name = .ofList d.name := by
        rw [← hname, ← hname', ← hname'']
      rcases List.mem_append.1 hfound with hfound | hfound
      · refine not_isCommand_of_mem hparsed found hfound ?_
        rwa [hfoundName, String.toList_ofList]
      · obtain ⟨entry, hentry, rfl⟩ := List.mem_map.1 hfound
        exact honly.enum enums henums (List.mem_map.2 ⟨entry, hentry, hfoundName⟩)
    · rw [hname', hname] at hin
      exact honly.command hcommand defined hdefined hin
  · exact hnot hlisted

theorem resolveEnum_kept (enums : List (String × List String)) (field : Field) :
    (resolveEnum enums field).optional = field.optional ∧ (resolveEnum enums field).attributes = field.attributes := by
  unfold resolveEnum
  split
  · split <;> exact ⟨rfl, rfl⟩
  · exact ⟨rfl, rfl⟩

/-- A field of these attributes has the annotations of the property where the comment is taken for what it is. -/
theorem annotations_iff {u : Unicode} {p : Place d} {attributes : List FieldAttribute}
    (h : attributes = attributesOf p.property.name (annotationsOf (untilBrace p.rest))) :
    ((.unique ∈ attributes ↔ p.property.name = "email".toList ∨ Annotated u p.annotations "@unique") ∧
      (.index ∈ attributes ↔ Annotated u p.annotations "@index")) ↔ p.WellAnnotated u := by
  rw [h, unique_mem_attributesOf, index_mem_attributesOf]
  constructor
  · rintro ⟨hunique, hindex⟩
    refine ⟨?_, hindex⟩
    by_cases hemail : p.property.name = "email".toList
    · exact .inl hemail
    · rw [or_iff_right hemail, or_iff_right hemail] at hunique
      exact .inr hunique
  · rintro ⟨hunique, hindex⟩
    refine ⟨?_, hindex⟩
    rcases hunique with hemail | hunique
    · exact ⟨fun _ => .inl hemail, fun _ => .inl hemail⟩
    · rw [hunique]

/-- A property is preserved just where its interface is a listed model and no command, its piece is read and its comment is
taken for what it is; or, where the piece is not read, where the schema object has a validation rule for it. -/
theorem property_iff (hu : lib.toUnicode.Lawful) (h : parseSchema lib content = some (.ok schema))
    (hd : d.Plain lib.toUnicode) (hlines : lines content = before ++ (splitAt '\n' d.chars ++ behind))
    (hclosed : Closed before) (honly : OnlyDeclaration lib content d.name) (p : Place d) (hsole : p.Sole lib.toUnicode) :
    Preserved lib.toUnicode schema p ↔ Listed lib.toUnicode content d.name ∧ ¬ IsCommand d.name ∧
      (p.Legible ∧ p.WellAnnotated lib.toUnicode ∨
        ¬ p.Legible ∧ .ofList p.property.name ∈ validationKeys lib.toUnicode content (.ofList d.name)) := by
  obtain ⟨models, metadata, entries, hparsed⟩ := parsed_of_parseSchema h
  have hlisted : Listed lib.toUnicode content d.name ↔ .ofList d.name ∈ entries.map (·.1) := by
    unfold Listed
    rw [hparsed.declared]
    simp
  have hwarned : fieldWarning (.ofList d.name) (.ofList p.property.name) ∈ schema.warnings ↔
      .ofList p.property.name ∈ validationKeys lib.toUnicode content (.ofList d.name) ∧
        ∃ model, lookup? (.ofList d.name) schema.models = some model ∧
          lookup? (.ofList p.property.name) model.fields = none := by
    refine mem_warnings hu hparsed ?_ ?_
    · rw [String.toList_ofList]
      exact hd.name.word
    · rw [String.toList_ofList]
      exact (p.plain hd).name.word
  rw [hlisted]
  unfold Preserved HasField
  rw [hwarned]
  by_cases hmodel : .ofList d.name ∈ entries.map (·.1) ∧ ¬ IsCommand d.name
  · obtain ⟨model, enums, hshown, hfields⟩ := hparsed.lookup?_field hu hd hlines hclosed honly hmodel.2 hmodel.1
    have hfield := hfields (.ofList p.property.name)
    rw [hshown, and_iff_right hmodel.1, and_iff_right hmodel.2]
    by_cases hread : p.Legible
    · obtain ⟨field, hone, hoptional, hattributes⟩ := hread.field hu hd hsole
      obtain ⟨hoptional', hattributes'⟩ := resolveEnum_kept enums field
      have hannotations := annotations_iff (u := lib.toUnicode) (hattributes'.trans hattributes)
      rw [hone, List.getLast?_singleton, Option.map_some] at hfield
      have hright : (p.Legible ∧ p.WellAnnotated lib.toUnicode ∨
          ¬ p.Legible ∧ .ofList p.property.name ∈ validationKeys lib.toUnicode content (.ofList d.name)) ↔
          p.WellAnnotated lib.toUnicode :=
        ⟨fun hor => hor.elim And.right fun hnot => absurd hread hnot.1, fun hwell => .inl ⟨hread, hwell⟩⟩
      rw [hright, ← hannotations]
      constructor
      · rintro (⟨_, _, ⟨⟩, hown, -, hunique, hindex⟩ | ⟨-, _, ⟨⟩, hnone⟩)
        · cases hfield.symm.trans hown
          exact ⟨hunique, hindex⟩
        · cases hfield.symm.trans hnone
      · exact fun hown => .inl ⟨model, _, rfl, hfield, hoptional'.trans hoptional, hown⟩
    · have hnone : lookup? (.ofList p.property.name) model.fields = none := by
        have hno := hsole.no_field hu hd hread
        have hnil := List.filter_eq_nil_iff.2 fun field hmem hkey =>
          hno (List.mem_map.2 ⟨field, hmem, of_decide_eq_true hkey⟩)
        rw [hfield, hnil]
        rfl
      have hright : (p.Legible ∧ p.WellAnnotated lib.toUnicode ∨
          ¬ p.Legible ∧ .ofList p.property.name ∈ validationKeys lib.toUnicode content (.ofList d.name)) ↔
          .ofList p.property.name ∈ validationKeys lib.toUnicode content (.ofList d.name) :=
        ⟨fun hor => hor.elim (fun hown => absurd hown.1 hread) And.right, fun hkeys => .inr ⟨hread, hkeys⟩⟩
      rw [hright]
      constructor
      · rintro (⟨_, _, ⟨⟩, hown, -⟩ | ⟨hkeys, -⟩)
        · cases hnone.symm.trans hown
        · exact hkeys
      · exact fun hkeys => .inr ⟨hkeys, model, rfl, hnone⟩
  · have hnone := hparsed.lookup?_none (d := d) honly (by
      by_contra hboth
      rw [not_or, not_not] at hboth
      exact hmodel ⟨hboth.2, hboth.1⟩)
    rw [hnone]
    refine iff_of_false ?_ fun hboth => hmodel ⟨hboth.1, hboth.2.1⟩
    rintro (⟨_, _, ⟨⟩, -⟩ | ⟨-, _, ⟨⟩, -⟩)

end Schema

end Properties

/-! ## Two interfaces -/

theorem contains_infix (before after : List Char) (s : String) : contains (before ++ (s.toList ++ after)) s = true := by
  have hreads : Reads [text s] (s.toList ++ []) [] after := .cons (Pattern.take_lit _ _) .nil
  have hmatch := hreads.matchAt_eq
  rw [List.append_nil] at hmatch
  unfold contains
  induction before with
  | nil => rw [List.nil_append, Pattern.find_of_matchAt hmatch, Option.isSome_some]
  | cons c before ih =>
    unfold find
    rw [List.cons_append, Pattern.search, if_pos rfl]
    cases matchAt [text s] (c :: (before ++ (s.toList ++ after))) with
    | some m => rfl
    | none =>
      dsimp only
      rw [Pattern.search_true, Option.isSome_map]
      exact ih

theorem Annotated.contains {u : Unicode} {comment : List Char} {mark : String} (h : Annotated u comment mark) :
    Dsl.contains comment mark = true := by
  obtain ⟨before, after, rfl, -⟩ := h
  rw [List.append_assoc]
  exact contains_infix before after mark

/-- `id: string;` and `title?: string // @unique`, each on its line. -/
def noteDeclaration : Declaration where
  name := "Note".toList
  rows :=
    [{},
      { properties := [{ lead := "  ".toList, name := "id".toList, type := " string".toList }], behind := [';'] },
      { properties := [{ lead := "  ".toList, name := "title".toList, optional := true, type := " string ".toList }]
        comment := some " @unique".toList },
      {}]

def notePlace : Place noteDeclaration where
  before := noteDeclaration.rows.take 2
  row := noteDeclaration.rows[2]
  after := [{}]
  earlier := []
  property := { lead := "  ".toList, name := "title".toList, optional := true, type := " string ".toList }
  later := []
  rows_eq := rfl
  properties_eq := rfl

def notesSource : List Char :=
  noteDeclaration.chars ++ '\n' :: "export const schema = \x7b models: \x7b Note: \x7b \x7d \x7d \x7d".toList

theorem plain_noteDeclaration : noteDeclaration.Plain .ascii where
  indent := by decide
  gap := by decide
  line := by decide
  name := by decide
  heritage := by
    rintro _ ⟨⟩
    decide
  head := by decide
  body := by decide
  properties row hrow p hp := by
    have hall : p = noteDeclaration.rows[1].properties[0] ∨ p = notePlace.property := by
      rcases List.mem_cons.1 hrow with rfl | hrow
      · exact absurd hp List.not_mem_nil
      · rcases List.mem_cons.1 hrow with rfl | hrow
        · exact .inl (List.mem_singleton.1 hp)
        · rcases List.mem_cons.1 hrow with rfl | hrow
          · exact .inr (List.mem_singleton.1 hp)
          · rw [List.mem_singleton.1 hrow] at hp
            exact absurd hp List.not_mem_nil
    rcases hall with rfl | rfl
    · exact ⟨by decide, by decide, by decide, ' ', "string".toList, by decide, by decide⟩
    · exact ⟨by decide, by decide, by decide, ' ', "string ".toList, by decide, by decide⟩

theorem property_note :
    ∃ schema, parseSchema asciiLibrary notesSource = some (.ok schema) ∧ Preserved .ascii schema notePlace := by
  have hsome : (parseSchema asciiLibrary notesSource).any (fun result => result.toOption.isSome) = true := by
    decide +kernel
  obtain ⟨result, hresult, hok⟩ := (Option.any_eq_true _ _).1 hsome
  obtain ⟨schema, hschema⟩ := Option.isSome_iff_exists.1 hok
  have hparsed : parseSchema asciiLibrary notesSource = some (.ok schema) := by
    cases result with
    | error e => cases hschema
    | ok schema' =>
      cases hschema
      exact hresult
  have hnames : (interfaceModels asciiLibrary notesSource).map (fun models => models.map (·.name)) = .ok ["Note"] := by
    decide +kernel
  have hlines : lines notesSource = [] ++ (splitAt '\n' noteDeclaration.chars ++
      ["export const schema = \x7b models: \x7b Note: \x7b \x7d \x7d \x7d".toList]) := by
    decide +kernel
  have honly : OnlyDeclaration asciiLibrary notesSource noteDeclaration.name := by
    refine ⟨fun models heq => ?_, fun enums heq => ?_, fun hcommand => absurd hcommand (by decide)⟩
    · rw [heq] at hnames
      have hlist : models.map (·.name) = ["Note"] := Except.ok.inj hnames
      rw [hlist]
      decide
    · have hnone : (collectTypeDefinitions asciiLibrary.toUnicode [] (lines notesSource)).map (·.map (·.1)) = .ok [] := by
        decide +kernel
      rw [heq] at hnone
      have hlist : enums.map (·.1) = [] := Except.ok.inj hnone
      rw [hlist]
      exact List.not_mem_nil
  have hcomment : Annotated .ascii notePlace.annotations "@unique" := ⟨[' '], [], by decide, by decide, by simp⟩
  refine ⟨schema, hparsed, (property_iff ascii_lawful hparsed ?_ hlines ?_ honly notePlace ?_).2 ⟨?_, ?_, .inl ⟨?_, ?_⟩⟩⟩
  · exact plain_noteDeclaration
  · exact fun line rest hsuffix => absurd (List.suffix_nil.1 hsuffix) (List.cons_ne_nil _ _)
  · exact ⟨by decide +kernel, by decide +kernel⟩
  · exact ⟨[("Note", [' '])], by decide +kernel, by decide⟩
  · decide
  · exact ⟨by decide, by decide, by decide, by decide⟩
  · exact ⟨.inr ⟨fun _ => hcomment, fun _ => by decide⟩,
      ⟨fun h => absurd h (by decide), fun h => absurd h.contains (by decide)⟩⟩

/-- The fields and the warnings for an interface with these properties. -/
def postFields (properties : String) : Option (List (String × List String) × List String) := do
  let result ← parseSchema asciiLibrary ("export interface Post \x7b " ++ properties ++
    " \x7d\nexport const schema = \x7b models: \x7b Post: \x7b \x7d \x7d \x7d").toList
  let schema ← result.toOption
  some (schema.models.map fun entry => (entry.1, entry.2.fields.map (·.1)), schema.warnings)

/-- A property behind an inline object type, and one of a union type: neither is a field, and no warning says so. -/
theorem properties_dropped :
    postFields "meta: \x7b a: string \x7d; title: string" = some ([("Post", ["meta"])], []) ∧
      postFields "id: string; status: 'draft' | 'published'" = some ([("Post", ["id"])], []) := by
  decide +kernel

end Atomo.TypeScript
