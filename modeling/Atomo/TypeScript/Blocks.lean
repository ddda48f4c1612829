import Atomo.Dsl.Written
import Atomo.TypeScript.Parser

/-!
# The blocks of a schema source

Where the parser finds a block that is written at a place, and what it makes of the passes over the models: which
model the schema holds under a name, and with which metadata.
-/

namespace Atomo.TypeScript

open String (utf8Len)
open Pattern (Item Match Passes Reads Solid Stays find findAll matchAt)
open Schema
open Dsl

/-! ## Blocks -/

theorem solid_text {items : List (Item Char)} {t : List Char} {cap : Match Char} (hsolid : Solid items)
    (h : find items t = some cap) : t = cap.before ++ cap.text ++ cap.rest ∧ cap.text ≠ [] :=
  ⟨(Pattern.search_spec h).1, (Pattern.search_spec h).2 hsolid⟩

/-- The block that begins behind a match, where the braces are balanced in it. -/
theorem bodyTo_closed {br : Brackets} (hne : br.opening ≠ br.closing) {t body rest : List Char} {cap : Match Char}
    (ht : t = cap.before ++ cap.text ++ cap.rest) (htext : cap.text ≠ []) (hrest : cap.rest = body ++ br.closing :: rest)
    (hbody : Walks br 1 body 1) : ∃ j, bodyTo br t (endOf cap) = some (body, j) := by
  rw [bodyTo_endOf ht br htext, hrest, hbody.closed hne rest]
  exact ⟨_, rfl⟩

/-- A block that is written where its key is found first. -/
structure Located (content : List Char) (key : String) (body : List Char) : Prop where
  first : ∃ cap rest, find (member key '\x7b') content = some cap ∧ cap.rest = body ++ '\x7d' :: rest
  balanced : Walks bareBraces 1 body 1

theorem Located.subBlock_eq {content body : List Char} {key : String} (h : Located content key body) :
    subBlock content key = some (some body) := by
  obtain ⟨cap, rest, hfind, hrest⟩ := h.first
  obtain ⟨ht, htext⟩ := solid_text (solid_member key '\x7b') hfind
  obtain ⟨j, hbody⟩ := bodyTo_closed (show bareBraces.opening ≠ bareBraces.closing by decide) ht htext hrest h.balanced
  unfold subBlock
  rw [hfind]
  dsimp only
  rw [hbody]
  rfl

/-- An entry of a block, as it is written there. -/
structure BlockEntry where
  before : List Char := []
  name : List Char
  beforeColon : List Char := []
  afterColon : List Char := []
  body : List Char
  after : List Char := []

def BlockEntry.chars (e : BlockEntry) : List Char :=
  e.before ++ (e.name ++ (e.beforeColon ++ ([':'] ++ (e.afterColon ++ (['\x7b'] ++ (e.body ++ '\x7d' :: e.after))))))

/-- White space around the colon, and balanced braces before and within. -/
structure BlockEntry.Plain (u : Unicode) (e : BlockEntry) : Prop where
  name : IsName u e.name
  border : ∀ c ∈ e.before.getLast?, u.isWord c = false
  before : braceDepth e.before = 0
  beforeColon : Blank e.beforeColon
  afterColon : Blank e.afterColon
  body : Walks bareBraces 1 e.body 1

section Entries

variable {u : Unicode}

theorem colon_of_lawful (hu : u.Lawful) : u.isWord ':' = false := by
  rw [hu.ascii ':' (by decide)]
  decide

theorem dot_of_lawful (hu : u.Lawful) : u.isWord '.' = false := by
  rw [hu.ascii '.' (by decide)]
  decide

theorem solid_entryBlock : Solid (entryBlock u) := rfl

/-- What an entry is read from. -/
theorem entry_of_matchAt {l : List Char} {m : Match Char} (h : matchAt (entryBlock u) l = some m) :
    ∃ w b b', (∀ c ∈ w, u.isWord c = true) ∧ Blank b ∧ Blank b' ∧ m.text = w ++ (b ++ ':' :: (b' ++ ['\x7b'])) := by
  obtain ⟨w₁, r₁, m₁, h₁, hm₁, htext, -⟩ := Pattern.matchAt_cons h
  obtain ⟨w₂, r₂, m₂, h₂, hm₂, htext₁, -⟩ := Pattern.matchAt_cons hm₁
  obtain ⟨w₃, r₃, m₃, h₃, hm₃, htext₂, -⟩ := Pattern.matchAt_cons hm₂
  obtain ⟨w₄, r₄, m₄, h₄, hm₄, htext₃, -⟩ := Pattern.matchAt_cons hm₃
  obtain ⟨w₅, r₅, m₅, h₅, hm₅, htext₄, -⟩ := Pattern.matchAt_cons hm₄
  cases hm₅
  refine ⟨w₁, w₂, w₄, (Pattern.some_of_take h₁).2, blank_of_take h₂, blank_of_take h₄, ?_⟩
  rw [htext, htext₁, htext₂, htext₃, htext₄, lit_of_take h₃, lit_of_take h₅]
  simp

/-- No match crosses the border before a name. -/
theorem stays_entryBlock (hu : u.Lawful) {t l : List Char} (hborder : ∀ c ∈ t.getLast?, u.isWord c = false)
    (hl : ∀ c ∈ l.head?, u.isWord c = true) : Stays (entryBlock u) t l := by
  refine Pattern.stays_iff.2 fun v hne hv m hmatch => ?_
  obtain ⟨w, b, b', hw, hb, hb', htext⟩ := entry_of_matchAt hmatch
  have hsplit : v ++ l = m.text ++ m.rest := by
    have happend := Pattern.matchAt_append hmatch
    rwa [Pattern.before_matchAt hmatch, List.nil_append] at happend
  rcases List.append_eq_append_iff.1 hsplit with ⟨x, hx, hrest⟩ | ⟨x, hx, -⟩
  · cases x with
    | nil => exact ⟨[], by rw [hx, List.append_nil, List.append_nil]⟩
    | cons c x =>
      exfalso
      -- a word character behind the border stands in the name, and so does the one before the border
      have hc : u.isWord c = true := hl c (by rw [hrest]; rfl)
      have htail : ∀ d ∈ b ++ ':' :: (b' ++ ['\x7b']), u.isWord d = false := by
        intro d hd
        simp only [List.mem_append, List.mem_cons, List.not_mem_nil, or_false] at hd
        rcases hd with hd | rfl | hd | rfl
        · exact hu.blank d (hb d hd)
        · rw [hu.ascii _ (by decide)]
          decide
        · exact hu.blank d (hb' d hd)
        · rw [hu.ascii _ (by decide)]
          decide
      rw [htext] at hx
      rcases List.append_eq_append_iff.1 hx.symm with ⟨y, hy, -⟩ | ⟨y, -, hrest'⟩
      · obtain ⟨e, he⟩ := Option.ne_none_iff_exists'.1 (mt List.getLast?_eq_none_iff.1 hne)
        have hword := hw e (by rw [hy]; exact List.mem_append_left _ (List.mem_of_getLast? he))
        obtain ⟨s, rfl⟩ := hv
        have hlast : (s ++ v).getLast? = some e := by
          rw [List.getLast?_append, he, Option.some_or]
        rw [hborder e hlast] at hword
        cases hword
      · have hfalse := htail c (by rw [hrest']; exact List.mem_append_right _ List.mem_cons_self)
        rw [hc] at hfalse
        cases hfalse
  · exact ⟨x, hx⟩

/-- The match of an entry. -/
theorem BlockEntry.Plain.mem_findAll (hu : u.Lawful) {e : BlockEntry} (h : e.Plain u) :
    ∃ cap ∈ findAll (entryBlock u) e.chars, cap.before = e.before ∧ cap.group 1 = e.name ∧
      cap.rest = e.body ++ '\x7d' :: e.after := by
  have hcolon : ∀ l : List Char, ∀ c ∈ (':' :: l).head?, isSpace c = false := by
    intro l c hc
    cases hc
    decide
  have hbrace : ∀ l : List Char, ∀ c ∈ ('\x7b' :: l).head?, isSpace c = false := by
    intro l c hc
    cases hc
    decide
  have h₅ : Reads [mark '\x7b'] (['\x7b'] ++ []) [] (e.body ++ '\x7d' :: e.after) := .cons (Pattern.take_lit _ _) .nil
  have h₄ : Reads [blanks, mark '\x7b'] (e.afterColon ++ (['\x7b'] ++ [])) [] (e.body ++ '\x7d' :: e.after) :=
    .cons (take_blanks h.afterColon (hbrace _)) h₅
  have h₃ : Reads [mark ':', blanks, mark '\x7b'] ([':'] ++ (e.afterColon ++ (['\x7b'] ++ []))) []
      (e.body ++ '\x7d' :: e.after) := .cons (Pattern.take_lit _ _) h₄
  have h₂ : Reads [blanks, mark ':', blanks, mark '\x7b'] (e.beforeColon ++ ([':'] ++ (e.afterColon ++ (['\x7b'] ++ []))))
      [] (e.body ++ '\x7d' :: e.after) := .cons (take_blanks h.beforeColon (hcolon _)) h₃
  have hgap : ∀ c ∈ ((e.beforeColon ++ ([':'] ++ (e.afterColon ++ (['\x7b'] ++ [])))) ++
      (e.body ++ '\x7d' :: e.after)).head?, u.isWord c = false := by
    rw [List.append_assoc]
    exact head_blank_colon hu h.beforeColon
  have h₁ : Reads (entryBlock u) (e.name ++ (e.beforeColon ++ ([':'] ++ (e.afterColon ++ (['\x7b'] ++ []))))) [e.name]
      (e.body ++ '\x7d' :: e.after) := .cons (Pattern.take_some h.name.ne h.name.word hgap) h₂
  have hmatch := h₁.matchAt_eq
  have hchars : e.chars = e.before ++ ((e.name ++ (e.beforeColon ++ ([':'] ++ (e.afterColon ++ (['\x7b'] ++ []))))) ++
      (e.body ++ '\x7d' :: e.after)) := by
    simp [BlockEntry.chars]
  have hhead : ∀ c ∈ ((e.name ++ (e.beforeColon ++ ([':'] ++ (e.afterColon ++ (['\x7b'] ++ []))))) ++
      (e.body ++ '\x7d' :: e.after)).head?, u.isWord c = true := by
    obtain ⟨d, name, hname⟩ := List.exists_cons_of_ne_nil h.name.ne
    intro c hc
    rw [hname] at hc
    cases hc
    exact h.name.word _ (by rw [hname]; exact List.mem_cons_self)
  obtain ⟨ms, hall, -⟩ := Pattern.findAll_append solid_entryBlock (stays_entryBlock hu h.border hhead)
  rw [hchars, hall, Pattern.findAll_of_find solid_entryBlock (Pattern.find_of_matchAt hmatch)]
  refine ⟨_, List.mem_append_right _ (List.mem_map_of_mem List.mem_cons_self), ?_, rfl, rfl⟩
  exact List.append_nil _

/-- The parser has an entry under the name that it is written with. -/
theorem BlockEntry.Plain.mem_topLevelEntries (hu : u.Lawful) {e : BlockEntry} (h : e.Plain u)
    {entries : List (String × List Char)} (hentries : topLevelEntries u e.chars = some entries) :
    (String.ofList e.name, e.body) ∈ entries := by
  obtain ⟨cap, hcap, hbefore, hname, hrest⟩ := h.mem_findAll hu
  obtain ⟨ht, htext⟩ := Pattern.findAll_spec hcap
  obtain ⟨j, hbody⟩ := bodyTo_closed (show bareBraces.opening ≠ bareBraces.closing by decide) ht (htext solid_entryBlock)
    hrest h.body
  unfold topLevelEntries at hentries
  obtain ⟨found, hfound, hentries⟩ := Option.bind_eq_some_iff.1 hentries
  cases hentries
  obtain ⟨entry, hmem, heq⟩ := (mem_of_mapM hfound).1 cap hcap
  rw [sliceTo_startOf ht] at heq
  simp only [Option.bind_eq_bind, Option.bind_some, hbefore, h.before, ne_eq, not_true_eq_false, if_false, hbody, hname] at heq
  cases heq
  exact List.mem_filterMap.2 ⟨_, hmem, rfl⟩

/-- The first group of a pattern that begins with a word is one. -/
theorem word_of_group {items : List (Item Char)} {l : List Char} {m : Match Char} (h : matchAt (word u :: items) l = some m) :
    ∀ c ∈ m.group 1, u.isWord c = true := by
  obtain ⟨⟨w, r⟩, htake, h⟩ := Option.bind_eq_some_iff.1 h
  obtain ⟨m', -, rfl⟩ := Option.map_eq_some_iff.1 h
  exact (Pattern.some_of_take htake).2

/-- The name of an entry is a word. -/
theorem word_of_topLevelEntries {block : List Char} {entries : List (String × List Char)}
    (hentries : topLevelEntries u block = some entries) : ∀ entry ∈ entries, ∀ c ∈ entry.1.toList, u.isWord c = true := by
  unfold topLevelEntries at hentries
  obtain ⟨found, hfound, hentries⟩ := Option.bind_eq_some_iff.1 hentries
  cases hentries
  intro entry hentry
  obtain ⟨slot, hslot, heq⟩ := List.mem_filterMap.1 hentry
  obtain ⟨cap, hcap, hread⟩ := (mem_of_mapM hfound).2 slot hslot
  obtain ⟨before, -, hread⟩ := Option.bind_eq_some_iff.1 hread
  split at hread
  · cases hread
    cases heq
  · obtain ⟨body, -, hread⟩ := Option.bind_eq_some_iff.1 hread
    cases hread
    cases heq
    intro c hc
    rw [String.toList_ofList] at hc
    exact word_of_group (Pattern.matchAt_of_findAll hcap) c hc

/-- A key at the top of a block is a word. -/
theorem word_of_topLevelKeys {block : List Char} {keys : List String} (h : topLevelKeys u block = some keys) :
    ∀ key ∈ keys, ∀ c ∈ key.toList, u.isWord c = true := by
  unfold topLevelKeys at h
  obtain ⟨found, hfound, h⟩ := Option.bind_eq_some_iff.1 h
  cases h
  intro key hkey
  obtain ⟨slot, hslot, heq⟩ := List.mem_filterMap.1 hkey
  obtain ⟨cap, hcap, hread⟩ := (mem_of_mapM hfound).2 slot hslot
  obtain ⟨before, -, hread⟩ := Option.bind_eq_some_iff.1 hread
  cases hread
  dsimp only [id] at heq
  split at heq
  · cases heq
    intro c hc
    rw [String.toList_ofList] at hc
    exact word_of_group (Pattern.matchAt_of_findAll hcap) c hc
  · cases heq

theorem word_of_blockKeys {block : List Char} {key : String} {keys : List String} (h : blockKeys u block key = some keys) :
    ∀ key ∈ keys, ∀ c ∈ key.toList, u.isWord c = true := by
  unfold blockKeys at h
  obtain ⟨inner, -, h⟩ := Option.bind_eq_some_iff.1 h
  cases inner with
  | none =>
    cases h
    exact fun _ hmem => absurd hmem List.not_mem_nil
  | some inner => exact word_of_topLevelKeys h

end Entries

/-! ## The passes over the models -/

section Passes

variable {lib : Library} {content : List Char}

theorem map_eq_ok {α β : Type} {f : α → β} {x : Except String α} {b : β} (h : x.map f = .ok b) :
    ∃ a, x = .ok a ∧ f a = b := by
  cases x with
  | error e => cases h
  | ok a => exact ⟨a, rfl, Except.ok.inj h⟩

theorem bind_eq_ok {α β : Type} {x : Except String α} {f : α → Except String β} {b : β} (h : x >>= f = .ok b) :
    ∃ a, x = .ok a ∧ f a = .ok b := by
  cases x with
  | error e => cases h
  | ok a => exact ⟨a, rfl, h⟩

theorem mem_of_mapM_ok {α β : Type} {f : α → Except String β} {l : List α} {l' : List β} (h : l.mapM f = .ok l') :
    ∀ b ∈ l', ∃ a ∈ l, f a = .ok b := by
  induction l generalizing l' with
  | nil =>
    cases h
    exact fun _ hb => absurd hb List.not_mem_nil
  | cons a l ih =>
    rw [List.mapM_cons] at h
    obtain ⟨b, ha, h⟩ := bind_eq_ok h
    obtain ⟨bs, hl, h⟩ := bind_eq_ok h
    cases h
    intro b' hb'
    rcases List.mem_cons.1 hb' with rfl | hmem
    · exact ⟨a, List.mem_cons_self, ha⟩
    · obtain ⟨a', ha', heq⟩ := ih hl b' hmem
      exact ⟨a', List.mem_cons_of_mem _ ha', heq⟩

/-- The access of a model is that of its `defineModel`. -/
def Defined (lib : Library) (content : List Char) (model : Model) : Prop :=
  model.access = none ∨ lib.modelDefinition content model.name = .ok model.access

theorem defined_parseInterfacesFrom {input : List (List Char)} {models : List Model}
    (h : parseInterfacesFrom lib content input = .ok models) : ∀ model ∈ models, Defined lib content model := by
  fun_induction parseInterfacesFrom lib content input generalizing models with
  | case1 =>
    cases h
    exact fun _ hm => absurd hm List.not_mem_nil
  | case2 line rest hline hname ih => exact ih h
  | case3 line rest hline cap hcap hskip ih => exact ih h
  | case4 line rest hline cap hcap hskip e he => cases h
  | case5 line rest hline cap hcap hskip access haccess parsed =>
    rename_i ih
    obtain ⟨more, hmore, rfl⟩ := map_eq_ok h
    intro model hmodel
    rcases List.mem_cons.1 hmodel with rfl | hmem
    · exact .inr haccess
    · exact ih hmore model hmem
  | case6 line rest hline ih => exact ih h

/-- The first element with a property is changed, the others stay. -/
theorem mem_modify_findIdx {α : Type} {p : α → Bool} {f : α → α} {l : List α} {b : α} (h : b ∈ l.modify (l.findIdx p) f) :
    b ∈ l ∨ ∃ a ∈ l, p a = true ∧ b = f a := by
  induction l with
  | nil =>
    rw [List.modify_nil] at h
    exact absurd h List.not_mem_nil
  | cons a l ih =>
    rw [List.findIdx_cons] at h
    cases ha : p a with
    | true =>
      rw [ha, cond_true, List.modify_zero_cons] at h
      rcases List.mem_cons.1 h with rfl | hmem
      · exact .inr ⟨a, List.mem_cons_self, ha, rfl⟩
      · exact .inl (List.mem_cons_of_mem _ hmem)
    | false =>
      rw [ha, cond_false, List.modify_succ_cons] at h
      rcases List.mem_cons.1 h with rfl | hmem
      · exact .inl List.mem_cons_self
      · exact (ih hmem).imp (List.mem_cons_of_mem _) fun ⟨a', ha', heq⟩ => ⟨a', List.mem_cons_of_mem _ ha', heq⟩

theorem defined_mergeDefined {models : List Model} (h : ∀ model ∈ models, Defined lib content model)
    {defined : List (String × Option AccessControl)}
    (hdefined : ∀ entry ∈ defined, lib.modelDefinition content entry.1 = .ok entry.2) :
    ∀ model ∈ defined.foldl mergeDefined models, Defined lib content model := by
  induction defined generalizing models with
  | nil => exact h
  | cons entry defined ih =>
    refine ih (fun model hmodel => ?_) fun entry hentry => hdefined entry (List.mem_cons_of_mem _ hentry)
    have hentry := hdefined entry List.mem_cons_self
    unfold mergeDefined at hmodel
    split at hmodel
    · rcases mem_modify_findIdx hmodel with hmem | ⟨model', hmem, hname, rfl⟩
      · exact h model hmem
      · rw [← of_decide_eq_true hname] at hentry
        exact .inr hentry
    · rcases List.mem_append.1 hmodel with hmem | hmem
      · exact h model hmem
      · cases List.mem_singleton.1 hmem
        exact .inr hentry

theorem defined_parseDefineModel {defined : List (String × Option AccessControl)}
    (h : parseDefineModel lib content = .ok defined) :
    ∀ entry ∈ defined, lib.modelDefinition content entry.1 = .ok entry.2 := by
  intro entry hentry
  obtain ⟨name, -, heq⟩ := mem_of_mapM_ok h entry hentry
  obtain ⟨access, haccess, rfl⟩ := map_eq_ok heq
  exact haccess

/-- What the models come from before the last pass. -/
theorem interfaceModels_eq_ok {models : List Model} (h : interfaceModels lib content = .ok models) :
    ∃ enums parsed defined, collectTypeDefinitions lib.toUnicode [] (lines content) = .ok enums ∧
      parseInterfacesFrom lib content (lines content) = .ok parsed ∧ parseDefineModel lib content = .ok defined ∧
      models = defined.foldl mergeDefined ((parsed ++ enums.map fun entry => enumModel entry.1 entry.2).map fun model =>
        { model with fields := model.fields.map fun entry => (entry.1, resolveEnum enums entry.2) }) := by
  obtain ⟨enums, henums, h⟩ := bind_eq_ok h
  obtain ⟨found, hfound, h⟩ := bind_eq_ok h
  obtain ⟨defined, hdefined, h⟩ := bind_eq_ok h
  cases h
  unfold parseInterfaces at hfound
  cases hparsed : parseInterfacesFrom lib content (lines content) with
  | error e =>
    rw [hparsed] at hfound
    cases hfound
  | ok parsed =>
    rw [hparsed] at hfound
    dsimp only at hfound
    split at hfound
    · cases hfound
    · cases hfound
      exact ⟨enums, parsed, defined, henums, rfl, hdefined, rfl⟩

theorem defined_interfaceModels {models : List Model} (h : interfaceModels lib content = .ok models) :
    ∀ model ∈ models, Defined lib content model := by
  obtain ⟨enums, parsed, defined, -, hparsed, hdefined, rfl⟩ := interfaceModels_eq_ok h
  refine defined_mergeDefined (fun model hmodel => ?_) (defined_parseDefineModel hdefined)
  obtain ⟨model', hmem, rfl⟩ := List.mem_map.1 hmodel
  rcases List.mem_append.1 hmem with hmem | hmem
  · exact defined_parseInterfacesFrom hparsed model' hmem
  · obtain ⟨entry, -, rfl⟩ := List.mem_map.1 hmem
    exact .inl rfl

/-- The metadata of a name go to the one model that has it. -/
theorem mem_withMetadata {metadata : List (String × ModelMetadata)} {models : List Model} {model : Model}
    (hmem : model ∈ withMetadata metadata models) (honly : (models.map (·.name)).count model.name ≤ 1) :
    ∃ m ∈ models, m.name = model.name ∧ model = (lookup? m.name metadata).elim m (Model.withMetadata m) := by
  induction models generalizing metadata with
  | nil => exact absurd hmem List.not_mem_nil
  | cons m models ih =>
    have hname : ∀ found : Option ModelMetadata, (found.elim m (Model.withMetadata m)).name = m.name := by
      intro found
      cases found <;> rfl
    obtain ⟨metadata', hrest, hkept⟩ : ∃ metadata', withMetadata metadata (m :: models) =
        (lookup? m.name metadata).elim m (Model.withMetadata m) :: withMetadata metadata' models ∧
          ∀ name, name ≠ m.name → lookup? name metadata' = lookup? name metadata := by
      rw [withMetadata]
      cases lookup? m.name metadata with
      | none => exact ⟨metadata, rfl, fun _ _ => rfl⟩
      | some found => exact ⟨_, rfl, fun name hne => lookup?_filter_of_ne hne metadata⟩
    rw [hrest] at hmem
    rcases List.mem_cons.1 hmem with heq | hmem
    · exact ⟨m, List.mem_cons_self, by rw [heq, hname], heq⟩
    · rw [List.map_cons, List.count_cons] at honly
      obtain ⟨m', hm', hname', heq⟩ := ih hmem (by omega)
      by_cases hsame : m.name = model.name
      · have hpos : 0 < (models.map (·.name)).count model.name :=
          List.count_pos_iff.2 (List.mem_map.2 ⟨m', hm', hname'⟩)
        rw [if_pos (beq_iff_eq.2 hsame)] at honly
        omega
      · rw [hkept m'.name (by rw [hname']; exact Ne.symm hsame)] at heq
        exact ⟨m', List.mem_cons_of_mem _ hm', hname', heq⟩

theorem lookup?_eq_some_foldl {models : List Model} {name : String} {model : Model}
    (h : lookup? name (models.foldl (fun found model => Dsl.insert model.name model found) []) = some model) :
    model ∈ models ∧ model.name = name := by
  rw [lookup?_foldl_insert (fun model : Model => model.name) (fun model => model)] at h
  obtain ⟨last, hlast, rfl⟩ : ∃ last, (models.filter fun model => decide (model.name = name)).getLast? = some last ∧
      last = model := by
    simpa [lookup?] using h
  obtain ⟨hmem, hname⟩ := List.mem_filter.1 (List.mem_of_getLast? hlast)
  exact ⟨hmem, of_decide_eq_true hname⟩

/-- What the parser reads on the way to its schema. -/
structure Parsed (lib : Library) (content : List Char) (schema : Atomo.Schema) (models : List Model)
    (metadata : List (String × ModelMetadata)) (entries : List (String × List Char)) : Prop where
  interfaces : interfaceModels lib content = .ok models
  described : parseModelMetadata lib.toUnicode lib.number content = some metadata
  declared : entriesOf lib.toUnicode content "models" = some entries
  listed : schema.models = (declaredModels (entries.map (·.1)) (withMetadata metadata models)).1
  warnings : ∃ blockWarnings, modelBlockDiagnostics lib.toUnicode content schema.models = some blockWarnings ∧
    schema.warnings = (declaredModels (entries.map (·.1)) (withMetadata metadata models)).2 ++ blockWarnings ++
      reservedIdentifierWarnings lib.toUnicode schema.models

theorem parsed_of_parseSchema {schema : Atomo.Schema} (h : parseSchema lib content = some (.ok schema)) :
    ∃ models metadata entries, Parsed lib content schema models metadata entries := by
  unfold parseSchema parse at h
  cases hmodels : interfaceModels lib content with
  | error e =>
    rw [hmodels] at h
    cases h
  | ok models =>
    rw [hmodels] at h
    cases hmetadata : parseModelMetadata lib.toUnicode lib.number content with
    | none =>
      rw [hmetadata] at h
      cases h
    | some metadata =>
      rw [hmetadata] at h
      dsimp only [Option.map_some, Option.bind_eq_bind, Option.bind_some] at h
      obtain ⟨actions, -, h⟩ := Option.bind_eq_some_iff.1 h
      obtain ⟨entries, hentries, h⟩ := Option.bind_eq_some_iff.1 h
      obtain ⟨blockWarnings, hwarnings, h⟩ := Option.bind_eq_some_iff.1 h
      obtain ⟨builtins, -, h⟩ := Option.bind_eq_some_iff.1 h
      cases h
      exact ⟨models, metadata, entries, hmodels, hmetadata, hentries, rfl, blockWarnings, hwarnings, rfl⟩

variable {schema : Atomo.Schema} {models : List Model} {metadata : List (String × ModelMetadata)}
  {entries : List (String × List Char)} {name : String} {model : Model} {body : List Char}

theorem Parsed.mem (h : Parsed lib content schema models metadata entries) (hmodel : lookup? name schema.models = some model) :
    model ∈ withMetadata metadata models ∧ model.name = name ∧ name ∈ entries.map (·.1) := by
  rw [h.listed] at hmodel
  obtain ⟨hmem, hname⟩ := lookup?_eq_some_foldl hmodel
  obtain ⟨hmem, hdeclared⟩ := List.mem_filter.1 hmem
  exact ⟨hmem, hname, hname ▸ of_decide_eq_true hdeclared⟩

/-- The metadata under a name are those of the one block that has it. -/
theorem Parsed.lookup?_metadata (h : Parsed lib content schema models metadata entries) (hentry : (name, body) ∈ entries)
    (honly : ∀ other ∈ entries, other.1 = name → other.2 = body) :
    ∃ found, blockMetadata lib.toUnicode lib.number body = some found ∧
      lookup? name metadata = if found.stated then some found else none := by
  have hdescribed := h.described
  unfold parseModelMetadata at hdescribed
  rw [h.declared] at hdescribed
  simp only [Option.bind_eq_bind, Option.bind_some] at hdescribed
  obtain ⟨described, hmap, heq⟩ := Option.bind_eq_some_iff.1 hdescribed
  cases heq
  obtain ⟨hfrom, hto⟩ := mem_of_mapM hmap
  obtain ⟨⟨name', found⟩, hmem, hfound⟩ := hfrom _ hentry
  obtain ⟨found', hblock, heq⟩ := Option.map_eq_some_iff.1 hfound
  cases heq
  refine ⟨found, hblock, ?_⟩
  have halike : ∀ entry ∈ described, entry.1 = name → entry = (name, found) := by
    intro entry hentry hname
    obtain ⟨⟨name'', body'⟩, hblock', heq⟩ := hto entry hentry
    obtain ⟨found', hfound', rfl⟩ := Option.map_eq_some_iff.1 heq
    cases hname
    cases honly _ hblock' rfl
    cases hfound'.symm.trans hblock
    rfl
  have hfold : described.foldl (fun kept x => if x.2.stated = true then Dsl.insert x.1 x.2 kept else kept) [] =
      (described.filter (·.2.stated)).foldl (fun kept x => Dsl.insert x.1 x.2 kept) [] := by
    rw [List.foldl_filter]
  have hlookup := lookup?_foldl_insert (fun x : String × ModelMetadata => x.1) (fun x => x.2)
    (described.filter (·.2.stated)) name []
  refine ((congrArg (lookup? name) hfold).trans hlookup).trans ?_
  rw [show lookup? name ([] : List (String × ModelMetadata)) = none from rfl, Option.or_none]
  cases hlast : ((described.filter (·.2.stated)).filter fun x => decide (x.1 = name)).getLast? with
  | none =>
    have hnone := List.filter_eq_nil_iff.1 (List.getLast?_eq_none_iff.1 hlast)
    by_cases hstated : found.stated = true
    · exact absurd (decide_eq_true rfl) (hnone _ (List.mem_filter.2 ⟨hmem, hstated⟩))
    · rw [if_neg hstated]
      rfl
  | some entry =>
    obtain ⟨hfilter, hname⟩ := List.mem_filter.1 (List.mem_of_getLast? hlast)
    obtain ⟨hin, hstated⟩ := List.mem_filter.1 hfilter
    cases halike entry hin (of_decide_eq_true hname)
    rw [if_pos hstated]
    rfl

/-- The access of a model without a `defineModel` is that of its block. -/
theorem Parsed.access (h : Parsed lib content schema models metadata entries) (hmodel : lookup? name schema.models = some model)
    (hone : (models.map (·.name)).count name ≤ 1) (hdefine : lib.modelDefinition content name = .ok none)
    (hentry : (name, body) ∈ entries) (honly : ∀ other ∈ entries, other.1 = name → other.2 = body) :
    ∃ block, subBlock body "access" = some block ∧ model.access = block.bind accessRules := by
  obtain ⟨hmem, rfl, -⟩ := h.mem hmodel
  obtain ⟨m, hm, hname, hmodel'⟩ := mem_withMetadata hmem hone
  have hnone : m.access = none := by
    rcases defined_interfaceModels h.interfaces m hm with haccess | haccess
    · exact haccess
    · rw [hname, hdefine] at haccess
      exact (Except.ok.inj haccess).symm
  obtain ⟨found, hblock, hlookup⟩ := h.lookup?_metadata hentry honly
  have haccess : model.access = found.access := by
    rw [hmodel', hname, hlookup]
    by_cases hstated : found.stated = true
    · rw [if_pos hstated]
      change m.access.or found.access = found.access
      rw [hnone, Option.none_or]
    · rw [if_neg hstated]
      refine hnone.trans (Eq.symm ?_)
      have hunstated : found.stated = false := Bool.eq_false_of_not_eq_true hstated
      simp only [ModelMetadata.stated, Bool.or_eq_false_iff, Option.isSome_eq_false_iff, Option.isNone_iff_eq_none] at hunstated
      exact hunstated.1.1.1.2
  rw [haccess]
  unfold blockMetadata at hblock
  simp only [Option.bind_eq_bind, Option.bind_eq_some_iff] at hblock
  obtain ⟨_, -, block, hsub, _, -, _, -, _, -, heq⟩ := hblock
  cases heq
  exact ⟨block, hsub, rfl⟩

end Passes

/-- An ASCII source without a `defineModel`. -/
def asciiLibrary : Library :=
  { Unicode.ascii with
    number := fun _ => none
    modelDefinition := fun _ _ => .ok none }

end Atomo.TypeScript
