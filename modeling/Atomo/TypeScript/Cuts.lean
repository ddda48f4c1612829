import Atomo.TypeScript.Definition

/-!
# Where the interface parser panics

Every walk behind a bracket cuts one byte before the place where it stops, also where it stops at the end of the text
with the bracket open. There the cut goes wrong when nothing follows the bracket, or when the text ends within a character
of several bytes. `SchemaCuts` says that this happens to none of the brackets the parser looks for, and
`isSome_parseSchema` that the parser answers just then.
-/

namespace Atomo.TypeScript

open String (utf8Len utf8EncodeChar)
open Utf8 (bytes code)
open Pattern (Item Match find findAll)
open Schema Dsl

/-! ## What the parser cuts out -/

/-- The text behind an opening bracket, as it is cut. -/
def cutBody (br : Brackets) (v : List Char) : Option (List Char) :=
  (ending br 1 none false v).cut v

/-- The first block of a key, if there is one, is cut, and what it says is as `P` has it. -/
def BlockCuts (br : Brackets) (content : List Char) (key : String) (P : List Char → Prop) : Prop :=
  ∀ m ∈ find (member key br.opening) content, ∃ body ∈ cutBody br m.rest, P body

/-- The objects of an array, from left to right. -/
def objects : List Char → Option (List (List Char))
  | [] => some []
  | c :: v =>
    if c = '\x7b' then
      match _ : ending bareBraces 1 none false v with
      | .closed obj rest => (objects rest).map (obj :: ·)
      | _ => (cutBody bareBraces v).map ([·])
    else objects v
termination_by v => v.length
decreasing_by
  · rename_i hending
    have hlen := congrArg List.length (ending_closed hending)
    rw [List.length_append, List.length_cons] at hlen
    rw [List.length_cons]
    omega
  · exact Nat.lt_succ_self v.length

/-- The condition of a binding; `fieldEquals` is read where `changedAny` has no names. -/
structure ConditionCuts (block : List Char) : Prop where
  changedAny : BlockCuts bareSquares block "changedAny" fun _ => True
  fieldEquals : (∀ m ∈ find (member "changedAny" '[') block, ∀ arr ∈ cutBody bareSquares m.rest, quotedStrings arr = []) →
    BlockCuts bareBraces block "fieldEquals" fun _ => True

/-- The object of a binding. -/
def BindingCuts (obj : List Char) : Prop :=
  (stringOf obj "action").isSome = true → BlockCuts bareBraces obj "condition" ConditionCuts

/-- The array of the bindings of an event. -/
def BindingsCut (arr : List Char) : Prop :=
  ∃ objs ∈ objects arr, ∀ obj ∈ objs, BindingCuts obj

/-- The block of an action. -/
def ActionCuts (block : List Char) : Prop :=
  BlockCuts bareBraces block "input" fun input => BlockCuts bareBraces input "pick" fun pick =>
    (stringOf pick "model").isSome = true → BlockCuts bareSquares pick "fields" fun _ => True

/-- The block of a built-in table. -/
structure TableCuts (block : List Char) : Prop where
  columns : BlockCuts bareBraces block "columns" fun _ => True
  constraints : BlockCuts bareSquares block "constraints" fun _ => True

section Schema

variable (u : Unicode)

/-- The entries of a block. -/
def EntriesCut (block : List Char) (P : List Char → Prop) : Prop :=
  ∀ cap ∈ findAll (entryBlock u) block, braceDepth cap.before = 0 → ∃ body ∈ cutBody bareBraces cap.rest, P body

/-- The block of a model. -/
structure ModelCuts (block : List Char) : Prop where
  validation : BlockCuts bareBraces block "validation" fun _ => True
  access : BlockCuts bareBraces block "access" fun _ => True
  relationships : BlockCuts bareBraces block "relationships" fun relationships => EntriesCut u relationships fun _ => True
  events : BlockCuts bareBraces block "events" fun events =>
    ∀ kind ∈ ["created", "updated", "deleted"], BlockCuts bareSquares events kind BindingsCut
  ui : BlockCuts bareBraces block "ui" fun ui => BlockCuts bareSquares ui "listView" fun _ => True

/-- The block of a model, as far as the warnings read it. -/
structure CheckedCuts (block : List Char) : Prop where
  access : BlockCuts bareBraces block "access" fun _ => True
  validation : BlockCuts bareBraces block "validation" fun _ => True
  relationships : BlockCuts bareBraces block "relationships" fun relationships => EntriesCut u relationships fun _ => True

/-- What a text must be like. -/
structure SchemaCuts (content : List Char) : Prop where
  models : BlockCuts bareBraces content "models" fun block => EntriesCut u block (ModelCuts u)
  actions : BlockCuts bareBraces content "actions" fun block => EntriesCut u block ActionCuts
  builtins : BlockCuts bareBraces content "builtins" fun block => EntriesCut u block TableCuts
  checked : ∀ schema ∈ Dsl.block bareBraces (find [text "schema", blanks, mark '=', blanks, mark '\x7b'] content),
    BlockCuts bareBraces schema "models" fun block => EntriesCut u block (CheckedCuts u)

end Schema

/-! ## Each function -/

theorem isSome_bind_cut {α : Type} {br : Brackets} (found : Option (Match Char)) {f : Option (List Char) → Option α}
    {P : List Char → Prop} (hnone : (f none).isSome = true) (hsome : ∀ body, (f (some body)).isSome = true ↔ P body) :
    ((match found with
        | none => some none
        | some m => (cutBody br m.rest).map some).bind f).isSome = true ↔
      ∀ m ∈ found, ∃ body ∈ cutBody br m.rest, P body := by
  cases found with
  | none => simpa using hnone
  | some m =>
    simp only [Option.mem_some_iff, forall_eq']
    cases hcut : cutBody br m.rest with
    | none => simp
    | some body => simpa using hsome body

theorem subBlock_eq (content : List Char) (key : String) :
    subBlock content key =
      match find (member key bareBraces.opening) content with
      | none => some none
      | some m => (cutBody bareBraces m.rest).map some := by
  unfold subBlock
  cases hfind : find (member key '\x7b') content with
  | none =>
    have h : find (member key bareBraces.opening) content = none := hfind
    rw [h]
  | some m =>
    have h : find (member key bareBraces.opening) content = some m := hfind
    obtain ⟨ht, hne⟩ := Pattern.search_spec hfind
    rw [h]
    simp only [bodyTo_endOf ht bareBraces (hne (solid_member key '\x7b')), Option.map_map]
    rfl

theorem subArray_eq (content : List Char) (key : String) :
    subArray content key =
      match find (member key bareSquares.opening) content with
      | none => some none
      | some m => (cutBody bareSquares m.rest).map some := by
  unfold subArray
  cases hfind : find (member key '[') content with
  | none =>
    have h : find (member key bareSquares.opening) content = none := hfind
    rw [h]
  | some m =>
    have h : find (member key bareSquares.opening) content = some m := hfind
    obtain ⟨ht, hne⟩ := Pattern.search_spec hfind
    rw [h]
    simp only [bodyTo_endOf ht bareSquares (hne (solid_member key '[')), Option.map_map]
    rfl

section Blocks

variable {α : Type} {f : Option (List Char) → Option α} {P : List Char → Prop} (hnone : (f none).isSome = true)
  (hsome : ∀ body, (f (some body)).isSome = true ↔ P body)

include hnone hsome

theorem isSome_bind_subBlock (content : List Char) (key : String) :
    ((subBlock content key).bind f).isSome = true ↔ BlockCuts bareBraces content key P := by
  rw [subBlock_eq]
  exact isSome_bind_cut _ hnone hsome

theorem isSome_bind_subArray (content : List Char) (key : String) :
    ((subArray content key).bind f).isSome = true ↔ BlockCuts bareSquares content key P := by
  rw [subArray_eq]
  exact isSome_bind_cut _ hnone hsome

end Blocks

theorem isSome_subBlock (content : List Char) (key : String) :
    (subBlock content key).isSome = true ↔ BlockCuts bareBraces content key fun _ => True := by
  rw [← isSome_bind_subBlock (f := some) rfl (fun _ => ⟨fun _ => trivial, fun _ => rfl⟩), Option.bind_fun_some]

theorem isSome_subArray (content : List Char) (key : String) :
    (subArray content key).isSome = true ↔ BlockCuts bareSquares content key fun _ => True := by
  rw [← isSome_bind_subArray (f := some) rfl (fun _ => ⟨fun _ => trivial, fun _ => rfl⟩), Option.bind_fun_some]

section Entries

/-- What a match makes of the text around it. -/
theorem topLevelEntry_eq {u : Unicode} {block : List Char} {cap : Match Char} (hcap : cap ∈ findAll (entryBlock u) block) :
    (do
      let before ← Utf8.sliceTo block (startOf cap)
      if braceDepth before ≠ 0 then some none
      else
        let (body, _) ← bodyTo bareBraces block (endOf cap)
        some (some (String.ofList (cap.group 1), body))) =
    if braceDepth cap.before ≠ 0 then some none
    else (cutBody bareBraces cap.rest).map fun body => some (String.ofList (cap.group 1), body) := by
  obtain ⟨ht, hne⟩ := Pattern.findAll_spec hcap
  rw [sliceTo_startOf ht, bodyTo_endOf ht bareBraces (hne rfl)]
  simp only [Option.bind_eq_bind, Option.bind_some, cutBody]
  congr 1
  cases (ending bareBraces 1 none false cap.rest).cut cap.rest <;> rfl

variable {u : Unicode} {α : Type} {g : List (String × List Char) → Option α} {P : List Char → Prop}
  (hg : ∀ entries, (g entries).isSome = true ↔ ∀ entry ∈ entries, P entry.2)

include hg

theorem isSome_bind_topLevelEntries (block : List Char) :
    ((topLevelEntries u block).bind g).isSome = true ↔ EntriesCut u block P := by
  have heq : (topLevelEntries u block).bind g =
      (((findAll (entryBlock u) block).mapM fun cap =>
        if braceDepth cap.before ≠ 0 then some none
        else (cutBody bareBraces cap.rest).map fun body => some (String.ofList (cap.group 1), body)).map
          (·.filterMap id)).bind g := by
    unfold topLevelEntries
    rw [List.mapM_congr fun _ => topLevelEntry_eq]
    simp only [Option.bind_eq_bind, Option.map_eq_bind]
    rfl
  rw [heq, List.isSome_bind_filterMap hg]
  refine forall₂_congr fun cap hcap => ?_
  by_cases hdepth : braceDepth cap.before = 0
  · simp [hdepth]
  · simp [hdepth]

theorem isSome_bind_entriesOf (hnil : (g []).isSome = true) (content : List Char) (key : String) :
    ((entriesOf u content key).bind g).isSome = true ↔
      BlockCuts bareBraces content key fun block => EntriesCut u block P := by
  unfold entriesOf
  rw [Option.bind_eq_bind, Option.bind_assoc]
  exact isSome_bind_subBlock hnil (isSome_bind_topLevelEntries hg) content key

end Entries

/-! ## Bindings -/

section Bindings

variable (u : Unicode) (number : List Char → Option Json)

theorem isSome_fieldEquals (block : List Char) :
    ((subBlock block "fieldEquals").bind fun found => match found with
      | none => some none
      | some equals =>
        some ((stringOf equals "field").bind fun field =>
          (conditionValue u number equals).map fun value => ActionCondition.fieldEquals field value)).isSome = true ↔
      BlockCuts bareBraces block "fieldEquals" fun _ => True :=
  isSome_bind_subBlock rfl (fun _ => iff_of_true rfl trivial) block "fieldEquals"

theorem isSome_parseBindingCondition (obj : List Char) :
    (parseBindingCondition u number obj).isSome = true ↔ BlockCuts bareBraces obj "condition" ConditionCuts := by
  unfold parseBindingCondition
  refine isSome_bind_subBlock rfl (fun block => ?_) obj "condition"
  have hequals := isSome_fieldEquals u number block
  have hcuts : ConditionCuts block ↔ BlockCuts bareSquares block "changedAny" (fun _ => True) ∧
      ((∀ m ∈ find (member "changedAny" '[') block, ∀ arr ∈ cutBody bareSquares m.rest, quotedStrings arr = []) →
        BlockCuts bareBraces block "fieldEquals" fun _ => True) :=
    ⟨fun h => ⟨h.changedAny, h.fieldEquals⟩, fun h => ⟨h.1, h.2⟩⟩
  rw [hcuts]
  generalize (BlockCuts bareBraces block "fieldEquals" fun _ => True) = fieldEquals at hequals ⊢
  have hopening : bareSquares.opening = '[' := rfl
  simp only [BlockCuts, subArray_eq, hopening]
  cases find (member "changedAny" '[') block with
  | none =>
    refine Iff.trans hequals ?_
    simp
  | some m =>
    cases hcut : cutBody bareSquares m.rest with
    | none => simp [hcut]
    | some arr =>
      by_cases hnames : quotedStrings arr = []
      · simp only [Option.mem_some_iff, forall_eq', hcut, Option.map_some, Option.bind_eq_bind, Option.bind_some, hnames,
          ne_eq, not_true_eq_false, if_false]
        refine Iff.trans hequals ?_
        simp
      · simp [hcut, hnames]

theorem isSome_parseSingleBinding (obj : List Char) :
    (parseSingleBinding u number obj).isSome = true ↔ BindingCuts obj := by
  unfold parseSingleBinding BindingCuts
  cases stringOf obj "action" with
  | none => simp
  | some action => simp only [Option.isSome_map, isSome_parseBindingCondition, Option.isSome_some, true_imp_iff]

/-- The loop passes over what does not open an object, byte by byte. -/
theorem eventBindingsFrom_skip {content : List Char} {i n : Nat}
    (h : ∀ k < n, ∃ b, (bytes content)[i + k]? = some b ∧ b ≠ code '\x7b') :
    eventBindingsFrom u number content i = eventBindingsFrom u number content (i + n) := by
  induction n with
  | zero => rfl
  | succ n ih =>
    rw [ih fun k hk => h k (Nat.lt_succ_of_lt hk)]
    obtain ⟨b, hb, hne⟩ := h n (Nat.lt_succ_self n)
    obtain ⟨hlt, rfl⟩ := List.getElem?_eq_some_iff.1 hb
    rw [eventBindingsFrom, dif_pos hlt, if_neg hne]
    rfl

theorem eventBindingsFrom_char {c : Char} (hc : c ≠ '\x7b') (t v : List Char) :
    eventBindingsFrom u number (t ++ c :: v) (utf8Len t) =
      eventBindingsFrom u number (t ++ [c] ++ v) (utf8Len (t ++ [c])) := by
  rw [utf8Len_push, List.append_assoc]
  refine eventBindingsFrom_skip u number fun k hk => ?_
  have hlt : k < (utf8EncodeChar c).length := by rwa [String.length_utf8EncodeChar]
  refine ⟨(utf8EncodeChar c)[k], ?_, ?_⟩
  · rw [Utf8.getElem?_bytes_cons hk, List.getElem?_eq_getElem hlt]
  · intro heq
    exact hc (ascii_of_mem_encode (by decide) (heq ▸ List.getElem_mem hlt))

theorem eventBindingsFrom_end {content : List Char} {i : Nat} (h : utf8Len content ≤ i) :
    eventBindingsFrom u number content i = some [] := by
  rw [eventBindingsFrom, dif_neg]
  rw [Utf8.length_bytes]
  omega

/-- An object has to be cut, and it and what is behind it are read. -/
theorem isSome_eventBindingsFrom_object (t v : List Char) :
    (eventBindingsFrom u number (t ++ '\x7b' :: v) (utf8Len t)).isSome = true ↔
      ∃ obj ∈ cutBody bareBraces v, BindingCuts obj ∧
        (eventBindingsFrom u number (t ++ '\x7b' :: v)
          ((ending bareBraces 1 none false v).stop (utf8Len t + 1) (utf8Len (t ++ '\x7b' :: v)))).isSome = true := by
  obtain ⟨hlt, hcode⟩ := List.getElem?_eq_some_iff.1 (Utf8.getElem?_bytes_ascii (c := '\x7b') (by decide) t v)
  have hbody : bodyTo bareBraces (t ++ '\x7b' :: v) (utf8Len t + 1) =
      (cutBody bareBraces v).map
        (·, (ending bareBraces 1 none false v).stop (utf8Len t + 1) (utf8Len (t ++ '\x7b' :: v))) := by
    have h := bodyTo_append bareBraces (List.append_ne_nil_of_right_ne_nil t (List.cons_ne_nil '\x7b' [])) v
    rw [List.append_assoc, utf8Len_push] at h
    exact h
  conv_lhs => rw [eventBindingsFrom]
  rw [dif_pos hlt, if_pos hcode]
  split
  · rename_i hnone
    rw [hbody, Option.map_eq_none_iff] at hnone
    simp [hnone]
  · rename_i obj j hsome
    rw [hbody, Option.map_eq_some_iff] at hsome
    obtain ⟨_, hcut, heq⟩ := hsome
    cases heq
    simp only [hcut, Option.mem_some_iff, exists_eq_left', ← isSome_parseSingleBinding u number]
    cases parseSingleBinding u number obj with
    | none => simp
    | some binding =>
      simp only [Option.bind_eq_bind, Option.bind_some, Option.isSome_some, true_and]
      cases eventBindingsFrom u number (t ++ '\x7b' :: v) _ <;> simp

/-- The loop reads the objects of the array, and each of them. -/
theorem isSome_eventBindingsFrom (t v : List Char) :
    (eventBindingsFrom u number (t ++ v) (utf8Len t)).isSome = true ↔ BindingsCut v := by
  unfold BindingsCut
  induction v using objects.induct generalizing t with
  | case1 =>
    rw [eventBindingsFrom_end u number (by rw [List.append_nil]), objects]
    simp
  | case2 v obj rest hending ih =>
    have htext : t ++ '\x7b' :: v = t ++ '\x7b' :: (obj ++ ['\x7d']) ++ rest := by
      rw [ending_closed hending]
      simp [bareBraces]
    have hstop : (ending bareBraces 1 none false v).stop (utf8Len t + 1) (utf8Len (t ++ '\x7b' :: v)) =
        utf8Len (t ++ '\x7b' :: (obj ++ ['\x7d'])) := by
      have hbrace : ('\x7b'.utf8Size, '\x7d'.utf8Size) = (1, 1) := by decide
      simp only [Prod.mk.injEq] at hbrace
      simp only [hending, Ending.stop, String.utf8Len_append, String.utf8Len_cons, String.utf8Len_nil, hbrace]
      omega
    have hobjects : objects ('\x7b' :: v) = (objects rest).map (obj :: ·) := by
      rw [objects, if_pos rfl]
      split
      · rename_i hclosed
        cases hending.symm.trans hclosed
        rfl
      · rename_i hopen
        exact absurd hending (hopen obj rest)
    have hrest := ih (t ++ '\x7b' :: (obj ++ ['\x7d']))
    rw [← htext] at hrest
    rw [isSome_eventBindingsFrom_object, hstop, cutBody, hending, hobjects, hrest]
    cases objects rest <;> simp [Ending.cut]
  | case3 v hopen =>
    have hstop : utf8Len (t ++ '\x7b' :: v) ≤
        (ending bareBraces 1 none false v).stop (utf8Len t + 1) (utf8Len (t ++ '\x7b' :: v)) := by
      cases hending : ending bareBraces 1 none false v with
      | closed obj rest => exact absurd hending (hopen obj rest)
      | unclosed => exact Nat.le_refl _
      | inString escaped => exact Nat.le_add_right _ _
    have hobjects : objects ('\x7b' :: v) = (cutBody bareBraces v).map ([·]) := by
      rw [objects, if_pos rfl]
      split
      · rename_i hclosed
        exact absurd hclosed (hopen _ _)
      · rfl
    rw [isSome_eventBindingsFrom_object, eventBindingsFrom_end u number hstop, hobjects]
    cases cutBody bareBraces v <;> simp
  | case4 c v hopen ih =>
    rw [eventBindingsFrom_char u number hopen, objects, if_neg hopen]
    exact ih (t ++ [c])

end Bindings

/-! ## The object of the schema -/

section Metadata

variable (u : Unicode) (number : List Char → Option Json)

theorem isSome_eventBindings (block : List Char) (kind : String) :
    (eventBindings u number block kind).isSome = true ↔ BlockCuts bareSquares block kind BindingsCut :=
  isSome_bind_subArray rfl (isSome_eventBindingsFrom u number []) block kind

theorem isSome_blockEvents (block : List Char) :
    (blockEvents u number block).isSome = true ↔
      BlockCuts bareBraces block "events" fun events =>
        ∀ kind ∈ ["created", "updated", "deleted"], BlockCuts bareSquares events kind BindingsCut := by
  refine isSome_bind_subBlock rfl (fun events => ?_) block "events"
  simp only [List.forall_mem_cons, List.not_mem_nil, false_imp_iff, implies_true, and_true,
    ← isSome_eventBindings u number]
  cases eventBindings u number events "created" with
  | none => simp
  | some created =>
    cases eventBindings u number events "updated" with
    | none => simp
    | some updated => cases eventBindings u number events "deleted" <;> simp

theorem isSome_blockListView (block : List Char) :
    (blockListView block).isSome = true ↔
      BlockCuts bareBraces block "ui" fun ui => BlockCuts bareSquares ui "listView" fun _ => True :=
  isSome_bind_subBlock rfl (fun ui => isSome_subArray ui "listView") block "ui"

/-- Entries that only have to be cut. -/
theorem isSome_entriesOf (content : List Char) (key : String) :
    (entriesOf u content key).isSome = true ↔
      BlockCuts bareBraces content key fun block => EntriesCut u block fun _ => True := by
  have h := isSome_bind_entriesOf (u := u) (g := some) (P := fun _ => True)
    (fun _ => iff_of_true rfl fun _ _ => trivial) rfl content key
  rwa [Option.bind_fun_some] at h

theorem isSome_blockMetadata (block : List Char) : (blockMetadata u number block).isSome = true ↔ ModelCuts u block := by
  have hcuts : ModelCuts u block ↔ (subBlock block "validation").isSome = true ∧ (subBlock block "access").isSome = true ∧
      (entriesOf u block "relationships").isSome = true ∧ (blockEvents u number block).isSome = true ∧
      (blockListView block).isSome = true := by
    rw [isSome_subBlock, isSome_subBlock, isSome_entriesOf, isSome_blockEvents, isSome_blockListView]
    exact ⟨fun h => ⟨h.validation, h.access, h.relationships, h.events, h.ui⟩,
      fun ⟨hvalidation, haccess, hrelationships, hevents, hui⟩ => ⟨hvalidation, haccess, hrelationships, hevents, hui⟩⟩
  rw [hcuts]
  unfold blockMetadata
  simp only [Option.bind_eq_bind, Option.isSome_bind, Option.isSome_some, Option.any_true]
  cases subBlock block "validation" with
  | none => simp
  | some validation =>
    cases subBlock block "access" with
    | none => simp
    | some access =>
      cases entriesOf u block "relationships" with
      | none => simp
      | some relationships =>
        cases blockEvents u number block with
        | none => simp
        | some events => cases blockListView block <;> simp

theorem isSome_parseModelMetadata (content : List Char) :
    (parseModelMetadata u number content).isSome = true ↔
      BlockCuts bareBraces content "models" fun block => EntriesCut u block (ModelCuts u) := by
  refine isSome_bind_entriesOf (fun entries => ?_) rfl content "models"
  simp only [Option.bind_eq_bind, Option.isSome_bind, Option.isSome_some, Option.any_true, List.isSome_mapM,
    Option.isSome_map, isSome_blockMetadata]

theorem isSome_parseActionInput (block : List Char) : (parseActionInput block).isSome = true ↔ ActionCuts block := by
  refine isSome_bind_subBlock rfl (fun input => ?_) block "input"
  refine isSome_bind_subBlock rfl (fun pick => ?_) input "pick"
  cases hmodel : stringOf pick "model" with
  | none => simp [hmodel]
  | some model => simp only [hmodel, Option.isSome_map, isSome_subArray, Option.isSome_some, true_imp_iff]

theorem isSome_parseActions (content : List Char) :
    (parseActions u content).isSome = true ↔
      BlockCuts bareBraces content "actions" fun block => EntriesCut u block ActionCuts := by
  refine isSome_bind_entriesOf (fun entries => ?_) rfl content "actions"
  simp only [Option.bind_eq_bind, Option.isSome_bind, Option.isSome_some, Option.any_true, List.isSome_mapM,
    isSome_parseActionInput]

theorem isSome_parseBuiltins (content : List Char) :
    (parseBuiltins u content).isSome = true ↔
      BlockCuts bareBraces content "builtins" fun block => EntriesCut u block TableCuts := by
  refine isSome_bind_entriesOf (fun entries => ?_) rfl content "builtins"
  simp only [Option.bind_eq_bind, Option.isSome_bind, Option.isSome_some, Option.any_true, List.isSome_mapM]
  refine forall₂_congr fun entry _ => ?_
  have hcuts : TableCuts entry.2 ↔ (subBlock entry.2 "columns").isSome = true ∧
      (subArray entry.2 "constraints").isSome = true := by
    rw [isSome_subBlock, isSome_subArray]
    exact ⟨fun h => ⟨h.columns, h.constraints⟩, fun ⟨h, h'⟩ => ⟨h, h'⟩⟩
  rw [hcuts]
  cases subBlock entry.2 "columns" with
  | none => simp
  | some columns => cases subArray entry.2 "constraints" <;> simp

end Metadata

/-! ## The warnings -/

section Warnings

variable (u : Unicode)

theorem isSome_blockKeys (block : List Char) (key : String) :
    (blockKeys u block key).isSome = true ↔ BlockCuts bareBraces block key fun _ => True :=
  isSome_bind_subBlock rfl (fun inner => iff_of_true (isSome_topLevelKeys u inner) trivial) block key

theorem isSome_relationshipDiagnostics (name rel : String) (rdef : List Char) :
    (relationshipDiagnostics u name rel rdef).isSome = true := by
  obtain ⟨keys, hkeys⟩ := Option.isSome_iff_exists.1 (isSome_topLevelKeys u rdef)
  unfold relationshipDiagnostics
  rw [hkeys]
  rfl

theorem isSome_mapM_relationshipDiagnostics (name : String) (relationships : List (String × List Char)) :
    (relationships.mapM fun (rel, rdef) => relationshipDiagnostics u name rel rdef).isSome = true :=
  (List.isSome_mapM _ relationships).2 fun entry _ => isSome_relationshipDiagnostics u name entry.1 entry.2

theorem isSome_entryDiagnostics (models : List (String × Model)) (name : String) (block : List Char) :
    (entryDiagnostics u models name block).isSome = true ↔ CheckedCuts u block := by
  have hcuts : CheckedCuts u block ↔ (blockKeys u block "access").isSome = true ∧
      (blockKeys u block "validation").isSome = true ∧ (entriesOf u block "relationships").isSome = true := by
    rw [isSome_blockKeys, isSome_blockKeys, isSome_entriesOf]
    exact ⟨fun h => ⟨h.access, h.validation, h.relationships⟩, fun h => ⟨h.1, h.2.1, h.2.2⟩⟩
  obtain ⟨keys, hkeys⟩ := Option.isSome_iff_exists.1 (isSome_topLevelKeys u block)
  rw [hcuts]
  unfold entryDiagnostics
  rw [hkeys]
  cases blockKeys u block "access" with
  | none => simp
  | some accessKeys =>
    cases blockKeys u block "validation" with
    | none => simp
    | some validationKeys =>
      cases entriesOf u block "relationships" with
      | none => simp
      | some relationships =>
        obtain ⟨warnings, hwarnings⟩ := Option.isSome_iff_exists.1 (isSome_mapM_relationshipDiagnostics u name relationships)
        simp [hwarnings]

theorem isSome_modelBlockDiagnostics (content : List Char) (models : List (String × Model)) :
    (modelBlockDiagnostics u content models).isSome = true ↔
      ∀ schema ∈ Dsl.block bareBraces (find [text "schema", blanks, mark '=', blanks, mark '\x7b'] content),
        BlockCuts bareBraces schema "models" fun block => EntriesCut u block (CheckedCuts u) := by
  unfold modelBlockDiagnostics
  cases hfind : find [text "schema", blanks, mark '=', blanks, mark '\x7b'] content with
  | none => simp [Dsl.block]
  | some m =>
    simp only [balancedBody_endOf (Pattern.search_spec hfind).1, Option.bind_eq_bind, Option.bind_some]
    cases Dsl.block bareBraces (some m) with
    | none => simp
    | some schema =>
      simp only [Option.mem_some_iff, forall_eq']
      refine isSome_bind_subBlock rfl (fun block => ?_) schema "models"
      refine isSome_bind_topLevelEntries (fun entries => ?_) block
      simp only [Option.isSome_bind, Option.isSome_some, Option.any_true, List.isSome_mapM, isSome_entryDiagnostics]

end Warnings

/-- The parser answers for a text whose interfaces are in error and for one that can be cut, and panics on every other. -/
theorem isSome_parseSchema (lib : Library) (content : List Char) :
    (parseSchema lib content).isSome = true ↔
      (∃ e, interfaceModels lib content = .error e) ∨ SchemaCuts lib.toUnicode content := by
  unfold parseSchema parse
  cases interfaceModels lib content with
  | error e => simp
  | ok models =>
    have hchecked := isSome_modelBlockDiagnostics lib.toUnicode content
    have hcuts : SchemaCuts lib.toUnicode content ↔
        (parseModelMetadata lib.toUnicode lib.number content).isSome = true ∧
          (parseActions lib.toUnicode content).isSome = true ∧ (parseBuiltins lib.toUnicode content).isSome = true ∧
          (modelBlockDiagnostics lib.toUnicode content []).isSome = true := by
      rw [isSome_parseModelMetadata, isSome_parseActions, isSome_parseBuiltins, hchecked []]
      exact ⟨fun h => ⟨h.models, h.actions, h.builtins, h.checked⟩,
        fun ⟨hmodels, hactions, hbuiltins, hchecked⟩ => ⟨hmodels, hactions, hbuiltins, hchecked⟩⟩
    -- the names that are declared come out of the block that the metadata has been read from
    have hdeclared : (parseModelMetadata lib.toUnicode lib.number content).isSome = true →
        (entriesOf lib.toUnicode content "models").isSome = true := by
      unfold parseModelMetadata
      cases entriesOf lib.toUnicode content "models" <;> simp
    rw [hcuts]
    cases hmetadata : parseModelMetadata lib.toUnicode lib.number content with
    | none => simp
    | some metadata =>
      obtain ⟨declared, hdeclared⟩ := Option.isSome_iff_exists.1 (hdeclared (hmetadata ▸ rfl))
      cases parseActions lib.toUnicode content with
      | none => simp
      | some actions =>
        cases parseBuiltins lib.toUnicode content with
        | none => simp
        | some builtins => simp [hdeclared, Option.isSome_bind, hchecked]

/-- The library of an ASCII source. -/
def asciiDefinitions : Definitions :=
  { Unicode.ascii with
    double := fun _ => none
    refuses := fun _ => none }

def halfWritten (schema : String) : List Char :=
  ("export interface A \x7b id: string \x7d\nexport const schema = " ++ schema).toList

/-- A schema that ends with a bracket, one that ends with a letter of two bytes, and one that ends in a list of events. -/
theorem half_written_schemas_panic :
    parseSchema (asciiDefinitions.library fun _ => none) (halfWritten "\x7b models: \x7b") = none ∧
      parseSchema (asciiDefinitions.library fun _ => none) (halfWritten "\x7b models: \x7b A: \x7b tableName: 'café") =
        none ∧
      parseSchema (asciiDefinitions.library fun _ => none)
        (halfWritten "\x7b models: \x7b A: \x7b events: \x7b created: [;;;") = none := by
  simp only [← Option.isNone_iff_eq_none]
  decide +kernel

end Atomo.TypeScript
