import Atomo.Dsl.Ending
import Atomo.Dsl.Parser
import Atomo.Lib.Filter

/-!
# Where the DSL parser panics

A cut goes wrong in three ways only: a string within a call of a chain does not end (`chainRest`), a list
of arguments has no closing parenthesis, or a list of events no closing bracket (`Ending.cut`). `Cuts` says
that none of this happens in a text, and `isSome_parseBuilderDsl` that the parser gives a schema just then.
-/

namespace Atomo.Dsl

open String (utf8Len)
open Utf8 (slice sliceFrom sliceTo)
open Pattern (Item Match find findAll search)

/-- The arguments behind an opening parenthesis, and the chain behind them. Without a closing parenthesis
there is no chain; but then a string must not be open, and the last character is a single byte. -/
def callCuts (v : List Char) : Bool :=
  match ending parens 1 none false v with
  | .closed _ rest => (chainRest rest).isSome
  | .unclosed => Utf8.endsNarrow v
  | .inString _ => false

/-- The entries of an event list behind its opening bracket; a bracket counts wherever it stands. -/
def eventsCut (v : List Char) : Bool :=
  ((ending bareSquares 1 none false v).cut v).isSome

/-- The predicate in the chain of a constraint. -/
def predicateCuts (chain : List Char) : Bool :=
  (find (call "where") chain).all fun m => ((ending parens 1 none false m.rest).cut m.rest).isSome

/-- A unique or index constraint with these arguments, and with this chain. -/
def entryCuts (kind : String) (arguments chain : List Char) : Bool :=
  kind = "check" || quotedStrings (trim arguments) = [] || predicateCuts chain

/-- The constraints of a text, from left to right. -/
def constraintsCut (t : List Char) : Bool :=
  match _ : find entryItems t with
  | none => true
  | some cap =>
    match _ : ending parens 1 none false cap.rest with
    | .closed arguments rest =>
      match _ : chainRest rest with
      | none => false
      | some after =>
        entryCuts (.ofList (cap.group 1)) arguments (rest.take (rest.length - after.length)) && constraintsCut after
    | .unclosed => Utf8.endsNarrow cap.rest
    | .inString _ => false
termination_by t.length
decreasing_by
  rename_i hcap hending hrest
  obtain ⟨w, hw, -⟩ := (chainEnd_eq [] _).1 _ hrest
  have hlen := congrArg List.length (Pattern.search_spec hcap).1
  have hclosed := congrArg List.length (ending_closed hending)
  rw [hw] at hclosed
  simp only [List.length_append, List.length_cons] at hlen hclosed
  omega

/-- The text of a block behind its opening bracket. -/
def block (br : Brackets) (found : Option (Match Char)) : Option (List Char) :=
  found.bind fun m => (ending br 1 none false m.rest).body?

section Cuts

variable (u : Unicode)

/-- What the body of a model must be like. -/
structure BodyCuts (body : List Char) : Prop where
  fields : ∀ inner ∈ block braces (find (member "fields" '{') body), ∀ cap ∈ findAll (fieldItems u) inner,
    callCuts cap.rest = true
  events : ∀ inner ∈ block braces (searchWord u (member "on" '{') body),
    ∀ kind ∈ ["created", "updated", "deleted"], ∀ list ∈ find (member kind '[') inner, eventsCut list.rest = true
  constraints : ∀ inner ∈ block squares (searchWord u (member "constraints" '[') body), constraintsCut inner = true

/-- What a text must be like. -/
structure Cuts (content : List Char) : Prop where
  actions : ∀ cap ∈ findAll (actionItems u) content, (chainRest cap.rest).isSome = true
  models : ∀ cap ∈ findAll (modelItems u) content,
    ∀ body ∈ block braces (some cap), BodyCuts u body

end Cuts

/-! ## Offsets of matches -/

theorem endOf_eq (cap : Match Char) : endOf cap = utf8Len (cap.before ++ cap.text) :=
  (String.utf8Len_append _ _).symm

theorem solid_member (key : String) (bracket : Char) : (member key bracket).any (·.piece.solid) = true := by
  simp [member, mark, Item.piece, Pattern.Piece.solid]

section Offsets

variable {t : List Char} {cap : Match Char} (ht : t = cap.before ++ cap.text ++ cap.rest)

include ht

theorem sliceFrom_endOf : sliceFrom t (endOf cap) = some cap.rest := by
  rw [endOf_eq, ht, Utf8.sliceFrom_append]

theorem sliceTo_startOf : sliceTo t (startOf cap) = some cap.before := by
  rw [ht, List.append_assoc, startOf, Utf8.sliceTo_append]

theorem balancedBody_endOf (br : Brackets) : balancedBody br t (endOf cap) = some (block br (some cap)) := by
  rw [endOf_eq, ht, balancedBody_append]
  rfl

theorem bodyTo_endOf (br : Brackets) (hne : cap.text ≠ []) :
    bodyTo br t (endOf cap) =
      ((ending br 1 none false cap.rest).cut cap.rest).map
        (·, (ending br 1 none false cap.rest).stop (endOf cap) (utf8Len t)) := by
  rw [endOf_eq, ht, bodyTo_append br (List.append_ne_nil_of_right_ne_nil _ hne)]

end Offsets

/-! ## Each function -/

/-- What a field or a constraint makes of the call that a match ends with: its arguments, the offset behind
them and the chain there. -/
def callAt (t : List Char) (start : Nat) : Option (Option (List Char) × Nat × List Char) := do
  let (arg, after) ← extractParenArg t start
  let rest ← sliceFrom t after
  let chain ← takeChain rest
  some (arg, after, chain)

section Call

variable {t : List Char} {cap : Match Char} (ht : t = cap.before ++ cap.text ++ cap.rest) (hne : cap.text ≠ [])

include ht hne

theorem callAt_closed {arguments rest : List Char}
    (hending : ending parens 1 none false cap.rest = .closed arguments rest) :
    callAt t (endOf cap) =
      (takeChain rest).map
        (if trim arguments = [] then none else some (trim arguments), utf8Len t - utf8Len rest, ·) := by
  have hclosed := ending_closed hending
  have htext : t = cap.before ++ cap.text ++ arguments ++ [')'] ++ rest := by
    rw [ht, hclosed]
    simp [parens]
  have hstop : endOf cap + utf8Len arguments + 1 = utf8Len (cap.before ++ cap.text ++ arguments ++ [')']) := by
    rw [endOf_eq, utf8Len_push, String.utf8Len_append (_ ++ _)]
    rfl
  have hrest : utf8Len t - utf8Len rest = utf8Len (cap.before ++ cap.text ++ arguments ++ [')']) := by
    rw [htext, String.utf8Len_append _ rest, Nat.add_sub_cancel]
  have hslice : sliceFrom t (utf8Len (cap.before ++ cap.text ++ arguments ++ [')'])) = some rest := by
    rw [htext, Utf8.sliceFrom_append]
  unfold callAt extractParenArg
  rw [bodyTo_endOf ht parens hne, hending, hrest]
  simp only [Ending.cut, Ending.stop, Option.map_some, hstop, Option.bind_eq_bind, Option.bind_some, hslice]
  cases takeChain rest <;> rfl

theorem callAt_unclosed (hending : ending parens 1 none false cap.rest = .unclosed) :
    callAt t (endOf cap) =
      if Utf8.endsNarrow cap.rest then
        some (if trim cap.rest.dropLast = [] then none else some (trim cap.rest.dropLast), utf8Len t, [])
      else none := by
  have hslice : sliceFrom t (utf8Len t) = some [] := by
    have h := Utf8.sliceFrom_append t []
    rwa [List.append_nil] at h
  have hchain : takeChain [] = some [] := takeChain_eq_some.2 ⟨[], by rw [chainRest], rfl⟩
  unfold callAt extractParenArg
  rw [bodyTo_endOf ht parens hne, hending]
  simp only [Ending.cut, Ending.stop]
  split
  · simp only [Option.map_some, Option.bind_eq_bind, Option.bind_some, hslice, hchain]
  · rfl

theorem callAt_inString {escaped : Bool} (hending : ending parens 1 none false cap.rest = .inString escaped) :
    callAt t (endOf cap) = none := by
  unfold callAt extractParenArg
  rw [bodyTo_endOf ht parens hne, hending]
  cases escaped with
  | true => rfl
  | false =>
    simp only [Ending.cut, Ending.stop, Bool.false_eq_true, if_false, Option.map_some, Option.bind_eq_bind,
      Option.bind_some]
    rw [Utf8.sliceFrom_eq_none (Nat.lt_succ_self _)]
    rfl

theorem isSome_callAt : (callAt t (endOf cap)).isSome = callCuts cap.rest := by
  unfold callCuts
  cases hending : ending parens 1 none false cap.rest with
  | closed arguments rest => rw [callAt_closed ht hne hending, Option.isSome_map, isSome_takeChain]
  | unclosed =>
    rw [callAt_unclosed ht hne hending]
    cases Utf8.endsNarrow cap.rest <;> rfl
  | inString escaped => rw [callAt_inString ht hne hending, Option.isSome_none]

end Call

section Functions

variable (u : Unicode)

theorem isSome_parseActionDefs (content : List Char) :
    (parseActionDefs u content).isSome = true ↔
      ∀ cap ∈ findAll (actionItems u) content, (chainRest cap.rest).isSome = true := by
  unfold parseActionDefs
  rw [List.isSome_mapM]
  refine forall₂_congr fun cap hcap => ?_
  have ht := (Pattern.findAll_spec hcap).1
  rw [sliceFrom_endOf ht, ← isSome_takeChain]
  simp only [Option.bind_eq_bind, Option.bind_some]
  cases takeChain cap.rest <;> rfl

/-- The blocks of models, by the scan over characters. -/
theorem parseModelBlocks_eq (content : List Char) :
    parseModelBlocks u content =
      some ((findAll (modelItems u) content).filterMap fun cap =>
        (block braces (some cap)).map fun body => (String.ofList (cap.group 1), String.ofList (cap.group 2), body)) := by
  unfold parseModelBlocks balancedBraceBody
  rw [List.mapM_eq_some_map (g := fun cap => (block braces (some cap)).map fun body =>
    (String.ofList (cap.group 1), String.ofList (cap.group 2), body))]
  · simp only [Option.bind_eq_bind, Option.bind_some, List.filterMap_map, Function.id_comp]
  · intro cap hcap
    rw [balancedBody_endOf (Pattern.findAll_spec hcap).1]
    rfl

theorem isSome_parseFieldsBlock (body : List Char) :
    (parseFieldsBlock u body).isSome = true ↔
      ∀ inner ∈ block braces (find (member "fields" '{') body), ∀ cap ∈ findAll (fieldItems u) inner,
        callCuts cap.rest = true := by
  unfold parseFieldsBlock balancedBraceBody
  cases hfind : find (member "fields" '{') body with
  | none => simp [block]
  | some m =>
    simp only [balancedBody_endOf (Pattern.search_spec hfind).1, Option.bind_eq_bind, Option.bind_some]
    cases block braces (some m) with
    | none => simp
    | some inner =>
      simp only [Option.mem_some_iff, forall_eq']
      rw [List.isSome_mapM]
      refine forall₂_congr fun cap hcap => ?_
      obtain ⟨ht, hne⟩ := Pattern.findAll_spec hcap
      rw [← isSome_callAt ht (hne rfl), callAt]
      cases extractParenArg inner (endOf cap) with
      | none => rfl
      | some x =>
        simp only [Option.bind_eq_bind, Option.bind_some]
        cases sliceFrom inner x.2 with
        | none => rfl
        | some after =>
          simp only [Option.bind_some]
          cases takeChain after <;> rfl

theorem isSome_parseEventList (onBlock : List Char) (kind : String) :
    (parseEventList u onBlock kind).isSome = true ↔
      ∀ list ∈ find (member kind '[') onBlock, eventsCut list.rest = true := by
  unfold parseEventList
  cases hfind : find (member kind '[') onBlock with
  | none => simp
  | some m =>
    obtain ⟨ht, hne⟩ := Pattern.search_spec hfind
    simp only [bodyTo_endOf ht bareSquares (hne (solid_member kind '[')), Option.mem_some_iff,
      forall_eq']
    unfold eventsCut
    cases (ending bareSquares 1 none false m.rest).cut m.rest with
    | none => rfl
    | some inner =>
      simp only [Option.map_some, Option.bind_eq_bind, Option.bind_some, splitTopLevelCommas_eq, Option.isSome_some]

theorem isSome_parseOnBlock (body : List Char) :
    (parseOnBlock u body).isSome = true ↔
      ∀ inner ∈ block braces (searchWord u (member "on" '{') body),
        ∀ kind ∈ ["created", "updated", "deleted"], ∀ list ∈ find (member kind '[') inner,
          eventsCut list.rest = true := by
  unfold parseOnBlock balancedBraceBody
  cases hfind : searchWord u (member "on" '{') body with
  | none => simp [block]
  | some m =>
    simp only [balancedBody_endOf (Pattern.search_spec hfind).1, Option.bind_eq_bind, Option.bind_some]
    cases block braces (some m) with
    | none => simp
    | some inner =>
      simp only [Option.mem_some_iff, forall_eq', List.forall_mem_cons, List.not_mem_nil, false_imp_iff,
        implies_true, and_true]
      rw [← isSome_parseEventList u inner "created", ← isSome_parseEventList u inner "updated",
        ← isSome_parseEventList u inner "deleted"]
      cases parseEventList u inner "created" with
      | none => simp
      | some created =>
        cases parseEventList u inner "updated" with
        | none => simp
        | some updated => cases parseEventList u inner "deleted" <;> simp

theorem isSome_wherePredicate (chain : List Char) : (wherePredicate chain).isSome = predicateCuts chain := by
  unfold wherePredicate predicateCuts
  cases hfind : find (call "where") chain with
  | none => rfl
  | some m =>
    obtain ⟨ht, hne⟩ := Pattern.search_spec hfind
    simp only [extractParenArg, bodyTo_endOf ht parens (hne rfl), Option.all_some]
    cases (ending parens 1 none false m.rest).cut m.rest with
    | none => rfl
    | some raw =>
      simp only [Option.map_some, Option.bind_eq_bind, Option.bind_some, Option.isSome_some]
      split
      · rfl
      · exact isSome_constraintSqlString _

theorem isSome_constraintEntry (modelName kind : String) (arguments chain : List Char) :
    (constraintEntry modelName kind (if trim arguments = [] then none else some (trim arguments)) chain).isSome =
      entryCuts kind arguments chain := by
  have hfields : ((if trim arguments = [] then none else some (trim arguments)).map quotedStrings).getD [] =
      quotedStrings (trim arguments) := by
    split
    · rename_i hempty
      rw [hempty]
      rfl
    · rfl
  unfold constraintEntry entryCuts
  by_cases hkind : kind = "check"
  · rw [if_pos hkind, decide_eq_true hkind, Bool.true_or, Bool.true_or]
    split
    · rfl
    · rename_i expr _
      obtain ⟨sql, hsql⟩ := Option.isSome_iff_exists.1 (isSome_constraintSqlString expr)
      rw [hsql]
      rfl
  · rw [if_neg hkind, decide_eq_false hkind, Bool.false_or, hfields, ← isSome_wherePredicate]
    by_cases hnone : quotedStrings (trim arguments) = []
    · simp only [if_pos hnone, decide_eq_true hnone, Option.isSome_some, Bool.true_or]
    · simp only [if_neg hnone, decide_eq_false hnone, Bool.false_or]
      cases wherePredicate chain <;> rfl

/-- One turn of the loop, behind the entries that it has read. -/
theorem constraintsFrom_eq (modelName : String) (before rest : List Char) :
    constraintsFrom modelName (before ++ rest) (utf8Len before) =
      match find entryItems rest with
      | none => some ([], unrecognizedConstraint modelName rest)
      | some cap =>
        (callAt (before ++ rest) (utf8Len before + endOf cap)).bind fun (arg, after, chain) =>
          (constraintEntry modelName (.ofList (cap.group 1)) arg chain).bind fun (constraints, warnings) =>
            (constraintsFrom modelName (before ++ rest) (after + utf8Len chain)).map fun (constraints', warnings') =>
              (constraints ++ constraints', unrecognizedConstraint modelName cap.before ++ warnings ++ warnings') := by
  have hfrom : sliceFrom (before ++ rest) (utf8Len before) = some rest := Utf8.sliceFrom_append before rest
  rw [constraintsFrom]
  split
  · rename_i hnone
    rw [hfrom] at hnone
    cases hnone
  · rename_i rest' hrest
    rw [hfrom] at hrest
    cases hrest
    split
    · rename_i hcap
      rw [hcap]
    · rename_i cap hcap
      have hgap : slice (before ++ rest) (utf8Len before) (utf8Len before + startOf cap) = some cap.before := by
        rw [(Pattern.search_spec hcap).1, List.append_assoc cap.before, ← List.append_assoc, startOf,
          Utf8.slice_append]
      rw [hcap]
      simp only [callAt]
      split
      · rename_i gap arg after hgap' harg
        rw [hgap] at hgap'
        cases hgap'
        rw [harg]
        simp only [Option.bind_eq_bind, Option.bind_some, Option.bind_assoc]
      · rename_i hnot
        cases harg : extractParenArg (before ++ rest) (utf8Len before + endOf cap) with
        | none => rfl
        | some x => exact absurd harg (hnot cap.before x.1 x.2 hgap)

/-- A match behind a text, as one in the whole. -/
theorem find_behind (before : List Char) {rest : List Char} {cap : Match Char} (h : find entryItems rest = some cap) :
    ∃ cap' : Match Char, before ++ rest = cap'.before ++ cap'.text ++ cap'.rest ∧ cap'.text ≠ [] ∧
      cap'.rest = cap.rest ∧ endOf cap' = utf8Len before + endOf cap := by
  obtain ⟨hrest, hne⟩ := Pattern.search_spec h
  refine ⟨{ cap with before := before ++ cap.before }, ?_, hne rfl, rfl, ?_⟩
  · simp only [hrest, List.append_assoc]
  · simp only [endOf, String.utf8Len_append, Nat.add_assoc]

theorem constraintsCut_eq (t : List Char) :
    constraintsCut t =
      match find entryItems t with
      | none => true
      | some cap =>
        match ending parens 1 none false cap.rest with
        | .closed arguments rest =>
          match chainRest rest with
          | none => false
          | some after =>
            entryCuts (.ofList (cap.group 1)) arguments (rest.take (rest.length - after.length)) &&
              constraintsCut after
        | .unclosed => Utf8.endsNarrow cap.rest
        | .inString _ => false := by
  conv_lhs => rw [constraintsCut]
  split
  · rename_i hcap
    rw [hcap]
  · rename_i cap hcap
    rw [hcap]
    simp only
    split <;> rename_i hending <;> simp only [hending]
    split <;> rename_i hrest <;> simp only [hrest]

theorem isSome_constraintsFrom (modelName : String) (before rest : List Char) :
    (constraintsFrom modelName (before ++ rest) (utf8Len before)).isSome = constraintsCut rest := by
  induction rest using constraintsCut.induct generalizing before with
  | case1 x hcap =>
    rw [constraintsFrom_eq, constraintsCut_eq, hcap]
    rfl
  | case2 x cap hcap arguments rest hending hrest =>
    obtain ⟨cap', ht, hne, hsame, hend⟩ := find_behind before hcap
    have hcall := isSome_callAt ht hne
    rw [hsame, callCuts, hending] at hcall
    simp only [hrest, Option.isSome_none, Option.isSome_eq_false_iff, Option.isNone_iff_eq_none] at hcall
    rw [constraintsFrom_eq, constraintsCut_eq, hcap]
    simp only [hending, hrest, ← hend, hcall]
    rfl
  | case3 x cap hcap arguments rest hending after hrest ih =>
    obtain ⟨cap', ht, hne, hsame, hend⟩ := find_behind before hcap
    obtain ⟨w, rfl, -⟩ := (chainEnd_eq [] rest).1 after hrest
    have hchain : takeChain (w ++ after) = some w := takeChain_eq_some.2 ⟨after, hrest, rfl⟩
    have hcall := callAt_closed ht hne (hsame ▸ hending)
    rw [hchain, Option.map_some] at hcall
    -- what has been read when the loop comes round again
    have htext : before ++ x = cap'.before ++ cap'.text ++ arguments ++ [')'] ++ w ++ after := by
      rw [ht, hsame, ending_closed hending]
      simp [parens]
    have hcursor : utf8Len (before ++ x) - utf8Len (w ++ after) + utf8Len w =
        utf8Len (cap'.before ++ cap'.text ++ arguments ++ [')'] ++ w) := by
      rw [htext]
      simp only [String.utf8Len_append]
      omega
    have hloop := ih (cap'.before ++ cap'.text ++ arguments ++ [')'] ++ w)
    rw [← htext, ← hcursor] at hloop
    rw [constraintsFrom_eq, constraintsCut_eq, hcap]
    simp only [hending, hrest, ← hend, hcall, Option.bind_some]
    rw [List.length_append, Nat.add_sub_cancel, List.take_left, ← hloop, ← isSome_constraintEntry modelName]
    cases constraintEntry modelName (String.ofList (cap.group 1)) _ w with
    | none => rfl
    | some x => simp only [Option.bind_some, Option.isSome_map, Option.isSome_some, Bool.true_and]
  | case4 x cap hcap hending =>
    obtain ⟨cap', ht, hne, hsame, hend⟩ := find_behind before hcap
    have hcall := callAt_unclosed ht hne (hsame ▸ hending)
    rw [constraintsFrom_eq, constraintsCut_eq, hcap]
    simp only [hending, ← hend, hcall, hsame]
    cases Utf8.endsNarrow cap.rest with
    | false => rfl
    | true =>
      -- the loop stands at the end of the text, where no entry begins
      have hentry := isSome_constraintEntry modelName (.ofList (cap.group 1)) cap.rest.dropLast []
      have hnoWhere : entryCuts (.ofList (cap.group 1)) cap.rest.dropLast [] = true := by
        unfold entryCuts
        exact Bool.or_eq_true_iff.2 (.inr rfl)
      have hloop := constraintsFrom_eq modelName (before ++ x) []
      rw [List.append_nil] at hloop
      rw [hnoWhere] at hentry
      obtain ⟨result, hresult⟩ := Option.isSome_iff_exists.1 hentry
      simp only [if_true, Option.bind_some, hresult, String.utf8Len_nil, Nat.add_zero, hloop]
      rfl
  | case5 x cap hcap escaped hending =>
    obtain ⟨cap', ht, hne, hsame, hend⟩ := find_behind before hcap
    have hcall := callAt_inString ht hne (hsame ▸ hending)
    rw [constraintsFrom_eq, constraintsCut_eq, hcap]
    simp only [hending, ← hend, hcall]
    rfl

theorem isSome_parseConstraintsBlock (modelName : String) (body : List Char) :
    (parseConstraintsBlock u modelName body).isSome = true ↔
      ∀ inner ∈ block squares (searchWord u (member "constraints" '[') body), constraintsCut inner = true := by
  unfold parseConstraintsBlock dslSubArray
  cases hfind : searchWord u (member "constraints" '[') body with
  | none => simp [block]
  | some m =>
    simp only [balancedBody_endOf (Pattern.search_spec hfind).1, Option.bind_eq_bind, Option.bind_some]
    cases block squares (some m) with
    | none => simp
    | some inner =>
      simp only [Option.mem_some_iff, forall_eq']
      rw [← isSome_constraintsFrom modelName [] inner]
      rfl

/-! ## The diagnostics never panic -/

theorem isSome_topLevelKeys (t : List Char) : (topLevelKeys u t).isSome = true := by
  unfold topLevelKeys
  simp only [Option.bind_eq_bind, Option.isSome_bind, Option.isSome_some, Option.any_true]
  rw [List.isSome_mapM]
  intro cap hcap
  rw [sliceTo_startOf (Pattern.findAll_spec hcap).1]
  rfl

theorem isSome_keysOf (body : List Char) (key : String) : (keysOf u body key).isSome = true := by
  unfold keysOf dslSubBlock balancedBraceBody
  cases hfind : searchWord u (member key '{') body with
  | none => rfl
  | some m =>
    simp only [balancedBody_endOf (Pattern.search_spec hfind).1, Option.bind_eq_bind, Option.bind_some]
    cases block braces (some m) with
    | none => rfl
    | some inner => exact isSome_topLevelKeys u inner

theorem isSome_parseModel (tableToModel : List (String × String)) (name table : String) (body : List Char) :
    (parseModel u tableToModel name table body).isSome = true ↔ BodyCuts u body := by
  obtain ⟨fieldKeys, hfieldKeys⟩ := Option.isSome_iff_exists.1 (isSome_keysOf u body "fields")
  obtain ⟨accessKeys, haccessKeys⟩ := Option.isSome_iff_exists.1 (isSome_keysOf u body "access")
  obtain ⟨onKeys, honKeys⟩ := Option.isSome_iff_exists.1 (isSome_keysOf u body "on")
  obtain ⟨keys, hkeys⟩ := Option.isSome_iff_exists.1 (isSome_topLevelKeys u body)
  have hfields := isSome_parseFieldsBlock u body
  have hevents := isSome_parseOnBlock u body
  have hconstraints := isSome_parseConstraintsBlock u name body
  have hcuts : BodyCuts u body ↔ (parseFieldsBlock u body).isSome = true ∧ (parseOnBlock u body).isSome = true ∧
      (parseConstraintsBlock u name body).isSome = true := by
    rw [hfields, hevents, hconstraints]
    exact ⟨fun h => ⟨h.fields, h.events, h.constraints⟩, fun ⟨h, h', h''⟩ => ⟨h, h', h''⟩⟩
  rw [hcuts]
  unfold parseModel fieldsBlockDiagnostics accessBlockDiagnostics onBlockDiagnostics modelOptionDiagnostics
  rw [hfieldKeys, haccessKeys, honKeys, hkeys]
  cases parseFieldsBlock u body with
  | none => simp
  | some fields =>
    cases parseOnBlock u body with
    | none => simp
    | some events => cases parseConstraintsBlock u name body <;> simp

/-- The parser gives a schema of a text just when the text cuts, and panics on every other. -/
theorem isSome_parseBuilderDsl (content : List Char) :
    (parseBuilderDsl u content).isSome = true ↔ Cuts u content := by
  have hmodels : ((((findAll (modelItems u) content).filterMap fun cap =>
      (block braces (some cap)).map fun body =>
        (String.ofList (cap.group 1), String.ofList (cap.group 2), body)).mapM fun x =>
          parseModel u (parseModelNames u content) x.1 x.2.1 x.2.2).isSome = true) ↔
      ∀ cap ∈ findAll (modelItems u) content,
        ∀ body ∈ block braces (some cap), BodyCuts u body := by
    rw [List.isSome_mapM]
    simp only [isSome_parseModel, List.mem_filterMap, Option.map_eq_some_iff]
    constructor
    · intro h cap hcap body hbody
      exact h _ ⟨cap, hcap, body, hbody, rfl⟩
    · rintro h _ ⟨cap, hcap, body, hbody, rfl⟩
      exact h cap hcap body hbody
  have hcuts : Cuts u content ↔ (parseActionDefs u content).isSome = true ∧
      ∀ cap ∈ findAll (modelItems u) content,
        ∀ body ∈ block braces (some cap), BodyCuts u body := by
    rw [isSome_parseActionDefs]
    exact ⟨fun h => ⟨h.actions, h.models⟩, fun ⟨h, h'⟩ => ⟨h, h'⟩⟩
  rw [hcuts, ← hmodels]
  unfold parseBuilderDsl
  rw [parseModelBlocks_eq]
  cases parseActionDefs u content with
  | none => simp
  | some actions =>
    simp only [Option.bind_eq_bind, Option.bind_some, Option.isSome_bind, Option.isSome_some, Option.any_true,
      true_and]

end Functions

/-- A string of a call that does not end, arguments and a list of events that stop at once. -/
theorem unfinished_schemas_panic :
    parseBuilderDsl .ascii "export const onX = action('onX').from('".toList = none ∧
      parseBuilderDsl .ascii "export const Post = model('posts', \x7b fields: \x7b title: text(\x7d \x7d)".toList = none ∧
      parseBuilderDsl .ascii "export const Post = model('posts', \x7b on: \x7b created: [\x7d \x7d)".toList = none := by
  simp only [← Option.isNone_iff_eq_none]
  decide +kernel

end Atomo.Dsl
