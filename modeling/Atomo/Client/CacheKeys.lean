import Atomo.Client.CachedConfinement
import Mathlib.Data.Rat.Encodable

/-!
# The keys of the read cache

The key of a cached read is the text of the model, the operation, its arguments and the tenant. Taken apart from
behind it tells each of them, whatever characters the strings have (`CachedRead.key_inj`). So what the cache has
under the key of a read was read from the database by that very read, for the same tenant (`keys_apart`).
-/

namespace Atomo.Client.Cached

open Query (WhereClause WhereOperator OrderDirection)
open Debug (chars Closed Unescaped PrintsDoubles)
open Trailing (Final)

/-- A read that goes through the cache. -/
inductive CachedRead where
  | findMany (model : String) (clauses : List WhereClause) (orderBy : List (String × OrderDirection))
      (limit offset : Option Nat) (includes : List String)
  | findUnique (model : String) (clauses : List WhereClause) (includes : List String)
  | count (model : String) (clauses : List WhereClause)

variable (env : CachedEnv)

/-- The key that the read is cached under. -/
def CachedRead.key (scope : Scope) : CachedRead → String
  | findMany model clauses orderBy limit offset includes =>
    manyKey env scope model clauses orderBy limit offset includes
  | findUnique model clauses includes => uniqueKey env scope model clauses includes
  | count model clauses => countKey env scope model clauses

variable {env}

/-! ## The parts of a key -/

/-- Where anything may stand. -/
abbrev Anywhere : List Char → Prop :=
  fun _ => True

theorem unescaped_of_last {p l : List Char} (c : Char) (hl : l.getLast? = some c) (hc : c ≠ '\\') : Unescaped (p ++ l) := by
  obtain ⟨l, rfl⟩ := List.getLast?_eq_some_iff.1 hl
  exact Debug.unescaped_append hc

theorem final_operator (op : WhereOperator) : Final Anywhere (fun op => ' ' :: chars debugOperator op) op := by
  apply Trailing.final_of_suffix
  intro a b h
  cases a <;> cases b <;> first | rfl | exact absurd h (by decide)

theorem final_debugString (s : String) : Final Unescaped (chars (debugString env)) s :=
  Debug.final_string s

section Parts

variable {double : ℚ → String} (hdebug : ∀ v, env.debugValue v = Debug.json env.printed double v)
  (hdouble : PrintsDoubles double)

include hdebug

theorem chars_clause (clause : WhereClause) : chars (debugClause env) clause =
    "WhereClause \x7b field: ".toList ++ chars (debugString env) clause.field ++ ", operator:".toList ++
      (' ' :: chars debugOperator clause.operator) ++ ", value: ".toList ++
      chars (Debug.json env.printed double) clause.value ++ " \x7d".toList := by
  have hsplit : ", operator: ".toList = ", operator:".toList ++ [' '] := by decide
  unfold chars debugClause
  rw [hdebug]
  simp only [String.toList_append]
  rw [hsplit]
  generalize ", operator:".toList = middle
  simp only [List.append_assoc, List.cons_append, List.nil_append]

include hdouble

theorem final_clause (clause : WhereClause) : Final Anywhere (chars (debugClause env)) clause := by
  have hchars := chars_clause hdebug
  have hopen : ∀ p : List Char, Unescaped (p ++ "WhereClause \x7b field: ".toList) :=
    fun p => unescaped_of_last ' ' (by simp) (by decide)
  generalize "WhereClause \x7b field: ".toList = opening at hchars hopen
  generalize ", operator:".toList = first at hchars
  generalize ", value: ".toList = second at hchars
  generalize " \x7d".toList = closing at hchars
  intro p q other _ _ heq
  rw [hchars, hchars] at heq
  simp only [← List.append_assoc] at heq
  obtain ⟨heq, hvalue⟩ := (Debug.final_json hdouble _).peel trivial trivial (List.append_cancel_right heq)
  obtain ⟨heq, hoperator⟩ := (final_operator _).peel trivial trivial (List.append_cancel_right heq)
  obtain ⟨-, hfield⟩ := (final_debugString _).peel (hopen p) (hopen q) (List.append_cancel_right heq)
  obtain ⟨field, operator, value⟩ := clause
  obtain ⟨field', operator', value'⟩ := other
  simp only at hfield hoperator hvalue
  rw [hfield, hoperator, hvalue]

omit hdebug hdouble in
theorem closed_clause (clause : WhereClause) : Closed (debugClause env clause) := by
  unfold debugClause
  exact Debug.closed_append _ (l := [' ']) (c := '\x7d') (by simp) (by decide)

theorem final_clauses (clauses : List WhereClause) : Final Anywhere (chars (Debug.vec (debugClause env))) clauses :=
  Debug.final_vec closed_clause fun clause _ => (final_clause hdebug hdouble clause).mono fun _ _ => trivial

end Parts

/-- The end of the text of a column that is ordered by. -/
def directed : OrderDirection → List Char
  | .asc => " Asc)".toList
  | .desc => " Desc)".toList

theorem final_direction (direction : OrderDirection) : Final Anywhere directed direction := by
  apply Trailing.final_of_suffix
  intro a b h
  cases a <;> cases b <;> first | rfl | exact absurd h (by decide)

theorem final_order (order : String × OrderDirection) : Final Anywhere (chars (debugOrder env)) order := by
  have hchars : ∀ order : String × OrderDirection, chars (debugOrder env) order =
      ['('] ++ chars (debugString env) order.1 ++ [','] ++ directed order.2 := by
    intro order
    obtain ⟨field, direction⟩ := order
    cases direction <;> simp [chars, debugOrder, directed, String.toList_append]
  have hopen : ∀ p : List Char, Unescaped (p ++ ['(']) := fun p => unescaped_of_last '(' rfl (by decide)
  intro p q other _ _ heq
  rw [hchars, hchars] at heq
  simp only [← List.append_assoc] at heq
  obtain ⟨heq, hdirection⟩ := (final_direction order.2).peel trivial trivial heq
  obtain ⟨-, hfield⟩ := (final_debugString order.1).peel (hopen p) (hopen q) (List.append_cancel_right heq)
  exact Prod.ext hfield hdirection

theorem closed_order (order : String × OrderDirection) : Closed (debugOrder env order) := by
  unfold debugOrder
  exact Debug.closed_append _ (l := []) (c := ')') (by simp) (by decide)

theorem final_orders (orderBy : List (String × OrderDirection)) :
    Final Anywhere (chars (Debug.vec (debugOrder env))) orderBy :=
  Debug.final_vec closed_order fun order _ => (final_order order).mono fun _ _ => trivial

theorem final_bound (bound : Option Nat) : Final Anywhere (chars (Debug.option Nat.repr)) bound := by
  have hrepr : ∀ n, Final (fun p => ['('] <:+ p) (chars Nat.repr) n := by
    refine Trailing.final_of_notMem (fun m n h => Debug.repr_injective (String.toList_injective h)) fun n hc => ?_
    exact absurd (Debug.isDigit_of_mem_repr hc) (by decide)
  exact Debug.final_option hrepr (fun p => ⟨p ++ "Some".toList, by simp⟩) bound

theorem final_includes (includes : List String) : Final Anywhere (chars (Debug.vec (debugString env))) includes := by
  refine Debug.final_vec (fun s => ?_) fun s _ => final_debugString s
  unfold debugString Debug.string
  exact Debug.closed_append _ (l := []) (c := '"') (by simp) (by decide)

theorem final_tenant (tenant : Option String) : Final Anywhere (chars (Debug.option (debugString env))) tenant :=
  Debug.final_option final_debugString (fun p => unescaped_of_last '(' (by decide) (by decide)) tenant

/-! ## Whole keys -/

section Keys

variable {double : ℚ → String} (hdebug : ∀ v, env.debugValue v = Debug.json env.printed double v)
  (hdouble : PrintsDoubles double)

/-- The key before the text of the tenant. -/
def CachedRead.untenanted (env : CachedEnv) : CachedRead → List Char
  | findMany model clauses orderBy limit offset includes =>
    model.toList ++ [':', 'm', 'a', 'n', 'y', ':'] ++ chars (Debug.vec (debugClause env)) clauses ++ ['|'] ++
      chars (Debug.vec (debugOrder env)) orderBy ++ ['|'] ++ chars (Debug.option Nat.repr) limit ++ ['|'] ++
      chars (Debug.option Nat.repr) offset ++ ['|'] ++ chars (Debug.vec (debugString env)) includes ++ ['|']
  | findUnique model clauses includes =>
    model.toList ++ [':', 'u', 'n', 'i', 'q', 'u', 'e', ':'] ++ chars (Debug.vec (debugClause env)) clauses ++
      chars (Debug.vec (debugString env)) includes
  | count model clauses => model.toList ++ [':', 'c', 'o', 'u', 'n', 't', ':'] ++ chars (Debug.vec (debugClause env)) clauses

theorem CachedRead.toList_key (scope : Scope) (read : CachedRead) :
    (read.key env scope).toList = read.untenanted env ++ chars (Debug.option (debugString env)) scope.tenant := by
  cases read <;>
    simp [key, manyKey, uniqueKey, countKey, cacheKey, untenanted, debugTenant, chars, String.toList_append]

theorem vec_ends {α : Type} (debug : α → String) (xs : List α) : ∃ l, chars (Debug.vec debug) xs = l ++ [']'] := by
  unfold chars Debug.vec
  exact ⟨_, String.toList_append⟩

/-- The last two characters of a list that is not empty. -/
theorem vec_last {α : Type} {debug : α → String} {c : Char} (hlast : ∀ a, ∃ l, chars debug a = l ++ [c]) {xs : List α}
    (hxs : xs ≠ []) : ∃ l, chars (Debug.vec debug) xs = l ++ [c, ']'] := by
  rcases xs.eq_nil_or_concat with rfl | ⟨xs, x, rfl⟩
  · exact absurd rfl hxs
  obtain ⟨l, hl⟩ := hlast x
  rw [Debug.chars_vec, List.concat_eq_append, Trailing.listed_concat, hl]
  exact ⟨Trailing.before ['['] [',', ' '] (chars debug) xs ++ l, by simp⟩

theorem clause_last (clause : WhereClause) : ∃ l, chars (debugClause env) clause = l ++ ['\x7d'] := by
  obtain ⟨l, hl⟩ : ∃ l, " \x7d".toList = l ++ ['\x7d'] := ⟨[' '], by simp⟩
  unfold chars debugClause
  exact ⟨_, by rw [String.toList_append, hl, ← List.append_assoc]⟩

theorem include_last (s : String) : ∃ l, chars (debugString env) s = l ++ ['"'] :=
  Debug.string_ends s

/-- Clauses and includes do not end as clauses alone do. -/
theorem clauses_ne_includes {p q : List Char} {c : Char} (hc : c ≠ ']') {clauses clauses' : List WhereClause}
    {includes : List String} :
    p ++ [c] ++ chars (Debug.vec (debugClause env)) clauses ≠
      q ++ chars (Debug.vec (debugClause env)) clauses' ++ chars (Debug.vec (debugString env)) includes := by
  intro h
  have hnil : ∀ {α : Type} (debug : α → String), chars (Debug.vec debug) [] = ['[', ']'] := by
    intro α debug
    simp [chars, Debug.vec]
  by_cases hincludes : includes = []
  · obtain ⟨m, hm⟩ := vec_ends (debugClause env) clauses'
    by_cases hclauses : clauses = []
    · rw [hincludes, hclauses, hnil, hnil, hm] at h
      have hinner : p ++ [c] = q ++ m ++ [']'] := by simpa using List.append_cancel_right h
      exact hc (List.cons.inj (List.append_inj' hinner rfl).2).1
    · obtain ⟨l, hl⟩ := vec_last (@clause_last env) hclauses
      rw [hincludes, hnil, hl, ← List.append_assoc] at h
      cases (List.append_inj' h rfl).2
  · obtain ⟨m, hm⟩ := vec_last (@include_last env) hincludes
    rw [hm, ← List.append_assoc _ m] at h
    by_cases hclauses : clauses = []
    · rw [hclauses, hnil] at h
      cases (List.append_inj' h rfl).2
    · obtain ⟨l, hl⟩ := vec_last (@clause_last env) hclauses
      rw [hl, ← List.append_assoc] at h
      cases (List.append_inj' h rfl).2

include hdebug hdouble

/-- Where the keys end in the same clauses, the models are the same. -/
theorem models_eq {model model' : String} {name : List Char} {clauses clauses' : List WhereClause}
    (h : model.toList ++ name ++ chars (Debug.vec (debugClause env)) clauses =
      model'.toList ++ name ++ chars (Debug.vec (debugClause env)) clauses') : model = model' ∧ clauses = clauses' := by
  obtain ⟨hmodels, hclauses⟩ := (final_clauses hdebug hdouble clauses).peel trivial trivial h
  exact ⟨String.toList_injective (List.append_cancel_right hmodels), hclauses⟩

/-- The key before the text of the tenant tells the read, whatever stands in the name of the model. -/
theorem CachedRead.untenanted_injective : Function.Injective (CachedRead.untenanted env) := by
  intro read other heq
  cases read with
  | findMany model clauses orderBy limit offset includes =>
    cases other with
    | findMany model' clauses' orderBy' limit' offset' includes' =>
      unfold untenanted at heq
      obtain ⟨heq, hincludes⟩ := (final_includes includes).peel trivial trivial (List.append_cancel_right heq)
      obtain ⟨heq, hoffset⟩ := (final_bound offset).peel trivial trivial (List.append_cancel_right heq)
      obtain ⟨heq, hlimit⟩ := (final_bound limit).peel trivial trivial (List.append_cancel_right heq)
      obtain ⟨heq, horder⟩ := (final_orders orderBy).peel trivial trivial (List.append_cancel_right heq)
      obtain ⟨hmodel, hclauses⟩ := models_eq hdebug hdouble (List.append_cancel_right heq)
      rw [hmodel, hclauses, horder, hlimit, hoffset, hincludes]
    | findUnique model' clauses' includes' =>
      obtain ⟨l, hl⟩ := vec_ends (debugString env) includes'
      simp only [untenanted, hl, ← List.append_assoc] at heq
      cases (List.append_inj' heq rfl).2
    | count model' clauses' =>
      obtain ⟨l, hl⟩ := vec_ends (debugClause env) clauses'
      simp only [untenanted, hl, ← List.append_assoc] at heq
      cases (List.append_inj' heq rfl).2
  | findUnique model clauses includes =>
    cases other with
    | findMany model' clauses' orderBy' limit' offset' includes' =>
      obtain ⟨l, hl⟩ := vec_ends (debugString env) includes
      simp only [untenanted, hl, ← List.append_assoc] at heq
      cases (List.append_inj' heq rfl).2
    | findUnique model' clauses' includes' =>
      unfold untenanted at heq
      obtain ⟨heq, hincludes⟩ := (final_includes includes).peel trivial trivial heq
      obtain ⟨hmodel, hclauses⟩ := models_eq hdebug hdouble heq
      rw [hmodel, hclauses, hincludes]
    | count model' clauses' =>
      have hcount : (model'.toList ++ [':', 'c', 'o', 'u', 'n', 't']) ++ [':'] ++
          chars (Debug.vec (debugClause env)) clauses' =
          (model.toList ++ [':', 'u', 'n', 'i', 'q', 'u', 'e', ':']) ++ chars (Debug.vec (debugClause env)) clauses ++
            chars (Debug.vec (debugString env)) includes := by
        simpa [untenanted] using heq.symm
      exact absurd hcount (clauses_ne_includes (by decide))
  | count model clauses =>
    cases other with
    | findMany model' clauses' orderBy' limit' offset' includes' =>
      obtain ⟨l, hl⟩ := vec_ends (debugClause env) clauses
      simp only [untenanted, hl, ← List.append_assoc] at heq
      cases (List.append_inj' heq rfl).2
    | findUnique model' clauses' includes' =>
      have hcount : (model.toList ++ [':', 'c', 'o', 'u', 'n', 't']) ++ [':'] ++
          chars (Debug.vec (debugClause env)) clauses =
          (model'.toList ++ [':', 'u', 'n', 'i', 'q', 'u', 'e', ':']) ++ chars (Debug.vec (debugClause env)) clauses' ++
            chars (Debug.vec (debugString env)) includes' := by
        simpa [untenanted] using heq
      exact absurd hcount (clauses_ne_includes (by decide))
    | count model' clauses' =>
      unfold untenanted at heq
      obtain ⟨hmodel, hclauses⟩ := models_eq hdebug hdouble heq
      rw [hmodel, hclauses]

/-- Two reads have one key only if they are the same read, for the same tenant. -/
theorem CachedRead.key_inj {scope scope' : Scope} {read other : CachedRead}
    (h : read.key env scope = other.key env scope') : read = other ∧ scope.tenant = scope'.tenant := by
  have hlists := congrArg String.toList h
  rw [toList_key, toList_key] at hlists
  obtain ⟨hreads, htenant⟩ := (final_tenant scope.tenant).peel trivial trivial hlists
  exact ⟨untenanted_injective hdebug hdouble hreads, htenant⟩

end Keys

/-! ## What is found under a key -/

/-- What is done to the cache, by one call or another: a read looks for its result or stores it, at the instants
and with the generations that it happens to have. -/
inductive CacheUse where
  | get (scope : Scope) (read : CachedRead) (now : Nat) (current : UInt64)
  | set (scope : Scope) (read : CachedRead) (result : Json) (generation current : UInt64) (now later : Nat)
  | invalidateModel
  | invalidate (key : String)
  | evictExpired (now : Nat)

variable (env) in
def applyUse (st : Cache.State) : CacheUse → Cache.State
  | .get scope read now current => (st.get env.cache (read.key env scope) now current).2
  | .set scope read result generation current now later =>
    if generation ≠ current then st.rejectFill
    else st.fill env.cache (read.key env scope) result generation now later
  | .invalidateModel => st.invalidateModel env.cache
  | .invalidate key => st.remove key
  | .evictExpired now => st.reclaim env.cache now

variable (env) in
/-- The cache after some uses of it. -/
def cacheAfter (uses : List CacheUse) : Cache.State :=
  uses.foldl (applyUse env) {}

/-- Every entry was stored by a read under its key. -/
def Filled (env : CachedEnv) (uses : List CacheUse) (st : Cache.State) : Prop :=
  ∀ key entry, st.entries.lookup key = some entry → ∃ scope read generation current now later,
    CacheUse.set scope read entry.data generation current now later ∈ uses ∧ key = read.key env scope

section Uses

variable {uses : List CacheUse} {st st' : Cache.State}

theorem Filled.kept (h : Filled env uses st) (hkeeps : Cache.Keeps st st') : Filled env uses st' := by
  intro key entry hentry
  obtain ⟨entry', hentry', -, hdata⟩ := hkeeps key entry hentry
  rw [hdata]
  exact h key entry' hentry'

theorem Filled.more (h : Filled env uses st) (use : CacheUse) : Filled env (uses ++ [use]) st := by
  intro key entry hentry
  obtain ⟨scope, read, generation, current, now, later, hmem, hkey⟩ := h key entry hentry
  exact ⟨scope, read, generation, current, now, later, List.mem_append_left _ hmem, hkey⟩

theorem Filled.apply (h : Filled env uses st) (use : CacheUse) : Filled env (uses ++ [use]) (applyUse env st use) := by
  have hmore := h.more use
  cases use with
  | get scope read now current => exact hmore.kept (Cache.keeps_get env.cache st _ now current)
  | invalidateModel => exact hmore.kept (Cache.keeps_invalidateModel env.cache st)
  | invalidate key => exact hmore.kept (Cache.keeps_remove st key)
  | evictExpired now => exact hmore.kept (Cache.keeps_reclaim env.cache st now)
  | set scope read result generation current now later =>
    simp only [applyUse]
    split
    · exact hmore.kept (.refl st)
    by_cases hrefuses : Cache.State.refuses env.cache (read.key env scope)
        (Cache.State.entryBytes env.cache (read.key env scope) result) = true
    · intro key entry hentry
      rw [Cache.fill_entries_of_refuses hrefuses] at hentry
      exact hmore key entry hentry
    · intro key entry hentry
      rcases Cache.lookup_fill (Bool.not_eq_true _ ▸ hrefuses) hentry with ⟨rfl, -, hdata⟩ | ⟨-, e, he, -, hdata⟩
      · rw [hdata]
        exact ⟨scope, read, generation, current, now, later, List.mem_append_right _ List.mem_cons_self, rfl⟩
      · rw [hdata]
        exact hmore key e he

theorem filled_cacheAfter (env : CachedEnv) (uses : List CacheUse) : Filled env uses (cacheAfter env uses) := by
  induction uses using List.reverseRecOn with
  | nil => exact fun key entry hentry => by cases hentry
  | append_singleton uses use ih =>
    unfold cacheAfter
    rw [List.foldl_append]
    exact ih.apply use

end Uses

/-- Two cached reads have one key only if operation, model, arguments and tenant are the same. So what a read finds
in the cache, after any uses of it, was stored by the same read for the same tenant. -/
theorem keys_apart (env : CachedEnv) (double : ℚ → String) (hdouble : PrintsDoubles double)
    (hdebug : ∀ v, env.debugValue v = Debug.json env.printed double v) :
    (∀ (read other : CachedRead) (scope scope' : Scope), read.key env scope = other.key env scope' →
      read = other ∧ scope.tenant = scope'.tenant) ∧
    ∀ (uses : List CacheUse) (read : CachedRead) (scope : Scope) (now : Nat) (current : UInt64) (result : Json),
      ((cacheAfter env uses).get env.cache (read.key env scope) now current).1 = some result →
      ∃ scope' generation current' now' later, scope'.tenant = scope.tenant ∧
        CacheUse.set scope' read result generation current' now' later ∈ uses := by
  have hinj : ∀ (read other : CachedRead) (scope scope' : Scope), read.key env scope = other.key env scope' →
      read = other ∧ scope.tenant = scope'.tenant :=
    fun _ _ _ _ h => CachedRead.key_inj hdebug hdouble h
  refine ⟨hinj, fun uses read scope now current result hget => ?_⟩
  obtain ⟨entry, hentry, rfl⟩ := Cache.get_data hget
  obtain ⟨scope', other, generation, current', now', later, hmem, hkey⟩ := filled_cacheAfter env uses _ entry hentry
  obtain ⟨rfl, htenant⟩ := hinj read other scope scope' hkey
  exact ⟨scope', generation, current', now', later, htenant.symm, hmem⟩

/-! ## Keys of notes -/

/-- A way to print doubles. -/
def printDouble (q : ℚ) : String :=
  (Encodable.encode q).repr ++ ".0"

theorem printsDoubles : PrintsDoubles printDouble where
  injective q r h := Encodable.encode_injective (Debug.repr_injective (String.append_left_inj ".0" |>.1 h))
  characters q c hc := by
    rw [printDouble, String.toList_append, List.mem_append] at hc
    rcases hc with hc | hc
    · exact .inl (Debug.isDigit_of_mem_repr hc)
    · rcases List.mem_pair.1 hc with rfl | rfl
      · exact .inr (by decide)
      · exact .inl (by decide)
  fractional q := by
    left
    rw [printDouble, String.toList_append]
    exact List.mem_append_right _ List.mem_cons_self

def printingClient : CachedEnv :=
  { noteClient with debugValue := Debug.json noteClient.printed printDouble }

theorem keys_apart_notes :
    (∀ (read other : CachedRead) (scope scope' : Scope),
      read.key printingClient scope = other.key printingClient scope' →
      read = other ∧ scope.tenant = scope'.tenant) ∧
    ∀ (uses : List CacheUse) (read : CachedRead) (scope : Scope) (now : Nat) (current : UInt64) (result : Json),
      ((cacheAfter printingClient uses).get printingClient.cache (read.key printingClient scope) now current).1 =
        some result →
      ∃ scope' generation current' now' later, scope'.tenant = scope.tenant ∧
        CacheUse.set scope' read result generation current' now' later ∈ uses :=
  keys_apart printingClient printDouble printsDoubles fun _ => rfl

end Atomo.Client.Cached
