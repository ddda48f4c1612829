import Atomo.Cache.Freshness
import Atomo.Lib.Assoc
import Atomo.Lib.Reading

/-!
# What the cache holds

The accounting and the capacity of the read cache over every sequence of its operations. The counters are those of the
stored entries after every removal and every insertion (`Accounted`), the limits of the cache and of each model hold
whenever an operation has ended (`Bounded`), and both eviction loops of `set_if_generation` end (`Loop`).
-/

namespace Atomo.Cache

/-- A sum of sizes as `usize` has it. -/
def saturated (n : Nat) : Nat :=
  min n (2 ^ 64 - 1)

theorem saturated_mono {m n : Nat} (h : m ≤ n) : saturated m ≤ saturated n := by
  unfold saturated
  omega

theorem saturatingAdd_eq (a b : Nat) : saturatingAdd a b = saturated (a + b) :=
  rfl

/-- The sum of some sizes. -/
def totalBytes (sizes : List (String × Nat)) : Nat :=
  (sizes.map (·.2)).sum

/-- The sizes of the entries of the model that a key belongs to. -/
def ofModel (sizes : List (String × Nat)) (key : String) : List (String × Nat) :=
  sizes.filter fun e => modelOf e.1 = modelOf key

/-- The stored keys, with the sizes of their entries. -/
def State.sizes (st : State) : List (String × Nat) :=
  st.entries.entries.map fun e => (e.1, e.2.bytes)

/-- The counters are those of the stored entries. -/
structure Accounted (st : State) : Prop where
  bytes : st.metrics.estimatedBytes = totalBytes st.sizes
  entries : st.metrics.entries = st.entries.entries.length

/-- The entries are within the limits of the cache and of each model. -/
structure Bounded (env : Env) (sizes : List (String × Nat)) : Prop where
  count : sizes.length ≤ env.config.maxEntries
  bytes : saturated (totalBytes sizes) ≤ env.config.maxBytes
  modelCount : ∀ key, (ofModel sizes key).length ≤ (policy env key).maxEntries.getD env.config.maxEntries
  modelBytes : ∀ key, saturated (totalBytes (ofModel sizes key)) ≤ (policy env key).maxBytes.getD env.config.maxBytes

/-! ## Fewer entries -/

section Sizes

variable {sizes sizes' : List (String × Nat)}

theorem totalBytes_perm (h : sizes.Perm sizes') : totalBytes sizes = totalBytes sizes' :=
  (h.map _).sum_nat

theorem totalBytes_le (h : sizes.Subperm sizes') : totalBytes sizes ≤ totalBytes sizes' := by
  obtain ⟨l, hperm, hsub⟩ := h
  rw [← totalBytes_perm hperm]
  clear hperm
  induction hsub with
  | slnil => exact Nat.le_refl _
  | cons a _ ih => exact Nat.le_trans ih (Nat.le_add_left _ _)
  | cons_cons a _ ih => exact Nat.add_le_add_left ih _

theorem Bounded.fewer {env : Env} (h : Bounded env sizes') (hsub : sizes.Subperm sizes') : Bounded env sizes where
  count := Nat.le_trans hsub.length_le h.count
  bytes := Nat.le_trans (saturated_mono (totalBytes_le hsub)) h.bytes
  modelCount key := Nat.le_trans (hsub.filter _).length_le (h.modelCount key)
  modelBytes key := Nat.le_trans (saturated_mono (totalBytes_le (hsub.filter _))) (h.modelBytes key)

end Sizes

/-! ## A removal -/

section Removal

variable {st : State} {key : String}

theorem perm_sizes {old : CacheEntry} (h : st.entries.lookup key = some old) :
    st.sizes.Perm ((key, old.bytes) :: (st.remove key).sizes) :=
  (AList.perm_cons_erase h).map _

theorem sizes_remove_sublist (st : State) (key : String) : (st.remove key).sizes.Sublist st.sizes :=
  (List.kerase_sublist key st.entries.entries).map _

theorem Accounted.le (h : Accounted st) {old : CacheEntry} (hold : st.entries.lookup key = some old) :
    old.bytes ≤ st.metrics.estimatedBytes := by
  rw [h.bytes, totalBytes_perm (perm_sizes hold)]
  exact Nat.le_add_right _ _

theorem Accounted.remove (h : Accounted st) (key : String) : Accounted (st.remove key) where
  bytes := by
    unfold State.remove
    cases hold : st.entries.lookup key with
    | none =>
      have habsent : st.entries.erase key = st.entries := AList.erase_of_lookup_none hold
      rw [habsent]
      exact h.bytes
    | some old =>
      have htotal : totalBytes st.sizes = old.bytes + totalBytes (st.remove key).sizes := totalBytes_perm (perm_sizes hold)
      have hsizes : (st.remove key).sizes = (st.entries.erase key).entries.map fun e => (e.1, e.2.bytes) := rfl
      change st.metrics.estimatedBytes - old.bytes = totalBytes ((st.entries.erase key).entries.map _)
      rw [h.bytes, htotal, ← hsizes, Nat.add_sub_cancel_left]
  entries := rfl

/-- Counters that no size is computed from. -/
theorem Accounted.bumpExpired (h : Accounted st) : Accounted st.bumpExpired :=
  ⟨h.bytes, h.entries⟩

theorem Accounted.bumpEvicted (h : Accounted st) : Accounted st.bumpEvicted :=
  ⟨h.bytes, h.entries⟩

theorem accounted_removals (h : Accounted st) (keys : List String) : Accounted (keys.foldl State.remove st) := by
  induction keys generalizing st with
  | nil => exact h
  | cons key keys ih => exact ih (h.remove key)

theorem accounted_reclaim (env : Env) (h : Accounted st) (now : Nat) : Accounted (st.reclaim env now) := by
  unfold State.reclaim
  generalize ((env.iterate st.entries.entries).filter fun e => e.2.expired now).map (·.1) = keys
  induction keys generalizing st with
  | nil => exact h
  | cons key keys ih => exact ih (h.remove key).bumpExpired

theorem sizes_reclaim_sublist (env : Env) (st : State) (now : Nat) : (st.reclaim env now).sizes.Sublist st.sizes := by
  unfold State.reclaim
  generalize ((env.iterate st.entries.entries).filter fun e => e.2.expired now).map (·.1) = keys
  induction keys generalizing st with
  | nil => exact List.Sublist.refl _
  | cons key keys ih => exact (ih (st.remove key).bumpExpired).trans (sizes_remove_sublist st key)

end Removal

/-! ## The eviction loops -/

/-- A `while` loop that removes the least recently accessed candidate, to its end. -/
inductive Loop (full : State → Bool) (candidates : State → List (Sigma fun _ : String => CacheEntry)) : State → State → Prop
  | done {st : State} (h : full st = false) : Loop full candidates st st
  | exhausted {st : State} (h : State.leastRecent (candidates st) = none) : Loop full candidates st st
  | round {st st' : State} {old : String} (hfull : full st = true) (hold : State.leastRecent (candidates st) = some old)
      (h : Loop full candidates (st.remove old).bumpEvicted st') : Loop full candidates st st'

section Loop

variable {full : State → Bool} {candidates : State → List (Sigma fun _ : String => CacheEntry)} {st st' : State}

theorem mem_of_leastRecent {es : List (Sigma fun _ : String => CacheEntry)} {old : String}
    (h : State.leastRecent es = some old) : ∃ e ∈ es, e.1 = old := by
  obtain ⟨e, he, rfl⟩ := Option.map_eq_some_iff.1 h
  exact ⟨e, List.argmin_mem he, rfl⟩

/-- As many rounds as there are entries are enough. -/
theorem loop_evictWhile (hcand : ∀ st, ∀ e ∈ candidates st, e ∈ st.entries.entries) {rounds : Nat}
    (hrounds : st.entries.entries.length ≤ rounds) : Loop full candidates st (State.evictWhile full candidates rounds st) := by
  induction rounds generalizing st with
  | zero =>
    refine .exhausted ?_
    cases hleast : State.leastRecent (candidates st) with
    | none => rfl
    | some old =>
      obtain ⟨e, he, -⟩ := mem_of_leastRecent hleast
      have hmem := hcand st e he
      rw [List.length_eq_zero_iff.1 (Nat.le_zero.1 hrounds)] at hmem
      exact absurd hmem List.not_mem_nil
  | succ rounds ih =>
    unfold State.evictWhile
    cases hfull : full st with
    | false => exact .done hfull
    | true =>
      rw [if_pos rfl]
      cases hleast : State.leastRecent (candidates st) with
      | none => exact .exhausted hleast
      | some old =>
        obtain ⟨e, he, rfl⟩ := mem_of_leastRecent hleast
        have hmem : e.1 ∈ st.entries := AList.mem_keys.2 (List.mem_map_of_mem (hcand st e he))
        have hlength := AList.length_erase_of_mem hmem
        refine .round hfull hleast (ih ?_)
        change (st.entries.erase e.1).entries.length ≤ rounds
        omega

theorem Loop.accounted (h : Loop full candidates st st') (hst : Accounted st) : Accounted st' := by
  induction h with
  | done => exact hst
  | exhausted => exact hst
  | round _ _ _ ih => exact ih (hst.remove _).bumpEvicted

theorem Loop.sublist (h : Loop full candidates st st') : st'.sizes.Sublist st.sizes := by
  induction h with
  | done => exact List.Sublist.refl _
  | exhausted => exact List.Sublist.refl _
  | round _ _ _ ih => exact ih.trans (sizes_remove_sublist _ _)

theorem Loop.ended (h : Loop full candidates st st') : full st' = false ∨ candidates st' = [] := by
  induction h with
  | done h => exact .inl h
  | exhausted h => exact .inr (List.argmin_eq_none.1 (Option.map_eq_none_iff.1 h))
  | round _ _ _ ih => exact ih

end Loop

/-! ## Making room -/

section Room

variable {env : Env} {st st' : State} {key : String} {bytes : Nat}

/-- The cache has no room for an entry of this size. -/
def isFull (env : Env) (bytes : Nat) (st : State) : Bool :=
  env.config.maxEntries ≤ st.entries.entries.length ||
    env.config.maxBytes < saturatingAdd st.metrics.estimatedBytes bytes

/-- The model of the key has none. -/
def isModelFull (env : Env) (key : String) (bytes : Nat) (st : State) : Bool :=
  let model := State.modelEntries env st key
  !(model.length < (policy env key).maxEntries.getD env.config.maxEntries &&
    saturatingAdd (model.map (·.2.bytes)).sum bytes ≤ (policy env key).maxBytes.getD env.config.maxBytes)

theorem loop_makeRoom (env : Env) (st : State) (bytes : Nat) :
    Loop (isFull env bytes) (fun st => env.iterate st.entries.entries) st (State.makeRoom env st bytes) :=
  loop_evictWhile (fun st _ he => (env.iterate_perm st.entries.entries).mem_iff.1 he) (Nat.le_refl _)

theorem loop_makeModelRoom (env : Env) (st : State) (key : String) (bytes : Nat) :
    Loop (isModelFull env key bytes) (fun st => State.modelEntries env st key) st (State.makeModelRoom env st key bytes) :=
  loop_evictWhile (fun st _ he => (env.iterate_perm st.entries.entries).mem_iff.1 (List.mem_filter.1 he).1) (Nat.le_refl _)

/-- What is not refused fits into the empty cache, and into a model without entries. -/
structure Fits (env : Env) (key : String) (bytes : Nat) : Prop where
  entries : 0 < env.config.maxEntries
  size : bytes ≤ env.config.maxBytes
  modelEntries : 0 < (policy env key).maxEntries.getD env.config.maxEntries
  modelSize : bytes ≤ (policy env key).maxBytes.getD env.config.maxBytes

theorem fits_of_not_refuses (h : State.refuses env key bytes = false) : Fits env key bytes := by
  simp only [State.refuses, Bool.or_eq_false_iff, decide_eq_false_iff_not, Nat.not_lt] at h
  obtain ⟨⟨⟨⟨-, hentries⟩, hmodel⟩, hbytes⟩, -⟩ := h
  refine ⟨Nat.pos_of_ne_zero hentries, Nat.le_trans hbytes (Nat.min_le_right _ _), ?_,
    Nat.le_trans hbytes (Nat.min_le_left _ _)⟩
  cases hlimit : (policy env key).maxEntries with
  | none => exact Nat.pos_of_ne_zero hentries
  | some n => exact Nat.pos_of_ne_zero fun hzero => hmodel (hlimit.trans (congrArg some hzero))

theorem room_makeRoom (h : Accounted st) (hfits : Fits env key bytes) :
    (State.makeRoom env st bytes).sizes.length < env.config.maxEntries ∧
      saturated (totalBytes (State.makeRoom env st bytes).sizes + bytes) ≤ env.config.maxBytes := by
  have hloop := loop_makeRoom env st bytes
  have hacc := hloop.accounted h
  generalize State.makeRoom env st bytes = st' at hloop hacc
  rcases hloop.ended with hfull | hnil
  · simp only [isFull, Bool.or_eq_false_iff, decide_eq_false_iff_not, Nat.not_le, Nat.not_lt] at hfull
    rw [hacc.bytes, saturatingAdd_eq] at hfull
    exact ⟨by rw [State.sizes, List.length_map]; exact hfull.1, hfull.2⟩
  · have hempty : st'.sizes = [] := by
      have hperm := env.iterate_perm st'.entries.entries
      rw [hnil] at hperm
      rw [State.sizes, ← hperm.nil_eq]
      rfl
    rw [hempty]
    refine ⟨hfits.entries, ?_⟩
    have hzero : totalBytes [] = 0 := rfl
    rw [hzero, Nat.zero_add]
    exact Nat.le_trans (Nat.min_le_left _ _) hfits.size

/-- Every stored key has a colon. -/
def Keyed (sizes : List (String × Nat)) : Prop :=
  ∀ e ∈ sizes, ':' ∈ e.1.toList

/-- A key with a colon begins with the name of its model and a colon, and with no other's. -/
theorem isPrefixOf_modelOf {k : String} (hk : ':' ∈ k.toList) (key : String) :
    (modelOf key ++ ":").toList.isPrefixOf k.toList = decide (modelOf k = modelOf key) := by
  have hplain : ∀ l : List Char, ∀ c ∈ l.takeWhile (· ≠ ':'), decide (c ≠ ':') = true := by
    intro l c hc
    have hne := List.mem_takeWhile_imp hc
    exact hne
  have hcolon : ∀ l : List Char, ∀ c ∈ (':' :: l).head?, (decide (c ≠ ':')) = false := by
    intro l c hc
    cases hc
    rfl
  obtain ⟨rest, hrest⟩ : ∃ rest, k.toList = k.toList.takeWhile (· ≠ ':') ++ ':' :: rest := by
    obtain ⟨name, rest, hsplit, hnot⟩ := List.eq_append_cons_of_mem hk
    have hname : ∀ c ∈ name, decide (c ≠ ':') = true := fun c hc => decide_eq_true fun heq => hnot (heq ▸ hc)
    refine ⟨rest, ?_⟩
    rw [hsplit, (Pattern.takeWhile_append_head hname (hcolon rest)).1]
  have hof : ∀ s : String, (modelOf s).toList = s.toList.takeWhile (· ≠ ':') := fun s => String.toList_ofList
  rw [Bool.eq_iff_iff, List.isPrefixOf_iff_prefix, decide_eq_true_iff, String.toList_append, hof key, ← String.toList_inj,
    hof k, hof key]
  constructor
  · rintro ⟨t, ht⟩
    have hkey : key.toList.takeWhile (· ≠ ':') ++ ':' :: t = k.toList.takeWhile (· ≠ ':') ++ ':' :: rest := by
      rw [← hrest, ← ht]
      simp
    exact (Pattern.append_head_inj (hplain _) (hcolon _) (hplain _) (hcolon _) hkey).1.symm
  · intro heq
    refine ⟨rest, ?_⟩
    rw [hrest, heq]
    simp

theorem perm_modelEntries (h : Keyed st.sizes) (key : String) :
    ((State.modelEntries env st key).map fun e => (e.1, e.2.bytes)).Perm (ofModel st.sizes key) := by
  have hfilter : ofModel st.sizes key =
      (st.entries.entries.filter fun e => (modelOf key ++ ":").toList.isPrefixOf e.1.toList).map
        fun e => (e.1, e.2.bytes) := by
    rw [ofModel, State.sizes, List.filter_map]
    refine congrArg _ (List.filter_congr fun e he => ?_)
    exact (isPrefixOf_modelOf (h _ (List.mem_map_of_mem he)) key).symm
  rw [hfilter]
  exact ((env.iterate_perm st.entries.entries).filter _).map _

theorem room_makeModelRoom (hkeys : Keyed st.sizes) (hfits : Fits env key bytes) :
    (ofModel (State.makeModelRoom env st key bytes).sizes key).length <
        (policy env key).maxEntries.getD env.config.maxEntries ∧
      saturated (totalBytes (ofModel (State.makeModelRoom env st key bytes).sizes key) + bytes) ≤
        (policy env key).maxBytes.getD env.config.maxBytes := by
  have hloop := loop_makeModelRoom env st key bytes
  generalize State.makeModelRoom env st key bytes = st' at hloop
  have hperm := @perm_modelEntries env _ (fun e he => hkeys e (hloop.sublist.subset he)) key
  rw [← hperm.length_eq, ← totalBytes_perm hperm]
  rcases hloop.ended with hfull | hnil
  · simp only [isModelFull, Bool.not_eq_false', Bool.and_eq_true, decide_eq_true_iff] at hfull
    rw [List.length_map, totalBytes, List.map_map]
    exact hfull
  · rw [hnil]
    refine ⟨hfits.modelEntries, ?_⟩
    change saturated (0 + bytes) ≤ _
    rw [Nat.zero_add]
    exact Nat.le_trans (Nat.min_le_left _ _) hfits.modelSize

end Room

/-! ## The operations -/

/-- `ReadCache::key`. -/
def cacheKey (model query : String) : String :=
  model ++ ":" ++ query

/-- An operation, with the instants that it reads and the generation that it loads. -/
inductive Operation where
  | get (model query : String) (now : Nat) (current : UInt64)
  | setIfGeneration (model query : String) (value : Json) (generation current : UInt64) (now later : Nat)
  | invalidateModel
  | invalidate (model query : String)
  | evictExpired (now : Nat)

/-- What an operation does to the state under the mutex. -/
def State.perform (env : Env) (st : State) : Operation → State
  | .get model query now current => (st.get env (cacheKey model query) now current).2
  | .setIfGeneration model query value generation current now later =>
    if generation ≠ current then st.rejectFill else st.fill env (cacheKey model query) value generation now later
  | .invalidateModel => st.invalidateModel env
  | .invalidate model query => st.remove (cacheKey model query)
  | .evictExpired now => st.reclaim env now

/-- The state after some operations. -/
def performAll (env : Env) (ops : List Operation) : State :=
  ops.foldl (State.perform env) {}

/-- The invariant. -/
structure Held (env : Env) (st : State) : Prop where
  accounted : Accounted st
  bounded : Bounded env st.sizes
  keyed : Keyed st.sizes

section Operations

variable {env : Env} {st : State}

theorem colon_mem_cacheKey (model query : String) : ':' ∈ (cacheKey model query).toList := by
  simp [cacheKey]

theorem Held.fewer {st' : State} (h : Held env st) (haccounted : Accounted st') (hsub : st'.sizes.Subperm st.sizes) :
    Held env st' :=
  ⟨haccounted, h.bounded.fewer hsub, fun e he => h.keyed e (hsub.subset he)⟩

theorem held_empty (env : Env) : Held env {} where
  accounted := ⟨rfl, rfl⟩
  bounded := ⟨Nat.zero_le _, Nat.zero_le _, fun _ => Nat.zero_le _, fun _ => Nat.zero_le _⟩
  keyed _ he := absurd he List.not_mem_nil

theorem Held.remove (h : Held env st) (key : String) : Held env (st.remove key) :=
  h.fewer (h.accounted.remove key) (sizes_remove_sublist st key).subperm

theorem Held.reclaim (h : Held env st) (now : Nat) : Held env (st.reclaim env now) :=
  h.fewer (accounted_reclaim env h.accounted now) (sizes_reclaim_sublist env st now).subperm

/-- An entry that is read keeps its size. -/
theorem Held.touch (h : Held env st) {key : String} {entry : CacheEntry} (hentry : st.entries.lookup key = some entry)
    (now : Nat) :
    Held env ⟨st.entries.insert key { entry with accessed := now }, { st.metrics with hits := st.metrics.hits + 1 }⟩ := by
  have hmem : key ∈ st.entries := AList.lookup_isSome.1 (by rw [hentry]; rfl)
  have hperm : ((st.entries.insert key { entry with accessed := now }).entries.map fun e => (e.1, e.2.bytes)).Perm
      st.sizes := by
    rw [AList.entries_insert]
    exact (perm_sizes hentry).symm
  refine h.fewer ⟨?_, ?_⟩ hperm.subperm
  · exact h.accounted.bytes.trans (totalBytes_perm hperm).symm
  · exact h.accounted.entries.trans (AList.length_insert_of_mem hmem).symm

theorem Held.get (h : Held env st) (key : String) (now : Nat) (current : UInt64) :
    Held env (st.get env key now current).2 := by
  have hmetrics : ∀ {st : State} {metrics : CacheMetrics}, Held env st → metrics.estimatedBytes = st.metrics.estimatedBytes →
      metrics.entries = st.metrics.entries → Held env { st with metrics } := by
    intro st metrics h hbytes hentries
    exact ⟨⟨hbytes.trans h.accounted.bytes, hentries.trans h.accounted.entries⟩, h.bounded, h.keyed⟩
  unfold State.get
  split
  · exact hmetrics h rfl rfl
  · dsimp only
    generalize hst : (if ((st.entries.lookup key).any fun e => e.expired now ||
      (env.config.mode = .strong && e.generation ≠ current)) = true then
        (st.remove key).bumpExpired else st) = st'
    have hheld : Held env st' := by
      rw [← hst]
      split
      · exact (h.remove key).fewer (h.remove key).accounted.bumpExpired (List.Subperm.refl _)
      · exact h
    split
    · next entry hentry =>
      split
      · exact hmetrics hheld rfl rfl
      · exact hheld.touch hentry now
    · exact hmetrics hheld rfl rfl

/-- An entry for which room has been made. -/
theorem Held.insertEntry (h : Held env st) {key : String} (hkey : ':' ∈ key.toList) (habsent : key ∉ st.entries)
    {bytes : Nat} (hroom : st.sizes.length < env.config.maxEntries ∧
      saturated (totalBytes st.sizes + bytes) ≤ env.config.maxBytes)
    (hmodel : (ofModel st.sizes key).length < (policy env key).maxEntries.getD env.config.maxEntries ∧
      saturated (totalBytes (ofModel st.sizes key) + bytes) ≤ (policy env key).maxBytes.getD env.config.maxBytes)
    (value : Json) (generation : UInt64) (now : Nat) : Held env (st.insertEntry env key value generation bytes now) := by
  have hsizes : (st.insertEntry env key value generation bytes now).sizes = (key, bytes) :: st.sizes := by
    unfold State.insertEntry State.sizes
    dsimp only
    rw [AList.entries_insert_of_notMem habsent]
    rfl
  have htotal : ∀ sizes, totalBytes ((key, bytes) :: sizes) = totalBytes sizes + bytes := fun sizes => Nat.add_comm _ _
  refine ⟨⟨?_, rfl⟩, ?_, fun e he => ?_⟩
  · rw [hsizes, htotal, ← h.accounted.bytes]
    rfl
  · rw [hsizes]
    have hof : ∀ key', ofModel ((key, bytes) :: st.sizes) key' =
        if modelOf key = modelOf key' then (key, bytes) :: ofModel st.sizes key' else ofModel st.sizes key' := by
      intro key'
      by_cases hsame : modelOf key = modelOf key' <;> simp [ofModel, hsame]
    have hsame : ∀ key', modelOf key = modelOf key' → ofModel st.sizes key' = ofModel st.sizes key ∧
        policy env key' = policy env key := by
      intro key' heq
      simp only [ofModel, policy, heq, and_self]
    refine ⟨hroom.1, by rw [htotal]; exact hroom.2, fun key' => ?_, fun key' => ?_⟩
    · rw [hof]
      split
      · next heq =>
        rw [(hsame key' heq).1, (hsame key' heq).2]
        exact hmodel.1
      · exact h.bounded.modelCount key'
    · rw [hof]
      split
      · next heq =>
        rw [(hsame key' heq).1, (hsame key' heq).2, htotal]
        exact hmodel.2
      · exact h.bounded.modelBytes key'
  · rw [hsizes] at he
    rcases List.mem_cons.1 he with rfl | he
    · exact hkey
    · exact h.keyed e he

theorem Held.fill (h : Held env st) {key : String} (hkey : ':' ∈ key.toList) (value : Json) (generation : UInt64)
    (now later : Nat) : Held env (st.fill env key value generation now later) := by
  unfold State.fill
  dsimp only
  generalize State.entryBytes env key value = bytes
  cases hrefuses : State.refuses env key bytes with
  | true =>
    rw [if_pos rfl]
    exact ⟨⟨h.accounted.bytes, h.accounted.entries⟩, h.bounded, h.keyed⟩
  | false =>
    rw [if_neg Bool.false_ne_true]
    have hfits := fits_of_not_refuses hrefuses
    have hstart := (h.reclaim now).remove key
    have habsent : ∀ e ∈ ((st.reclaim env now).remove key).sizes, e.1 ≠ key := by
      rintro e he rfl
      obtain ⟨entry, hentry, hkey⟩ := List.mem_map.1 he
      have hmem : e.1 ∈ (st.reclaim env now).entries.erase e.1 :=
        AList.mem_keys.2 (List.mem_map.2 ⟨entry, hentry, congrArg Prod.fst hkey⟩)
      exact (AList.mem_erase.1 hmem).1 rfl
    generalize (st.reclaim env now).remove key = st₀ at hstart habsent
    have hroom := room_makeRoom hstart.accounted hfits
    have hloop := loop_makeRoom env st₀ bytes
    have hmade := hstart.fewer (hloop.accounted hstart.accounted) hloop.sublist.subperm
    have hsub₁ := hloop.sublist
    generalize State.makeRoom env st₀ bytes = st₁ at hroom hmade hsub₁
    have hmodelRoom := room_makeModelRoom hmade.keyed hfits
    have hmodelLoop := loop_makeModelRoom env st₁ key bytes
    have hmodelMade := hmade.fewer (hmodelLoop.accounted hmade.accounted) hmodelLoop.sublist.subperm
    have hsub₂ := hmodelLoop.sublist
    generalize State.makeModelRoom env st₁ key bytes = st₂ at hmodelRoom hmodelMade hsub₂
    refine hmodelMade.insertEntry hkey (fun hmem => ?_) ⟨?_, ?_⟩ hmodelRoom value generation later
    · obtain ⟨e, he, heq⟩ := List.mem_map.1 (AList.mem_keys.1 hmem)
      exact habsent _ (hsub₁.subset (hsub₂.subset (List.mem_map_of_mem he))) heq
    · exact Nat.lt_of_le_of_lt hsub₂.length_le hroom.1
    · exact Nat.le_trans (saturated_mono (Nat.add_le_add_right (totalBytes_le hsub₂.subperm) bytes)) hroom.2

theorem Held.perform (h : Held env st) (op : Operation) : Held env (st.perform env op) := by
  cases op with
  | get model query now current => exact h.get _ now current
  | setIfGeneration model query value generation current now later =>
    unfold State.perform
    dsimp only
    split
    · exact ⟨⟨h.accounted.bytes, h.accounted.entries⟩, h.bounded, h.keyed⟩
    · exact h.fill (colon_mem_cacheKey model query) value generation now later
  | invalidateModel =>
    unfold State.perform State.invalidateModel
    dsimp only
    split
    · have hempty := held_empty env
      exact ⟨⟨rfl, rfl⟩, hempty.bounded, hempty.keyed⟩
    · exact ⟨⟨h.accounted.bytes, h.accounted.entries⟩, h.bounded, h.keyed⟩
  | invalidate model query => exact h.remove _
  | evictExpired now => exact h.reclaim now

theorem held_performAll (env : Env) (ops : List Operation) : Held env (performAll env ops) := by
  unfold performAll
  have hempty := held_empty env
  generalize ({} : State) = st at hempty
  induction ops generalizing st with
  | nil => exact hempty
  | cons op ops ih => exact ih _ (hempty.perform op)

/-- After any operations the counters are those of the stored entries, and the entries are within all limits, with sizes
added up as `usize` does. Whatever entries are then removed, none has more bytes than are counted, so no counter goes
below zero. The two eviction loops of a `set_if_generation` end. -/
theorem cache_bounded (env : Env) (ops : List Operation) :
    Accounted (performAll env ops) ∧ Bounded env (performAll env ops).sizes ∧
    (∀ (keys : List String) (key : String) (old : CacheEntry),
      (keys.foldl State.remove (performAll env ops)).entries.lookup key = some old →
      old.bytes ≤ (keys.foldl State.remove (performAll env ops)).metrics.estimatedBytes) ∧
    (∀ st bytes, Loop (isFull env bytes) (fun st => env.iterate st.entries.entries) st (State.makeRoom env st bytes)) ∧
    ∀ st key bytes, Loop (isModelFull env key bytes) (fun st => State.modelEntries env st key) st
      (State.makeModelRoom env st key bytes) := by
  have hheld := held_performAll env ops
  exact ⟨hheld.accounted, hheld.bounded, fun keys key old hold => (accounted_removals hheld.accounted keys).le hold,
    loop_makeRoom env, loop_makeModelRoom env⟩

end Operations

end Atomo.Cache
