import Atomo.Cache.ReadCache
import Atomo.Lib.LabelledSystem

/-!
# Freshness of strong-mode reads

Any number of readers run the sequence of `find_many` and any number of writers run commit,
`fetch_add`, clear, interleaved step by step. The counter is an `AtomicU64`: after `count` increments
it holds `count` modulo `2^64`. A read is at least as recent as every write that had bumped the
counter when the reader loaded it, and `get` returns an entry only while the counter still has the
value its reader loaded. So what `get` yields is fresh unless the counter has come back to that value
after `2^64` increments.

The stripes of `lock_fill` only remove interleavings and are left out.
-/

namespace Atomo.Cache

open LabelledSystem

/-! ## Entries across the operations -/

/-- Every entry of `st'` is in `st` with the same generation and data. -/
def Keeps (st st' : State) : Prop :=
  ∀ k e', st'.entries.lookup k = some e' →
    ∃ e, st.entries.lookup k = some e ∧ e'.generation = e.generation ∧ e'.data = e.data

theorem Keeps.refl (st : State) : Keeps st st :=
  fun _ e h => ⟨e, h, rfl, rfl⟩

theorem Keeps.trans {a b c : State} (hab : Keeps a b) (hbc : Keeps b c) : Keeps a c := by
  intro k e hk
  obtain ⟨e', hk', hg, hd⟩ := hbc k e hk
  obtain ⟨e'', hk'', hg', hd'⟩ := hab k e' hk'
  exact ⟨e'', hk'', hg.trans hg', hd.trans hd'⟩

theorem keeps_remove (st : State) (key : String) : Keeps st (st.remove key) := by
  intro k e hk
  have hk : (st.entries.erase key).lookup k = some e := hk
  by_cases hkey : k = key
  · subst hkey
    simp at hk
  · rw [AList.lookup_erase_ne hkey] at hk
    exact ⟨e, hk, rfl, rfl⟩

theorem keeps_reclaim (env : Env) (st : State) (now : Nat) : Keeps st (st.reclaim env now) := by
  unfold State.reclaim
  generalize ((env.iterate st.entries.entries).filter fun e => e.2.expired now).map (·.1) = keys
  induction keys generalizing st with
  | nil => exact .refl st
  | cons key keys ih => exact (keeps_remove st key).trans (ih (st.remove key).bumpExpired)

theorem keeps_evictWhile (full : State → Bool)
    (candidates : State → List (Sigma fun _ : String => CacheEntry)) (rounds : Nat) (st : State) :
    Keeps st (State.evictWhile full candidates rounds st) := by
  induction rounds generalizing st with
  | zero => exact .refl st
  | succ rounds ih =>
    unfold State.evictWhile
    split
    · split
      · next old _ => exact (keeps_remove st old).trans (ih (st.remove old).bumpEvicted)
      · exact .refl st
    · exact .refl st

theorem keeps_get (env : Env) (st : State) (key : String) (now : Nat) (current : UInt64) :
    Keeps st (st.get env key now current).2 := by
  unfold State.get
  split
  · exact .refl st
  · simp only
    generalize hst : (if ((st.entries.lookup key).any fun e => e.expired now ||
      (env.config.mode = .strong && e.generation ≠ current)) = true then
        (st.remove key).bumpExpired else st) = st'
    have hkeeps : Keeps st st' := by
      rw [← hst]
      split
      · exact keeps_remove st key
      · exact .refl st
    split
    · next entry hentry =>
      split
      · exact hkeeps
      · refine hkeeps.trans fun k e hk => ?_
        by_cases hkey : k = key
        · subst hkey
          rw [AList.lookup_insert] at hk
          obtain rfl := Option.some.inj hk
          exact ⟨entry, hentry, rfl, rfl⟩
        · rw [AList.lookup_insert_ne hkey] at hk
          exact ⟨e, hk, rfl, rfl⟩
    · exact hkeeps

/-- Where `set_if_generation` does not refuse the value, the key holds it afterwards and the other
entries are kept. -/
theorem lookup_fill {env : Env} {st : State} {key : String} {value : Json} {generation : UInt64}
    {now later : Nat} (hstore : State.refuses env key (State.entryBytes env key value) = false)
    {k : String} {e : CacheEntry}
    (h : (st.fill env key value generation now later).entries.lookup k = some e) :
    (k = key ∧ e.generation = generation ∧ e.data = value) ∨
      k ≠ key ∧ ∃ e₀, st.entries.lookup k = some e₀ ∧ e.generation = e₀.generation ∧
        e.data = e₀.data := by
  unfold State.fill at h
  simp only [hstore, Bool.false_eq_true, if_false] at h
  generalize hroom : State.makeModelRoom env (State.makeRoom env
    ((st.reclaim env now).remove key) (State.entryBytes env key value)) key
    (State.entryBytes env key value) = st' at h
  have hkeeps : Keeps st st' := by
    rw [← hroom]
    refine Keeps.trans ?_ (keeps_evictWhile _ _ _ _)
    refine Keeps.trans ?_ (keeps_evictWhile _ _ _ _)
    exact (keeps_reclaim env st now).trans (keeps_remove _ key)
  by_cases hkey : k = key
  · subst hkey
    simp only [State.insertEntry] at h
    rw [AList.lookup_insert] at h
    obtain rfl := Option.some.inj h
    exact .inl ⟨rfl, rfl, rfl⟩
  · simp only [State.insertEntry] at h
    rw [AList.lookup_insert_ne hkey] at h
    exact .inr ⟨hkey, hkeeps k e h⟩

/-- A refused value leaves the entries as they are. -/
theorem fill_entries_of_refuses {env : Env} {st : State} {key : String} {value : Json}
    {generation : UInt64} {now later : Nat}
    (hrefuse : State.refuses env key (State.entryBytes env key value) = true) :
    (st.fill env key value generation now later).entries = st.entries := by
  unfold State.fill
  simp only [hrefuse, if_true]

theorem keeps_invalidateModel (env : Env) (st : State) : Keeps st (st.invalidateModel env) := by
  intro k e hk
  unfold State.invalidateModel at hk
  simp only at hk
  split at hk
  · simp at hk
  · exact ⟨e, hk, rfl, rfl⟩

/-- In strong mode `get` yields the data of an entry whose generation is the one it loaded. -/
theorem get_yields {env : Env} (hmode : env.config.mode = .strong) {st : State} {key : String}
    {now : Nat} {current : UInt64} {v : Json} (h : (st.get env key now current).1 = some v) :
    ∃ e, st.entries.lookup key = some e ∧ e.generation = current ∧ e.data = v := by
  unfold State.get at h
  split at h
  · cases h
  · simp only at h
    split at h
    · next entry hentry =>
      split at h
      · cases h
      · obtain rfl := Option.some.inj h
        split at hentry
        · simp [State.remove, State.bumpExpired] at hentry
        · next hfresh =>
          refine ⟨entry, hentry, ?_, rfl⟩
          rw [hentry] at hfresh
          by_contra hne
          exact hfresh (by simp [hmode, hne])
    · cases h

/-- In either mode `get` yields the data of an entry. -/
theorem get_data {env : Env} {st : State} {key : String} {now : Nat} {current : UInt64} {v : Json}
    (h : (st.get env key now current).1 = some v) : ∃ e, st.entries.lookup key = some e ∧ e.data = v := by
  unfold State.get at h
  split at h
  · cases h
  · simp only at h
    split at h
    · next entry hentry =>
      split at h
      · cases h
      · obtain rfl := Option.some.inj h
        split at hentry
        · simp [State.remove, State.bumpExpired] at hentry
        · exact ⟨entry, hentry, rfl⟩
    · cases h

/-! ## Readers and writers -/

/-- A read in progress: its cache key and the generation it loaded. `loadedAt` counts the increments
made before the load, which the code does not see. -/
structure Fetch where
  key : String
  generation : UInt64
  loadedAt : Nat

/-- Where a reader stands in `find_many`; `readAt` counts the commits its database read saw. -/
inductive Reader where
  | idle
  | loaded (f : Fetch)
  | getting (f : Fetch)
  | missed (f : Fetch)
  | read (f : Fetch) (value : Json) (readAt : Nat)
  | filling (f : Fetch) (value : Json) (readAt : Nat)

/-- Where a writer stands: its commit was the `version`-th, its `fetch_add` the `bumpedAt`-th. -/
inductive Writer where
  | idle
  | committed (version : Nat)
  | bumped (version bumpedAt : Nat)
  | cleared (version bumpedAt : Nat)

/-- The commit and the increment of a writer that is past its `fetch_add`. -/
def Writer.bump? : Writer → Option (Nat × Nat)
  | .bumped version bumpedAt | .cleared version bumpedAt => some (version, bumpedAt)
  | _ => none

/-- The commit of a writer that is past it. -/
def Writer.version? : Writer → Option Nat
  | .idle => none
  | .committed version | .bumped version _ | .cleared version _ => some version

/-- The read that filled an entry: the increments and the commits before its two loads. -/
structure Fill where
  loadedAt : Nat
  readAt : Nat

/-- The shared cache and database and every reader and writer. `versions n` is the database after
`n` commits, `fills` the read that last filled each key. -/
structure World (D : Type) where
  count : Nat
  cache : State
  lock : Option Nat
  commits : Nat
  versions : Nat → D
  readers : Nat → Reader
  writers : Nat → Writer
  fills : String → Fill

/-- The value of the `AtomicU64` after `count` increments. -/
def World.generation {D : Type} (s : World D) : UInt64 :=
  UInt64.ofNat s.count

def World.setReader {D : Type} (s : World D) (r : Nat) (reader : Reader) : World D :=
  { s with readers := Function.update s.readers r reader }

inductive Event (D : Type) where
  | load (r : Nat) (key : String)
  | getStart (r : Nat)
  | getFinish (r : Nat) (key : String) (yields : Option Json)
  | dbRead (r : Nat)
  | reject (r : Nat)
  | check (r : Nat)
  | fill (r : Nat)
  | commit (w : Nat) (d : D)
  | fetchAdd (w : Nat)
  | clear (w : Nat)
  | maintain

/-- One step of one reader, one writer or the maintenance task. A step under the mutex needs it
free; `set_if_generation` holds it from its check to its insertion. -/
inductive Step {D : Type} (env : Env) (query : String → D → Json) :
    World D → Event D → World D → Prop where
  | load {s} (r : Nat) (key : String) (at_idle : s.readers r = .idle) :
      Step env query s (.load r key) (s.setReader r (.loaded ⟨key, s.generation, s.count⟩))
  | getStart {s} (r : Nat) (f : Fetch) (at_loaded : s.readers r = .loaded f) :
      Step env query s (.getStart r) (s.setReader r (.getting f))
  | hit {s} (r : Nat) (f : Fetch) (now : Nat) (v : Json) (at_getting : s.readers r = .getting f)
      (free : s.lock = none) (found : (s.cache.get env f.key now s.generation).1 = some v) :
      Step env query s (.getFinish r f.key (some v))
        { s.setReader r .idle with cache := (s.cache.get env f.key now s.generation).2 }
  | miss {s} (r : Nat) (f : Fetch) (now : Nat) (at_getting : s.readers r = .getting f)
      (free : s.lock = none) (nothing : (s.cache.get env f.key now s.generation).1 = none) :
      Step env query s (.getFinish r f.key none)
        { s.setReader r (.missed f) with cache := (s.cache.get env f.key now s.generation).2 }
  | dbRead {s} (r : Nat) (f : Fetch) (at_missed : s.readers r = .missed f) :
      Step env query s (.dbRead r)
        (s.setReader r (.read f (query f.key (s.versions s.commits)) s.commits))
  | reject {s} (r : Nat) (f : Fetch) (value : Json) (readAt : Nat)
      (at_read : s.readers r = .read f value readAt) (free : s.lock = none)
      (changed : f.generation ≠ s.generation) :
      Step env query s (.reject r) { s.setReader r .idle with cache := s.cache.rejectFill }
  | check {s} (r : Nat) (f : Fetch) (value : Json) (readAt : Nat)
      (at_read : s.readers r = .read f value readAt) (free : s.lock = none)
      (unchanged : f.generation = s.generation) :
      Step env query s (.check r)
        { s.setReader r (.filling f value readAt) with lock := some r }
  | fill {s} (r : Nat) (f : Fetch) (value : Json) (readAt now later : Nat)
      (at_filling : s.readers r = .filling f value readAt) :
      Step env query s (.fill r)
        { s.setReader r .idle with
          lock := none
          cache := s.cache.fill env f.key value f.generation now later
          fills :=
            if State.refuses env f.key (State.entryBytes env f.key value) then s.fills
            else Function.update s.fills f.key ⟨f.loadedAt, readAt⟩ }
  | commit {s} (w : Nat) (d : D) (at_idle : s.writers w = .idle) :
      Step env query s (.commit w d)
        { s with
          commits := s.commits + 1
          versions := Function.update s.versions (s.commits + 1) d
          writers := Function.update s.writers w (.committed (s.commits + 1)) }
  | fetchAdd {s} (w version : Nat) (at_committed : s.writers w = .committed version) :
      Step env query s (.fetchAdd w)
        { s with
          count := s.count + 1
          writers := Function.update s.writers w (.bumped version (s.count + 1)) }
  | clear {s} (w version bumpedAt : Nat) (at_bumped : s.writers w = .bumped version bumpedAt)
      (free : s.lock = none) :
      Step env query s (.clear w)
        { s with
          cache := s.cache.invalidateModel env
          writers := Function.update s.writers w (.cleared version bumpedAt) }
  | maintain {s} (now : Nat) (free : s.lock = none) :
      Step env query s .maintain { s with cache := s.cache.reclaim env now }

/-- The readers and writers of one process: it starts with an empty cache and no call in progress. -/
def system {D : Type} (env : Env) (query : String → D → Json) :
    LabelledSystem (World D) (Event D) where
  init s := s.count = 0 ∧ s.commits = 0 ∧ s.cache.entries = ∅ ∧ s.lock = none ∧
    (∀ r, s.readers r = .idle) ∧ ∀ w, s.writers w = .idle
  step := Step env query

/-! ## What a step leaves alone -/

section Freshness

variable {D : Type} {env : Env} {query : String → D → Json} {s t : World D}

/-- Counters only grow, old versions stay, and a write that passes its `fetch_add` in between gets
a later number. -/
structure Extends (s t : World D) : Prop where
  count : s.count ≤ t.count
  commits : s.commits ≤ t.commits
  versions : ∀ n ≤ s.commits, t.versions n = s.versions n
  bumped : ∀ w p, (s.writers w).bump? = some p → (t.writers w).bump? = some p
  of_bumped : ∀ w v b, (t.writers w).bump? = some (v, b) →
    (s.writers w).bump? = some (v, b) ∨ s.count < b ∧ b ≤ t.count

theorem Extends.of_eq (hcount : t.count = s.count) (hcommits : t.commits = s.commits)
    (hversions : t.versions = s.versions) (hwriters : t.writers = s.writers) : Extends s t where
  count := hcount.ge
  commits := hcommits.ge
  versions n _ := by rw [hversions]
  bumped w p h := by rwa [hwriters]
  of_bumped w v b h := by
    rw [hwriters] at h
    exact .inl h

theorem Extends.trans {a b c : World D} (hab : Extends a b) (hbc : Extends b c) : Extends a c where
  count := hab.count.trans hbc.count
  commits := hab.commits.trans hbc.commits
  versions n hn := (hbc.versions n (hn.trans hab.commits)).trans (hab.versions n hn)
  bumped w p h := hbc.bumped w p (hab.bumped w p h)
  of_bumped w v b h := by
    rcases hbc.of_bumped w v b h with h | ⟨hlt, hle⟩
    · rcases hab.of_bumped w v b h with h | ⟨hlt, hle⟩
      · exact .inl h
      · exact .inr ⟨hlt, hle.trans hbc.count⟩
    · exact .inr ⟨hab.count.trans_lt hlt, hle⟩

/-- A step of one writer, which keeps its bump or gets one past the counter. -/
theorem Extends.of_writer {w : Nat} {x : Writer} (hcount : s.count ≤ t.count)
    (hcommits : s.commits ≤ t.commits) (hversions : ∀ n ≤ s.commits, t.versions n = s.versions n)
    (hwriters : t.writers = Function.update s.writers w x)
    (hkeep : ∀ p, (s.writers w).bump? = some p → x.bump? = some p)
    (hnew : ∀ v b, x.bump? = some (v, b) →
      (s.writers w).bump? = some (v, b) ∨ s.count < b ∧ b ≤ t.count) : Extends s t where
  count := hcount
  commits := hcommits
  versions := hversions
  bumped w' p h := by
    rw [hwriters]
    by_cases hw : w' = w
    · subst hw
      rw [Function.update_self]
      exact hkeep p h
    · rwa [Function.update_of_ne hw]
  of_bumped w' v b h := by
    rw [hwriters] at h
    by_cases hw : w' = w
    · subst hw
      rw [Function.update_self] at h
      exact hnew v b h
    · rw [Function.update_of_ne hw] at h
      exact .inl h

theorem Step.extends {a : Event D} (h : Step env query s a t) : Extends s t := by
  cases h with
  | commit w d at_idle =>
    refine .of_writer le_rfl (Nat.le_succ _) (fun n hn => ?_) rfl ?_ ?_
    · exact Function.update_of_ne (by omega) _ _
    · simp [at_idle, Writer.bump?]
    · simp [Writer.bump?]
  | fetchAdd w version at_committed =>
    refine .of_writer (Nat.le_succ _) le_rfl (fun n _ => rfl) rfl ?_ ?_
    · simp [at_committed, Writer.bump?]
    · intro v b hb
      obtain ⟨-, rfl⟩ : version = v ∧ s.count + 1 = b := by simpa [Writer.bump?] using hb
      exact .inr ⟨Nat.lt_succ_self _, le_rfl⟩
  | clear w version bumpedAt at_bumped =>
    refine .of_writer le_rfl le_rfl (fun n _ => rfl) rfl ?_ ?_
    · simp [at_bumped, Writer.bump?]
    · intro v b hb
      rw [at_bumped]
      exact .inl hb
  | _ => exact .of_eq rfl rfl rfl rfl

/-- No write carries a number past the counter. -/
theorem bump_le_count {as : List (Event D)} (hs : (system env query).init s)
    (r : (system env query).Run s as t) :
    ∀ w v b, (t.writers w).bump? = some (v, b) → b ≤ t.count := by
  refine r.preserves (P := fun t => ∀ w v b, (t.writers w).bump? = some (v, b) → b ≤ t.count)
    (fun u a t h hstep w v b hb => ?_) (fun w v b hb => ?_)
  · have hext := Step.extends hstep
    rcases hext.of_bumped w v b hb with hb | ⟨-, hle⟩
    · exact (h w v b hb).trans hext.count
    · exact hle
  · rw [hs.2.2.2.2.2 w] at hb
    cases hb

theorem run_extends {as : List (Event D)} (r : (system env query).Run s as t) : Extends s t :=
  r.preserves (P := Extends s) (fun _ _ _ h hstep => h.trans (Step.extends hstep))
    (.of_eq rfl rfl rfl rfl)

/-! ## The invariant -/

/-- A database read is at least as recent as every write that had passed its `fetch_add` when the
reader loaded the counter. -/
structure FreshRead (query : String → D → Json) (s : World D) (key : String) (fill : Fill)
    (value : Json) : Prop where
  loaded_le : fill.loadedAt ≤ s.count
  read_le : fill.readAt ≤ s.commits
  value_eq : value = query key (s.versions fill.readAt)
  recent : ∀ w v b, (s.writers w).bump? = some (v, b) → b ≤ fill.loadedAt → v ≤ fill.readAt

theorem FreshRead.extend {key : String} {fill : Fill} {value : Json}
    (h : FreshRead query s key fill value) (hext : Extends s t) :
    FreshRead query t key fill value where
  loaded_le := h.loaded_le.trans hext.count
  read_le := h.read_le.trans hext.commits
  value_eq := by rw [hext.versions _ h.read_le, ← h.value_eq]
  recent w v b hb hle := by
    rcases hext.of_bumped w v b hb with hb | hb
    · exact h.recent w v b hb hle
    · have := h.loaded_le
      omega

/-- The generation a reader holds is the counter after `loadedAt` increments. -/
structure Fetch.Sound (s : World D) (f : Fetch) : Prop where
  generation_eq : f.generation = UInt64.ofNat f.loadedAt
  loaded_le : f.loadedAt ≤ s.count

/-- What a reader holds at each point of its sequence. -/
def Reader.Sound (query : String → D → Json) (s : World D) : Reader → Prop
  | .idle => True
  | .loaded f | .getting f | .missed f => f.Sound s
  | .read f value readAt | .filling f value readAt =>
    f.Sound s ∧ FreshRead query s f.key ⟨f.loadedAt, readAt⟩ value

theorem Fetch.Sound.extend {f : Fetch} (h : f.Sound s) (hext : Extends s t) : f.Sound t :=
  ⟨h.generation_eq, h.loaded_le.trans hext.count⟩

theorem Reader.Sound.extend {reader : Reader} (h : reader.Sound query s) (hext : Extends s t) :
    reader.Sound query t := by
  cases reader with
  | idle => trivial
  | loaded f => exact Fetch.Sound.extend h hext
  | getting f => exact Fetch.Sound.extend h hext
  | missed f => exact Fetch.Sound.extend h hext
  | read f value readAt => exact ⟨h.1.extend hext, h.2.extend hext⟩
  | filling f value readAt => exact ⟨h.1.extend hext, h.2.extend hext⟩

/-- Every reader and every entry holds a fresh read under the generation its reader loaded. -/
structure Coherent (query : String → D → Json) (s : World D) : Prop where
  readers : ∀ r, (s.readers r).Sound query s
  entries : ∀ k e, s.cache.entries.lookup k = some e →
    e.generation = UInt64.ofNat (s.fills k).loadedAt ∧ FreshRead query s k (s.fills k) e.data
  versions : ∀ w v, (s.writers w).version? = some v → v ≤ s.commits

theorem Coherent.reader {r : Nat} {reader : Reader} (h : Coherent query s)
    (hr : s.readers r = reader) : reader.Sound query s :=
  hr ▸ h.readers r

theorem version_of_bump {writer : Writer} {v b : Nat} (h : writer.bump? = some (v, b)) :
    writer.version? = some v := by
  cases writer with
  | bumped => exact congrArg (Option.map Prod.fst) h
  | cleared => exact congrArg (Option.map Prod.fst) h
  | _ => cases h

/-- A step that moves one writer keeps the versions of the writers bounded. -/
theorem versions_update {w : Nat} {x : Writer} (h : Coherent query s)
    (hcommits : s.commits ≤ t.commits) (hx : ∀ v, x.version? = some v → v ≤ t.commits)
    (w' v : Nat) (hv : (Function.update s.writers w x w').version? = some v) : v ≤ t.commits := by
  by_cases hw : w' = w
  · subst hw
    rw [Function.update_self] at hv
    exact hx v hv
  · rw [Function.update_of_ne hw] at hv
    exact (h.versions w' v hv).trans hcommits

/-- A step that moves one reader keeps every other reader sound. -/
theorem sound_update {r : Nat} {reader : Reader} (h : ∀ r, (s.readers r).Sound query s)
    (hext : Extends s t) (hreader : reader.Sound query t) (r' : Nat) :
    (Function.update s.readers r reader r').Sound query t := by
  by_cases hr : r' = r
  · subst hr
    rwa [Function.update_self]
  · rw [Function.update_of_ne hr]
    exact (h r').extend hext

/-- A step that only forgets entries keeps the others coherent. -/
theorem entries_of_keeps (h : Coherent query s) (hext : Extends s t)
    (hkeeps : Keeps s.cache t.cache) (hfills : t.fills = s.fills) (k : String) (e : CacheEntry)
    (hk : t.cache.entries.lookup k = some e) :
    e.generation = UInt64.ofNat (t.fills k).loadedAt ∧ FreshRead query t k (t.fills k) e.data := by
  obtain ⟨e₀, hk₀, hgen, hdata⟩ := hkeeps k e hk
  obtain ⟨hgen₀, hfresh⟩ := h.entries k e₀ hk₀
  rw [hfills, hgen, hdata]
  exact ⟨hgen₀, hfresh.extend hext⟩

theorem coherent_inductive (env : Env) (query : String → D → Json) :
    (system env query).Inductive (Coherent query) where
  init s hs := by
    obtain ⟨-, -, hentries, -, hreaders, hwriters⟩ := hs
    refine ⟨fun r => ?_, fun k e hk => ?_, fun w v hw => ?_⟩
    · rw [hreaders r]
      trivial
    · rw [hentries, AList.lookup_empty] at hk
      cases hk
    · rw [hwriters w] at hw
      cases hw
  step s a t h hstep := by
    have hext := Step.extends hstep
    cases hstep with
    | load r key at_idle =>
      exact ⟨sound_update h.readers hext ⟨rfl, le_rfl⟩,
        entries_of_keeps h hext (.refl _) rfl, h.versions⟩
    | getStart r f at_loaded =>
      have hr : f.Sound s := h.reader at_loaded
      exact ⟨sound_update h.readers hext (hr.extend hext),
        entries_of_keeps h hext (.refl _) rfl, h.versions⟩
    | hit r f now v at_getting free found =>
      exact ⟨sound_update h.readers hext trivial,
        entries_of_keeps h hext (keeps_get _ _ _ _ _) rfl, h.versions⟩
    | miss r f now at_getting free nothing =>
      have hr : f.Sound s := h.reader at_getting
      exact ⟨sound_update h.readers hext (hr.extend hext),
        entries_of_keeps h hext (keeps_get _ _ _ _ _) rfl, h.versions⟩
    | dbRead r f at_missed =>
      have hr : f.Sound s := h.reader at_missed
      refine ⟨sound_update h.readers hext ⟨hr.extend hext, ?_⟩,
        entries_of_keeps h hext (.refl _) rfl, h.versions⟩
      -- every write that has passed its `fetch_add` has committed before this read
      exact ⟨hr.loaded_le, le_rfl, rfl, fun w v b hb _ => h.versions w v (version_of_bump hb)⟩
    | reject r f value readAt at_read free changed =>
      exact ⟨sound_update h.readers hext trivial,
        entries_of_keeps h hext (.refl _) rfl, h.versions⟩
    | check r f value readAt at_read free unchanged =>
      obtain ⟨hf, hread⟩ : f.Sound s ∧ FreshRead query s f.key ⟨f.loadedAt, readAt⟩ value :=
        h.reader at_read
      exact ⟨sound_update h.readers hext ⟨hf.extend hext, hread.extend hext⟩,
        entries_of_keeps h hext (.refl _) rfl, h.versions⟩
    | fill r f value readAt now later at_filling =>
      obtain ⟨hf, hread⟩ : f.Sound s ∧ FreshRead query s f.key ⟨f.loadedAt, readAt⟩ value :=
        h.reader at_filling
      refine ⟨sound_update h.readers hext trivial, fun k e hk => ?_, h.versions⟩
      cases hrefuse : State.refuses env f.key (State.entryBytes env f.key value) with
      | true =>
        have hk : s.cache.entries.lookup k = some e := by
          rw [← fill_entries_of_refuses hrefuse]
          exact hk
        obtain ⟨hgen, hfresh⟩ := h.entries k e hk
        simp only [if_true]
        exact ⟨hgen, hfresh.extend (.of_eq rfl rfl rfl rfl)⟩
      | false =>
        simp only [Bool.false_eq_true, if_false]
        rcases lookup_fill hrefuse hk with ⟨rfl, hgen, hdata⟩ | ⟨hne, e₀, hk₀, hgen, hdata⟩
        · rw [Function.update_self, hgen, hdata]
          exact ⟨hf.generation_eq, hread.extend (.of_eq rfl rfl rfl rfl)⟩
        · rw [Function.update_of_ne hne, hgen, hdata]
          obtain ⟨hgen₀, hfresh⟩ := h.entries k e₀ hk₀
          exact ⟨hgen₀, hfresh.extend (.of_eq rfl rfl rfl rfl)⟩
    | commit w d at_idle =>
      refine ⟨fun r => (h.readers r).extend hext, entries_of_keeps h hext (.refl _) rfl,
        versions_update h hext.commits fun v hv => ?_⟩
      exact (Option.some.inj hv).ge
    | fetchAdd w version at_committed =>
      refine ⟨fun r => (h.readers r).extend hext, entries_of_keeps h hext (.refl _) rfl,
        versions_update h hext.commits fun v hv => ?_⟩
      exact h.versions w v (at_committed ▸ hv)
    | clear w version bumpedAt at_bumped =>
      refine ⟨fun r => (h.readers r).extend hext,
        entries_of_keeps h hext (keeps_invalidateModel _ _) rfl,
        versions_update h hext.commits fun v hv => ?_⟩
      exact h.versions w v (at_bumped ▸ hv)
    | maintain now free =>
      exact ⟨fun r => (h.readers r).extend hext,
        entries_of_keeps h hext (keeps_reclaim _ _ _) rfl, h.versions⟩

/-! ## The guarantee -/

/-- Two counts less than `2^64` apart with the same counter value are equal. -/
theorem eq_of_ofNat_eq {m n : Nat} (h : UInt64.ofNat m = UInt64.ofNat n) (hle : m ≤ n)
    (hfew : n < m + 2 ^ 64) : m = n := by
  have hmod : m % 2 ^ 64 = n % 2 ^ 64 := by
    have := congrArg UInt64.toNat h
    simpa using this
  omega

/-- What `get` yields was read under the current counter value, so after every write that has passed
its `fetch_add`. -/
theorem getFinish_fresh (hmode : env.config.mode = .strong) (h : Coherent query s) {r : Nat}
    {key : String} {v : Json} (hstep : (system env query).step s (.getFinish r key (some v)) t)
    (hfew : s.count < (s.fills key).loadedAt + 2 ^ 64) :
    FreshRead query s key (s.fills key) v ∧ (s.fills key).loadedAt = s.count := by
  cases hstep with
  | hit _ f now _ at_getting free found =>
    obtain ⟨e, hk, hgen, rfl⟩ := get_yields hmode found
    obtain ⟨hgen', hfresh⟩ := h.entries f.key e hk
    exact ⟨hfresh, eq_of_ofNat_eq (hgen'.symm.trans hgen) hfresh.loaded_le hfew⟩

/-- **Freshness of strong mode.** A `get` that starts after a writer's `fetch_add` yields data read
from the database at or after that writer's commit, as long as fewer than `2^64` increments separate
it from the generation load of the read that filled the entry. -/
theorem cache_get_fresh {s₁ s₂ s₃ s₄ : World D} (hmode : env.config.mode = .strong)
    (h : (system env query).Reachable s₁) {w version bumpedAt : Nat}
    (hw : (s₁.writers w).bump? = some (version, bumpedAt)) {r : Nat}
    (start : (system env query).step s₁ (.getStart r) s₂) {as : List (Event D)}
    (mid : (system env query).Run s₂ as s₃) {key : String} {v : Json}
    (finish : (system env query).step s₃ (.getFinish r key (some v)) s₄)
    (hfew : s₃.count < (s₃.fills key).loadedAt + 2 ^ 64) :
    version ≤ (s₃.fills key).readAt ∧ (s₃.fills key).readAt ≤ s₃.commits ∧
      v = query key (s₃.versions (s₃.fills key).readAt) := by
  have hreach : (system env query).Reachable s₃ := (h.step start).run mid
  have hcoherent := (coherent_inductive env query).reachable hreach
  obtain ⟨hfresh, hcount⟩ := getFinish_fresh hmode hcoherent finish hfew
  have hw₃ : (s₃.writers w).bump? = some (version, bumpedAt) :=
    (run_extends (.cons start mid)).bumped w _ hw
  refine ⟨hfresh.recent w version bumpedAt hw₃ ?_, hfresh.read_le, hfresh.value_eq⟩
  rw [hcount]
  obtain ⟨s₀, bs, hinit, r₀⟩ := hreach
  exact bump_le_count hinit r₀ w version bumpedAt hw₃

end Freshness

/-! ## A counter that comes round -/

/-- The default configuration, with values of one byte. -/
def defaultEnv : Env where
  config := {}
  jsonBytes _ := some 1
  iterate l := l
  iterate_perm _ := .refl _

/-- A database that is one boolean, read under every key. -/
def readBool (_ : String) (b : Bool) : Json :=
  .bool b

/-- A live entry of the current generation is yielded. -/
theorem get_of_lookup {env : Env} {st : State} {key : String} {now : Nat} {current : UInt64}
    {e : CacheEntry} (henabled : enabled env key = true) (hk : st.entries.lookup key = some e)
    (hlive : e.expired now = false) (hgen : e.generation = current) (hrefresh : e.refresh = none) :
    (st.get env key now current).1 = some e.data := by
  simp [State.get, henabled, hk, hlive, hgen, hrefresh]

/-- A value filled into the empty cache is found under its generation. -/
theorem get_fill {st : State} (hentries : st.entries = ∅) (v : Json) (g : UInt64) :
    ((st.fill defaultEnv "k" v g 0 0).get defaultEnv "k" 0 g).1 = some v := by
  obtain ⟨entries, metrics⟩ := st
  subst hentries
  have hbytes : State.entryBytes defaultEnv "k" v = 130 := rfl
  have hstore : State.refuses defaultEnv "k" 130 = false := by decide
  have hpolicy : policy defaultEnv "k" = {} := rfl
  -- with no entry there is nothing to reclaim, remove or evict
  have hroom : ∀ m, State.makeModelRoom defaultEnv (State.makeRoom defaultEnv
      ((State.reclaim defaultEnv ⟨∅, m⟩ 0).remove "k") 130) "k" 130 =
        ⟨∅, { m with entries := 0 }⟩ := fun m => rfl
  simp only [State.fill, hbytes, hstore, hroom, State.insertEntry, hpolicy]
  generalize he : CacheEntry.mk g v 0 0 130 _ _ _ = e
  have hlive : e.expired 0 = false := by
    rw [← he]
    simp [CacheEntry.expired, seconds, defaultEnv]
  have hdata : e.data = v := by rw [← he]
  rw [← hdata]
  exact get_of_lookup (by decide) (AList.lookup_insert _) hlive (by rw [← he]) (by rw [← he]; rfl)

/-- `n` writers can run to completion one after the other, whatever the readers hold. -/
theorem exists_writes {s : World Bool} (hlock : s.lock = none) (hidle : ∀ w, s.writers w = .idle)
    (hempty : s.cache.entries = ∅) (n : Nat) :
    ∃ as t, (system defaultEnv readBool).Run s as t ∧ t.count = s.count + n ∧
      t.commits = s.commits + n ∧ t.lock = none ∧ t.readers = s.readers ∧
      t.cache.entries = ∅ ∧ (∀ w, n ≤ w → t.writers w = .idle) ∧
      (0 < n → (t.writers 0).bump? = some (s.commits + 1, s.count + 1)) := by
  induction n with
  | zero => exact ⟨[], s, .nil s, rfl, rfl, hlock, rfl, hempty, fun w _ => hidle w, by simp⟩
  | succ n ih =>
    obtain ⟨as, t, r, hcount, hcommits, hlock, hreaders, hempty, hwriters, hfirst⟩ := ih
    let t₁ : World Bool :=
      { t with
        commits := t.commits + 1
        versions := Function.update t.versions (t.commits + 1) true
        writers := Function.update t.writers n (.committed (t.commits + 1)) }
    let t₂ : World Bool :=
      { t₁ with
        count := t₁.count + 1
        writers := Function.update t₁.writers n (.bumped (t.commits + 1) (t₁.count + 1)) }
    let t₃ : World Bool :=
      { t₂ with
        cache := t₂.cache.invalidateModel defaultEnv
        writers := Function.update t₂.writers n (.cleared (t.commits + 1) (t₁.count + 1)) }
    have h₁ : (system defaultEnv readBool).step t (.commit n true) t₁ :=
      .commit n true (hwriters n le_rfl)
    have h₂ : (system defaultEnv readBool).step t₁ (.fetchAdd n) t₂ :=
      .fetchAdd n _ (Function.update_self n _ t.writers)
    have h₃ : (system defaultEnv readBool).step t₂ (.clear n) t₃ :=
      .clear n _ _ (Function.update_self n _ t₁.writers) hlock
    have hother : ∀ w, w ≠ n → t₃.writers w = t.writers w := by
      intro w hw
      simp only [t₃, t₂, t₁, Function.update_of_ne hw]
    refine ⟨_, t₃, ((r.snoc h₁).snoc h₂).snoc h₃, ?_, ?_, hlock, hreaders, rfl, fun w hw => ?_, ?_⟩
    · simp only [t₃, t₂, t₁, hcount]
      omega
    · simp only [t₃, t₂, t₁, hcommits]
      omega
    · rw [hother w (by omega)]
      exact hwriters w (by omega)
    · intro _
      by_cases hn : n = 0
      · subst hn
        simp only [t₃, t₂, t₁, Function.update_self, Writer.bump?, hcount, hcommits, Nat.add_zero]
      · rw [hother 0 (by omega)]
        exact hfirst (by omega)

/-- A reader whose generation is current stores what it read, and a second reader gets it. -/
theorem exists_hit {s : World Bool} (hlock : s.lock = none) (hempty : s.cache.entries = ∅)
    {loadedAt readAt : Nat} {v : Json}
    (hread : s.readers 0 = .read ⟨"k", s.generation, loadedAt⟩ v readAt)
    (hidle : s.readers 1 = .idle) :
    ∃ as s₁ s₂ s₃, (system defaultEnv readBool).Run s as s₁ ∧
      (system defaultEnv readBool).step s₁ (.getStart 1) s₂ ∧
      (system defaultEnv readBool).step s₂ (.getFinish 1 "k" (some v)) s₃ ∧
      s₁.writers = s.writers ∧ s₂.fills "k" = ⟨loadedAt, readAt⟩ ∧ s₂.count = s.count := by
  let f : Fetch := ⟨"k", s.generation, loadedAt⟩
  let t₁ : World Bool := { s.setReader 0 (.filling f v readAt) with lock := some 0 }
  let t₂ : World Bool :=
    { t₁.setReader 0 .idle with
      lock := none
      cache := t₁.cache.fill defaultEnv "k" v s.generation 0 0
      fills :=
        if State.refuses defaultEnv f.key (State.entryBytes defaultEnv f.key v) then t₁.fills
        else Function.update t₁.fills f.key ⟨f.loadedAt, readAt⟩ }
  let s₁ : World Bool := t₂.setReader 1 (.loaded ⟨"k", t₂.generation, t₂.count⟩)
  let s₂ : World Bool := s₁.setReader 1 (.getting ⟨"k", t₂.generation, t₂.count⟩)
  have hcheck : (system defaultEnv readBool).step s (.check 0) t₁ := .check 0 f v readAt hread hlock rfl
  have hfill : (system defaultEnv readBool).step t₁ (.fill 0) t₂ :=
    .fill 0 f v readAt 0 0 (Function.update_self 0 _ s.readers)
  have hidle₂ : t₂.readers 1 = .idle := by
    simp only [t₂, t₁, World.setReader, Function.update_of_ne (show (1 : Nat) ≠ 0 by decide), hidle]
  have hload : (system defaultEnv readBool).step t₂ (.load 1 "k") s₁ := .load 1 "k" hidle₂
  have hstart : (system defaultEnv readBool).step s₁ (.getStart 1) s₂ :=
    .getStart 1 _ (Function.update_self 1 _ t₂.readers)
  have hhit : (s₂.cache.get defaultEnv "k" 0 s₂.generation).1 = some v := get_fill hempty v _
  refine ⟨_, s₁, s₂, _, ((Run.single hcheck).snoc hfill).snoc hload, hstart,
    .hit 1 ⟨"k", t₂.generation, t₂.count⟩ 0 v (Function.update_self 1 _ s₁.readers) rfl hhit, rfl,
    ?_, rfl⟩
  have hstore : State.refuses defaultEnv "k" (State.entryBytes defaultEnv "k" v) = false := by
    change State.refuses defaultEnv "k" 130 = false
    decide
  simp only [s₂, s₁, t₂, t₁, World.setReader, f, hstore, Bool.false_eq_true, if_false,
    Function.update_self]

/-- The world at the start, its database holding `false`. -/
def startWorld : World Bool where
  count := 0
  cache := {}
  lock := none
  commits := 0
  versions _ := false
  readers _ := .idle
  writers _ := .idle
  fills _ := ⟨0, 0⟩

/-- On the empty cache a reader misses and reads the database. -/
theorem exists_read {s : World Bool} (hlock : s.lock = none) (hempty : s.cache.entries = ∅)
    (hidle : s.readers 0 = .idle) :
    ∃ as t, (system defaultEnv readBool).Run s as t ∧
      t.readers 0 = .read ⟨"k", s.generation, s.count⟩ (.bool (s.versions s.commits)) s.commits ∧
      t.readers 1 = s.readers 1 ∧ t.cache.entries = ∅ ∧ t.lock = none ∧ t.writers = s.writers ∧
      t.count = s.count ∧ t.commits = s.commits := by
  let f : Fetch := ⟨"k", s.generation, s.count⟩
  let t₁ : World Bool := s.setReader 0 (.loaded f)
  let t₂ : World Bool := t₁.setReader 0 (.getting f)
  let t₃ : World Bool :=
    { t₂.setReader 0 (.missed f) with cache := (t₂.cache.get defaultEnv "k" 0 s.generation).2 }
  let t₄ : World Bool := t₃.setReader 0 (.read f (.bool (s.versions s.commits)) s.commits)
  have henabled : enabled defaultEnv "k" = true := by decide
  have hget : (s.cache.get defaultEnv "k" 0 s.generation).1 = none ∧
      (s.cache.get defaultEnv "k" 0 s.generation).2.entries = ∅ := by
    simp [State.get, henabled, hempty]
  have h₁ : (system defaultEnv readBool).step s (.load 0 "k") t₁ := .load 0 "k" hidle
  have h₂ : (system defaultEnv readBool).step t₁ (.getStart 0) t₂ :=
    .getStart 0 f (Function.update_self 0 _ s.readers)
  have h₃ : (system defaultEnv readBool).step t₂ (.getFinish 0 "k" none) t₃ :=
    .miss 0 f 0 (Function.update_self 0 _ t₁.readers) hlock hget.1
  have h₄ : (system defaultEnv readBool).step t₃ (.dbRead 0) t₄ :=
    .dbRead 0 f (Function.update_self 0 _ t₂.readers)
  refine ⟨_, t₄, (((Run.single h₁).snoc h₂).snoc h₃).snoc h₄, Function.update_self 0 _ t₃.readers,
    ?_, hget.2, hlock, rfl, rfl, rfl⟩
  have hne : (1 : Nat) ≠ 0 := by decide
  simp only [t₄, t₃, t₂, t₁, World.setReader, Function.update_of_ne hne]

theorem startWorld_init : (system defaultEnv readBool).init startWorld :=
  ⟨rfl, rfl, rfl, rfl, fun _ => rfl, fun _ => rfl⟩

/-- After a write a reader fills the cache and a second reader gets the value just written. -/
theorem cache_get_fresh_after_write :
    ∃ s₁ s₂ s₃ : World Bool, (system defaultEnv readBool).Reachable s₁ ∧
      (s₁.writers 0).bump? = some (1, 1) ∧
      (system defaultEnv readBool).step s₁ (.getStart 1) s₂ ∧
      (∃ v, (system defaultEnv readBool).step s₂ (.getFinish 1 "k" (some v)) s₃) ∧
      1 ≤ (s₂.fills "k").readAt := by
  obtain ⟨as, t, r, hcount, hcommits, hlock, hreaders, hempty, -, hfirst⟩ :=
    exists_writes (s := startWorld) rfl (fun _ => rfl) rfl 1
  obtain ⟨bs, t', r', hread, hidle, hempty', hlock', hwriters, hcount', -⟩ :=
    exists_read (s := t) hlock hempty (by rw [hreaders]; rfl)
  have hgen : t.generation = t'.generation := by rw [World.generation, World.generation, hcount']
  rw [hgen] at hread
  obtain ⟨cs, s₁, s₂, s₃, r'', hstart, hfinish, hwriters', hfills, hcount''⟩ :=
    exists_hit hlock' hempty' hread (by rw [hidle, hreaders]; rfl)
  have hreach := (((Reachable.of_init startWorld_init).run r).run r').run r''
  have hw : (s₁.writers 0).bump? = some (1, 1) := by
    rw [hwriters', hwriters]
    exact hfirst (by decide)
  refine ⟨s₁, s₂, s₃, hreach, hw, hstart, ⟨_, hfinish⟩, ?_⟩
  refine (cache_get_fresh rfl hreach hw hstart (.nil s₂) hfinish ?_).1
  rw [hfills, hcount'', hcount']
  exact Nat.lt_add_of_pos_right (by decide)

/-- A reader that has read `false` stores it after `2^64` writes of `true`: the counter has the value
it loaded, and a `get` that starts after all these writes yields `false`. -/
theorem cache_get_stale :
    ¬ ∀ (s₁ s₂ s₃ s₄ : World Bool) (w version bumpedAt r : Nat) (as : List (Event Bool))
      (key : String) (v : Json), (system defaultEnv readBool).Reachable s₁ →
      (s₁.writers w).bump? = some (version, bumpedAt) →
      (system defaultEnv readBool).step s₁ (.getStart r) s₂ →
      (system defaultEnv readBool).Run s₂ as s₃ →
      (system defaultEnv readBool).step s₃ (.getFinish r key (some v)) s₄ →
      version ≤ (s₃.fills key).readAt := by
  intro hclaim
  obtain ⟨as, t, r, hread, hidle, hempty, hlock, hwriters, hcount, hcommits⟩ :=
    exists_read (s := startWorld) rfl rfl rfl
  obtain ⟨bs, t', r', hcount', -, hlock', hreaders, hempty', -, hfirst⟩ :=
    exists_writes hlock (fun w => by rw [hwriters]; rfl) hempty (2 ^ 64)
  have hgen : t'.generation = startWorld.generation := by
    rw [World.generation, World.generation, hcount', hcount]
    decide
  obtain ⟨cs, s₁, s₂, s₃, r'', hstart, hfinish, hwriters', hfills, -⟩ :=
    exists_hit hlock' hempty' (by rw [hreaders, hread, hgen]) (by rw [hreaders, hidle]; rfl)
  have hreach := (((Reachable.of_init startWorld_init).run r).run r').run r''
  have hw : (s₁.writers 0).bump? = some (t.commits + 1, t.count + 1) := by
    rw [hwriters']
    exact hfirst (by decide)
  have hle := hclaim _ _ _ _ _ _ _ _ _ _ _ hreach hw hstart (.nil s₂) hfinish
  rw [hfills] at hle
  have hzero : startWorld.commits = 0 := rfl
  simp only [hcommits, hzero] at hle
  exact absurd hle (by decide)

end Atomo.Cache
