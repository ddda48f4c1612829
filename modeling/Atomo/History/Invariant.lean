import Atomo.Client.Atomicity
import Atomo.History.EventStore

/-!
# The invariant of the event log

A model has a gap once its coverage is marked incomplete. Each event of a committed write is in the log, or
its model has a gap. What a transaction under way needs for that is its own part of the invariant, and
`Leaves` is what the step of one transaction does not take from the others. Here are the steps that touch
no table and the ends of the transactions.
-/

namespace Atomo.History

open Jobs (Uuids)

/-! ## What the statements of a write record -/

/-- A statement that sees to an event. -/
def Persist.Records (e : StampedEvent) : Persist → Prop
  | .mark model => model = e.modelName
  | .insert events => e ∈ events

theorem skipUnstored_records {config : HistoryConfig} {skipped : List String} {events : List StampedEvent}
    {e : StampedEvent} (he : e ∈ events) :
    e.modelName ∈ skipped ∨ (∃ p ∈ (skipUnstored config skipped events).1, p.Records e) ∨
      e ∈ (skipUnstored config skipped events).2 := by
  induction events generalizing skipped with
  | nil => cases he
  | cons event events ih =>
    rw [skipUnstored]
    by_cases hoff : (config.policy event.modelName).mode = .off
    · rw [if_pos hoff]
      by_cases hskipped : event.modelName ∈ skipped
      · rw [if_pos hskipped]
        rcases List.mem_cons.1 he with rfl | he
        · exact .inl hskipped
        · exact ih he
      · rw [if_neg hskipped]
        have hmark : Persist.mark event.modelName ∈ persistIn config event := by
          unfold persistIn
          rw [if_pos hoff]
          exact List.mem_singleton_self _
        rcases List.mem_cons.1 he with rfl | he
        · exact .inr (.inl ⟨_, List.mem_append_left _ hmark, rfl⟩)
        · rcases @ih (event.modelName :: skipped) he with hmem | ⟨p, hp, hrecords⟩ | hstored
          · rcases List.mem_cons.1 hmem with heq | hmem
            · exact .inr (.inl ⟨_, List.mem_append_left _ hmark, heq.symm⟩)
            · exact .inl hmem
          · exact .inr (.inl ⟨p, List.mem_append_right _ hp, hrecords⟩)
          · exact .inr (.inr hstored)
    · rw [if_neg hoff]
      rcases List.mem_cons.1 he with rfl | he
      · exact .inr (.inr List.mem_cons_self)
      · rcases @ih skipped he with hmem | hmarks | hstored
        · exact .inl hmem
        · exact .inr (.inl hmarks)
        · exact .inr (.inr (List.mem_cons_of_mem _ hstored))

/-- What is left to be stored is of the events. -/
theorem skipUnstored_subset {config : HistoryConfig} {skipped : List String} {events : List StampedEvent} :
    (skipUnstored config skipped events).2 ⊆ events ∧
      ∀ p ∈ (skipUnstored config skipped events).1, ∃ model, p = .mark model := by
  induction events generalizing skipped with
  | nil => exact ⟨List.Subset.refl _, fun p hp => absurd hp List.not_mem_nil⟩
  | cons event events ih =>
    rw [skipUnstored]
    by_cases hoff : (config.policy event.modelName).mode = .off
    · rw [if_pos hoff]
      by_cases hskipped : event.modelName ∈ skipped
      · rw [if_pos hskipped]
        obtain ⟨hsubset, hmarks⟩ := @ih skipped
        exact ⟨List.Subset.trans hsubset (List.subset_cons_self _ _), hmarks⟩
      · rw [if_neg hskipped]
        obtain ⟨hsubset, hmarks⟩ := @ih (event.modelName :: skipped)
        refine ⟨List.Subset.trans hsubset (List.subset_cons_self _ _), fun p hp => ?_⟩
        rcases List.mem_append.1 hp with hp | hp
        · unfold persistIn at hp
          rw [if_pos hoff] at hp
          exact ⟨_, List.mem_singleton.1 hp⟩
        · exact hmarks p hp
    · rw [if_neg hoff]
      obtain ⟨hsubset, hmarks⟩ := @ih skipped
      exact ⟨List.cons_subset_cons _ hsubset, hmarks⟩

/-- Statements that see to all events and to no others. -/
structure Sees (events : List StampedEvent) (todo : List Persist) : Prop where
  records : ∀ e ∈ events, ∃ p ∈ todo, p.Records e
  subset : ∀ stored, .insert stored ∈ todo → stored ⊆ events

theorem persistManyIn_sees (config : HistoryConfig) (events : List StampedEvent) :
    Sees events (persistManyIn config events) := by
  obtain ⟨hsubset, hmarks⟩ := @skipUnstored_subset config [] events
  have hflatten := @Client.flatten_chunks 4000 (by omega) (skipUnstored config [] events).2.length _ le_rfl
  constructor
  · intro e he
    rcases @skipUnstored_records config [] events e he with hmem | ⟨p, hp, hrecords⟩ | hstored
    · cases hmem
    · exact ⟨p, List.mem_append_left _ hp, hrecords⟩
    · rw [← hflatten, List.mem_flatten] at hstored
      obtain ⟨chunk, hchunk, hmem⟩ := hstored
      exact ⟨Persist.insert chunk, List.mem_append_right _ (List.mem_map_of_mem hchunk), hmem⟩
  · intro stored hstored
    rcases List.mem_append.1 hstored with hmark | hchunk
    · obtain ⟨model, heq⟩ := hmarks _ hmark
      cases heq
    · obtain ⟨chunk, hchunk, heq⟩ := List.mem_map.1 hchunk
      cases heq
      intro e he
      apply hsubset
      rw [← hflatten]
      exact List.mem_flatten.2 ⟨stored, hchunk, he⟩

theorem persistIn_sees (config : HistoryConfig) (events : List StampedEvent) :
    Sees events (events.flatMap (persistIn config)) := by
  have hmem : ∀ {e : StampedEvent} {p : Persist}, p ∈ persistIn config e → p = .mark e.modelName ∨ p = .insert [e] := by
    intro e p hp
    unfold persistIn at hp
    split at hp
    · exact .inl (List.mem_singleton.1 hp)
    · exact .inr (List.mem_singleton.1 hp)
  constructor
  · intro e he
    obtain ⟨p, hp⟩ : ∃ p, p ∈ persistIn config e := by
      unfold persistIn
      split <;> exact ⟨_, List.mem_singleton_self _⟩
    refine ⟨p, List.mem_flatMap.2 ⟨e, he, hp⟩, ?_⟩
    rcases hmem hp with rfl | rfl
    · rfl
    · exact List.mem_singleton_self e
  · intro stored hstored
    obtain ⟨e, he, hp⟩ := List.mem_flatMap.1 hstored
    rcases hmem hp with heq | heq
    · cases heq
    · cases heq
      exact List.cons_subset.2 ⟨he, List.nil_subset _⟩

/-! ## The invariant -/

/-- The coverage of a model is marked incomplete. -/
def Gap (s : State) (model : String) : Prop :=
  ∃ c, s.coverage model = some c ∧ c.complete = false

/-- An event is in the log, for everyone to see. -/
def Stored (s : State) (e : StampedEvent) : Prop :=
  ∃ now, ⟨e.entry now, none⟩ ∈ s.log

/-- The unique ids of the log. -/
structure LogSound (u : Uuids) (drawn : Nat) (log : List Tuple) : Prop where
  ids : (log.map (·.entry.eventId)).Nodup
  drawn : ∀ t ∈ log, ∃ k < drawn, t.entry.eventId = u.draw k

structure WriteSound (u : Uuids) (s : State) (i : Nat) (w : Write) : Prop where
  drawn : ∀ e ∈ w.events, ∃ k < s.drawn, e.eventId = u.draw k
  ids : (w.events.map (·.eventId)).Nodup
  own : ∀ t ∈ s.log, ∀ e ∈ w.events, t.entry.eventId = e.eventId → t = ⟨e.entry w.startedAt, some i⟩
  subset : ∀ stored, .insert stored ∈ w.todo → stored ⊆ w.events
  recorded : ∀ e ∈ w.events, ⟨e.entry w.startedAt, some i⟩ ∈ s.log ∨ (∃ c, s.drafts e.modelName = some (i, c)) ∨
    Gap s e.modelName ∨ ∃ p ∈ w.todo, p.Records e

/-- The rows that a batch deletes are rows of its model. -/
def BatchSound (s : State) (b : Batch) : Prop :=
  ∀ row ∈ b.deleted, row.modelName = b.model ∧ ⟨row, none⟩ ∈ s.log

/-- A whole history has the events of the committed writes. -/
def Answer.Honest (a : Answer) : Prop :=
  a.request.whole = true → ∀ e ∈ a.committed, e.modelName = a.request.model → ∃ now, e.entry now ∈ a.rows

def Tx.Sound (u : Uuids) (s : State) (i : Nat) : Tx → Prop
  | .begun _ _ _ | .passing _ | .asking _ => True
  | .entered _ _ _ => i ∈ s.sharers
  | .writing w => i ∈ s.sharers ∧ WriteSound u s i w
  | .visiting b => s.holder = some i ∧ b.deleted = []
  | .deleting b => s.holder = some i ∧ BatchSound s b
  | .marked b => s.holder = some i ∧ BatchSound s b ∧ ∃ c, s.drafts b.model = some (i, c)
  | .granted _ => s.holder = some i
  | .checked r => s.holder = some i ∧ ¬Gap s r.model
  | .fetched r rows => s.holder = some i ∧ Answer.Honest ⟨r, rows, s.committed⟩

/-- What the tables and the answers keep, whatever is under way. -/
structure Shared (u : Uuids) (s : State) : Prop where
  log : LogSound u s.drawn s.log
  drafts : ∀ model i c, s.drafts model = some (i, c) → c.complete = false ∧ s.created = true
  coverage : ∀ model c, s.coverage model = some c → s.created = true
  committed : ∀ e ∈ s.committed, Stored s e ∨ Gap s e.modelName
  locks : s.holder = none ∨ s.sharers = []
  answers : ∀ a ∈ s.answers, a.Honest

structure State.Sound (u : Uuids) (s : State) : Prop extends Shared u s where
  txs : ∀ i tx, s.txs i = some tx → tx.Sound u s i
  disjoint : ∀ i j w w', s.txs i = some (.writing w) → s.txs j = some (.writing w') → i ≠ j →
    ∀ e ∈ w.events, ∀ e' ∈ w'.events, e.eventId ≠ e'.eventId

/-- What a step of the transaction `i`, or of none, leaves to the others. -/
structure Leaves (i : Option Nat) (s s' : State) : Prop where
  sharers : ∀ j, i ≠ some j → j ∈ s.sharers → j ∈ s'.sharers
  holder : ∀ j, i ≠ some j → s.holder = some j → s'.holder = some j
  drawn : s.drawn ≤ s'.drawn
  drafts : ∀ j, i ≠ some j → ∀ model c, s.drafts model = some (j, c) → s'.drafts model = some (j, c)
  gap : ∀ model, Gap s model → Gap s' model
  uncommitted : ∀ j, i ≠ some j → ∀ entry, ⟨entry, some j⟩ ∈ s.log → ⟨entry, some j⟩ ∈ s'.log
  log : ∀ t ∈ s'.log, (∃ owner, ⟨t.entry, owner⟩ ∈ s.log ∧ (owner = t.insertedBy ∨ owner.isSome ∧ owner = i)) ∨
    ∃ k w e, i = some k ∧ s.txs k = some (.writing w) ∧ e ∈ w.events ∧ t.entry.eventId = e.eventId
  exclusive : ∀ j, i ≠ some j → s.holder = some j →
    (∀ entry, ⟨entry, none⟩ ∈ s.log → ⟨entry, none⟩ ∈ s'.log) ∧ s'.coverage = s.coverage ∧ s'.committed = s.committed

section

variable {u : Uuids} {server : Server} {s s' : State} {i j : Nat} {tx : Tx}

theorem WriteSound.left {k : Option Nat} {w : Write} (h : s.Sound u) (hleaves : Leaves k s s')
    (hw : s.txs j = some (.writing w)) (hne : k ≠ some j) (hsound : WriteSound u s j w) : WriteSound u s' j w where
  drawn e he := by
    obtain ⟨n, hn, heq⟩ := hsound.drawn e he
    exact ⟨n, hn.trans_le hleaves.drawn, heq⟩
  ids := hsound.ids
  own t ht e he hid := by
    rcases hleaves.log t ht with ⟨owner, hold, howner⟩ | ⟨l, w', e', rfl, hw', he', hid'⟩
    · have heq := hsound.own _ hold e he hid
      rcases howner with rfl | ⟨-, rfl⟩
      · exact heq
      · exact absurd (congrArg Tuple.insertedBy heq) hne
    · have hjl : l ≠ j := fun heq => hne (congrArg some heq)
      exact absurd (hid'.symm.trans hid) (h.disjoint l j w' w hw' hw hjl e' he' e he)
  subset := hsound.subset
  recorded e he := by
    rcases hsound.recorded e he with hlog | ⟨c, hc⟩ | hgap | htodo
    · exact .inl (hleaves.uncommitted j hne _ hlog)
    · exact .inr (.inl ⟨c, hleaves.drafts j hne _ c hc⟩)
    · exact .inr (.inr (.inl (hleaves.gap _ hgap)))
    · exact .inr (.inr (.inr htodo))

theorem Tx.Sound.left {k : Option Nat} (h : s.Sound u) (hleaves : Leaves k s s') (hj : s.txs j = some tx)
    (hne : k ≠ some j) : tx.Sound u s' j := by
  have hsound := h.txs j tx hj
  cases tx with
  | begun | passing | asking => trivial
  | entered => exact hleaves.sharers j hne hsound
  | writing w => exact ⟨hleaves.sharers j hne hsound.1, hsound.2.left h hleaves hj hne⟩
  | visiting b => exact ⟨hleaves.holder j hne hsound.1, hsound.2⟩
  | deleting b =>
    have hlog := (hleaves.exclusive j hne hsound.1).1
    exact ⟨hleaves.holder j hne hsound.1, fun row hrow => ⟨(hsound.2 row hrow).1, hlog _ (hsound.2 row hrow).2⟩⟩
  | marked b =>
    have hlog := (hleaves.exclusive j hne hsound.1).1
    obtain ⟨hholder, hbatch, c, hc⟩ := hsound
    exact ⟨hleaves.holder j hne hholder, fun row hrow => ⟨(hbatch row hrow).1, hlog _ (hbatch row hrow).2⟩, c,
      hleaves.drafts j hne _ c hc⟩
  | granted r => exact hleaves.holder j hne hsound
  | checked r =>
    obtain ⟨-, hcoverage, -⟩ := hleaves.exclusive j hne hsound.1
    refine ⟨hleaves.holder j hne hsound.1, ?_⟩
    unfold Gap
    rw [hcoverage]
    exact hsound.2
  | fetched r rows =>
    obtain ⟨-, -, hcommitted⟩ := hleaves.exclusive j hne hsound.1
    refine ⟨hleaves.holder j hne hsound.1, ?_⟩
    rw [hcommitted]
    exact hsound.2

/-- The events of a write after a step are those before it, or new. -/
def SameEvents (u : Uuids) (s : State) (i : Nat) (tx' : Option Tx) : Prop :=
  ∀ w', tx' = some (.writing w') → (∃ w, s.txs i = some (.writing w) ∧ w'.events = w.events) ∨
    ∀ e ∈ w'.events, ∃ k, s.drawn ≤ k ∧ e.eventId = u.draw k

theorem ne_of_drawn {m n : Nat} {x y : String} (hx : ∃ k < m, x = u.draw k) (hy : ∃ k, n ≤ k ∧ y = u.draw k)
    (hle : m ≤ n) : x ≠ y := by
  obtain ⟨k, hk, rfl⟩ := hx
  obtain ⟨l, hl, rfl⟩ := hy
  intro heq
  have := u.injective heq
  omega

/-- What a step keeps: the invariant, and the gaps. -/
structure Next (u : Uuids) (s s' : State) : Prop where
  sound : s'.Sound u
  gap : ∀ model, Gap s model → Gap s' model

/-- A step of a transaction that leaves the others what they rely on. -/
theorem State.Sound.advance {tx' : Option Tx} (h : s.Sound u) (hleaves : Leaves (some i) s s')
    (htxs : s'.txs = Function.update s.txs i tx') (hown : ∀ tx, tx' = some tx → tx.Sound u s' i)
    (hevents : SameEvents u s i tx') (hshared : Shared u s') : Next u s s' := by
  -- the events of the stepping write against those of another
  have hone : ∀ k w w', tx' = some (.writing w) → s.txs k = some (.writing w') → k ≠ i →
      ∀ e ∈ w.events, ∀ e' ∈ w'.events, e.eventId ≠ e'.eventId := by
    intro k w w' hw hw' hki e he e' he'
    rcases hevents w hw with ⟨w₀, hw₀, heq⟩ | hfresh
    · rw [heq] at he
      exact h.disjoint i k w₀ w' hw₀ hw' hki.symm e he e' he'
    · have hsound : WriteSound u s k w' := (h.txs k _ hw').2
      exact (ne_of_drawn (hsound.drawn e' he') (hfresh e he) le_rfl).symm
  refine ⟨{ toShared := hshared, txs := fun j tx hj => ?_, disjoint := fun j k w w' hj hk hjk e he e' he' => ?_ },
    hleaves.gap⟩
  · rw [htxs] at hj
    by_cases hji : j = i
    · rw [hji, Function.update_self] at hj
      rw [hji]
      exact hown tx hj
    · rw [Function.update_of_ne hji] at hj
      exact Tx.Sound.left h hleaves hj fun heq => hji (Option.some.inj heq).symm
  · rw [htxs] at hj hk
    by_cases hji : j = i
    · subst hji
      rw [Function.update_self] at hj
      rw [Function.update_of_ne hjk.symm] at hk
      exact hone k w w' hj hk hjk.symm e he e' he'
    · rw [Function.update_of_ne hji] at hj
      by_cases hki : k = i
      · subst hki
        rw [Function.update_self] at hk
        exact (hone j w' w hk hj hji e' he' e he).symm
      · rw [Function.update_of_ne hki] at hk
        exact h.disjoint j k w w' hj hk hjk e he e' he'

/-! ## Steps that touch no table -/

/-- A step that changes the advisory locks only, and those of its own transaction. -/
theorem State.Sound.quiet {tx' : Option Tx} {sharers : List Nat} {holder : Option Nat} (h : s.Sound u)
    (hsharers : ∀ j, j ≠ i → j ∈ s.sharers → j ∈ sharers) (hholder : ∀ j, j ≠ i → s.holder = some j → holder = some j)
    (hlocks : holder = none ∨ sharers = [])
    (hown : ∀ tx, tx' = some tx → tx.Sound u { s.setTx i tx' with sharers, holder } i)
    (hevents : SameEvents u s i tx') : Next u s { s.setTx i tx' with sharers, holder } := by
  have hleaves : Leaves (some i) s { s.setTx i tx' with sharers, holder } :=
    { sharers := fun j hne hj => hsharers j (fun heq => hne (congrArg some heq.symm)) hj
      holder := fun j hne hj => hholder j (fun heq => hne (congrArg some heq.symm)) hj
      drawn := le_rfl
      drafts := fun _ _ _ _ hc => hc
      gap := fun _ hgap => hgap
      uncommitted := fun _ _ _ hmem => hmem
      log := fun t ht => .inl ⟨t.insertedBy, ht, .inl rfl⟩
      exclusive := fun _ _ _ => ⟨fun _ hmem => hmem, rfl, rfl⟩ }
  exact h.advance hleaves rfl hown hevents
    { log := h.log, drafts := h.drafts, coverage := h.coverage, committed := h.committed, locks := hlocks
      answers := h.answers }

theorem SameEvents.of_not {tx' : Option Tx} (h : ∀ w, tx' ≠ some (.writing w)) : SameEvents u s i tx' :=
  fun w hw => absurd hw (h w)

/-- A call goes on with the locks that it has. -/
theorem State.Sound.go {tx' : Option Tx} (h : s.Sound u) (hown : ∀ tx, tx' = some tx → tx.Sound u (s.setTx i tx') i)
    (hevents : SameEvents u s i tx') : Next u s (s.setTx i tx') :=
  h.quiet (fun _ _ hj => hj) (fun _ _ hj => hj) h.locks hown hevents

theorem State.Sound.call (h : s.Sound u) (hstep : s.call i tx = some s') (htx : ∀ s : State, tx.Sound u s i)
    (hnew : ∀ w, tx ≠ .writing w) : Next u s s' := by
  unfold State.call at hstep
  split at hstep
  · cases hstep
    refine h.go (fun tx' heq => ?_) (.of_not fun w heq => hnew w (Option.some.inj heq))
    cases heq
    exact htx _
  · cases hstep

theorem State.Sound.lockShared (h : s.Sound u) {t : State} (hlock : s.lockShared i = some t)
    (htx : tx.Sound u (t.setTx i (some tx)) i) (hnew : ∀ w, tx ≠ .writing w) : Next u s (t.setTx i (some tx)) := by
  unfold State.lockShared at hlock
  split at hlock
  · rename_i hfree
    cases hlock
    show Next u s { s.setTx i (some tx) with sharers := i :: s.sharers, holder := s.holder }
    refine h.quiet (fun j _ hj => List.mem_cons_of_mem i hj) (fun _ _ hj => hj) (.inl hfree) (fun tx' heq => ?_)
      (.of_not fun w heq => hnew w (Option.some.inj heq))
    cases heq
    exact htx
  · cases hlock

theorem State.Sound.lockExclusive (h : s.Sound u) {t : State} (hlock : s.lockExclusive i = some t)
    (htx : t.holder = some i → tx.Sound u (t.setTx i (some tx)) i) (hnew : ∀ w, tx ≠ .writing w) :
    Next u s (t.setTx i (some tx)) := by
  unfold State.lockExclusive at hlock
  split at hlock
  · rename_i hfree
    cases hlock
    show Next u s { s.setTx i (some tx) with sharers := s.sharers, holder := some i }
    refine h.quiet (fun _ _ hj => hj) (fun j _ hj => ?_) (.inr hfree.2) (fun tx' heq => ?_) (.of_not fun w heq => hnew w (Option.some.inj heq))
    · rw [hfree.1] at hj
      cases hj
    · cases heq
      exact htx rfl
  · cases hlock

/-! ## The end of a transaction -/

theorem Gap.visible (h : Shared u s) {model : String} (hgap : Gap s model) :
    ∃ c, s.visible i model = some c ∧ c.complete = false := by
  unfold State.visible
  cases hdraft : s.drafts model with
  | none => exact hgap
  | some draft =>
    by_cases hi : draft.1 = i
    · exact ⟨draft.2, if_pos hi, (h.drafts model draft.1 draft.2 hdraft).1⟩
    · simp only [if_neg hi]
      exact hgap

/-- Once a transaction ends, its own rows are committed or gone. -/
theorem State.Sound.ends {tx' : Option Tx} {log : List Tuple} {coverage : String → Option Coverage}
    {committed : List StampedEvent} {answers : List Answer} (h : s.Sound u)
    (hids : (log.map (·.entry.eventId)).Nodup)
    (hlog : ∀ t ∈ log, ∃ owner, ⟨t.entry, owner⟩ ∈ s.log ∧ (owner = t.insertedBy ∨ owner = some i))
    (huncommitted : ∀ j, j ≠ i → ∀ entry, ⟨entry, some j⟩ ∈ s.log → ⟨entry, some j⟩ ∈ log)
    (hgap : ∀ model, Gap s model → ∃ c, coverage model = some c ∧ c.complete = false)
    (hcoverage : ∀ model c, coverage model = some c → s.created = true)
    (hexclusive : ∀ j, j ≠ i → s.holder = some j →
      (∀ entry, ⟨entry, none⟩ ∈ s.log → ⟨entry, none⟩ ∈ log) ∧ coverage = s.coverage ∧ committed = s.committed)
    (hcommitted : ∀ e ∈ committed,
      (∃ now, ⟨e.entry now, none⟩ ∈ log) ∨ ∃ c, coverage e.modelName = some c ∧ c.complete = false)
    (hanswers : ∀ a ∈ answers, a.Honest) (hown : ∀ tx, tx' = some tx → ∀ t : State, tx.Sound u t i)
    (hnew : ∀ w, tx' ≠ some (.writing w)) :
    Next u s { s.finish i tx' with log, coverage, committed, answers } := by
  have hdrafts : ∀ j model c, (s.finish i tx').drafts model = some (j, c) → s.drafts model = some (j, c) := by
    intro j model c hc
    exact (Option.filter_eq_some_iff.1 hc).1
  have hleaves : Leaves (some i) s { s.finish i tx' with log, coverage, committed, answers } :=
    { sharers := fun j hne hj => by
        have hji : j ≠ i := fun heq => hne (congrArg some heq.symm)
        exact List.mem_filter.2 ⟨hj, decide_eq_true hji⟩
      holder := fun j hne hj => by
        have hji : j ≠ i := fun heq => hne (congrArg some heq.symm)
        exact Option.filter_eq_some_iff.2 ⟨hj, decide_eq_true hji⟩
      drawn := le_rfl
      drafts := fun j hne model c hc => by
        have hji : j ≠ i := fun heq => hne (congrArg some heq.symm)
        exact Option.filter_eq_some_iff.2 ⟨hc, decide_eq_true hji⟩
      gap := hgap
      uncommitted := fun j hne => huncommitted j fun heq => hne (congrArg some heq.symm)
      log := fun t ht => by
        obtain ⟨owner, hmem, heq | heq⟩ := hlog t ht
        · exact .inl ⟨owner, hmem, .inl heq⟩
        · exact .inl ⟨owner, hmem, .inr ⟨by rw [heq]; rfl, heq⟩⟩
      exclusive := fun j hne => hexclusive j fun heq => hne (congrArg some heq.symm) }
  refine h.advance hleaves rfl (fun tx heq => hown tx heq _) (.of_not hnew) ?_
  refine { log := ⟨hids, fun t ht => ?_⟩, drafts := fun model j c hc => h.drafts model j c (hdrafts j model c hc)
           coverage := hcoverage, committed := hcommitted, locks := ?_, answers := hanswers }
  · obtain ⟨owner, hmem, -⟩ := hlog t ht
    exact h.log.drawn ⟨t.entry, owner⟩ hmem
  · rcases h.locks with hnone | hnil
    · left
      show s.holder.filter _ = none
      rw [hnone]
      rfl
    · right
      show s.sharers.filter _ = []
      rw [hnil]
      rfl

/-- A transaction that ends without changes. -/
theorem State.Sound.finish (h : s.Sound u) {answers : List Answer} (hanswers : ∀ a ∈ answers, a.Honest) :
    Next u s { s.finish i none with answers } := by
  show Next u s
    { s.finish i none with log := s.log, coverage := s.coverage, committed := s.committed, answers }
  exact h.ends h.log.ids (fun t ht => ⟨t.insertedBy, ht, .inl rfl⟩) (fun _ _ _ hmem => hmem) (fun _ hgap => hgap)
    h.coverage (fun _ _ _ => ⟨fun _ hmem => hmem, rfl, rfl⟩) h.committed hanswers (fun _ heq => nomatch heq) nofun

theorem State.Sound.rollback (h : s.Sound u) (i : Nat) : Next u s (s.rollback i) := by
  have hsub : (s.log.filter fun t => t.insertedBy ≠ some i).Sublist s.log := List.filter_sublist
  have hmem : ∀ t ∈ s.log, t.insertedBy ≠ some i → t ∈ s.log.filter fun t => t.insertedBy ≠ some i :=
    fun t ht hne => List.mem_filter.2 ⟨ht, decide_eq_true hne⟩
  refine h.ends ((hsub.map _).nodup h.log.ids) (fun t ht => ⟨t.insertedBy, hsub.subset ht, .inl rfl⟩) ?_ ?_
    h.coverage ?_ ?_ h.answers (fun _ heq => nomatch heq) nofun
  · intro j hji entry hentry
    exact hmem _ hentry fun heq => hji (Option.some.inj heq)
  · exact fun _ hgap => hgap
  · exact fun j _ _ => ⟨fun entry hentry => hmem _ hentry nofun, rfl, rfl⟩
  · intro e he
    rcases h.committed e he with ⟨now, hstored⟩ | hgap
    · exact .inl ⟨now, hmem _ hstored nofun⟩
    · exact .inr hgap

/-- What a transaction sees of the coverage is all that its commit changes. -/
theorem visible_created (h : Shared u s) {model : String} {c : Coverage} (hc : s.visible i model = some c) :
    s.created = true := by
  unfold State.visible at hc
  cases hdraft : s.drafts model with
  | none =>
    rw [hdraft] at hc
    exact h.coverage model c hc
  | some draft =>
    exact (h.drafts model draft.1 draft.2 hdraft).2

theorem State.Sound.commitWrite {w : Write} (h : s.Sound u) (hi : s.txs i = some (.writing w)) (htodo : w.todo = []) :
    Next u s (s.commitWrite i w) := by
  obtain ⟨hsharer, hwrite⟩ : i ∈ s.sharers ∧ WriteSound u s i w := h.txs i _ hi
  have hcommit : ∀ t ∈ s.log, t.commit i ∈ s.log.map (Tuple.commit i) := fun t ht => List.mem_map_of_mem ht
  have hkept : ∀ t ∈ s.log, t.insertedBy ≠ some i → t ∈ s.log.map (Tuple.commit i) := by
    intro t ht hne
    have hmem := hcommit t ht
    rwa [Tuple.commit, if_neg hne] at hmem
  refine h.ends ?_ ?_ ?_ (fun _ hgap => hgap.visible h.toShared)
    (fun _ _ hc => visible_created h.toShared hc) ?_ ?_ h.answers (fun _ heq => nomatch heq) nofun
  · rw [List.map_map]
    have hsame : (·.entry.eventId) ∘ Tuple.commit i = (·.entry.eventId) := by
      funext t
      simp only [Function.comp, Tuple.commit]
      split <;> rfl
    rw [hsame]
    exact h.log.ids
  · intro t ht
    obtain ⟨t₀, ht₀, rfl⟩ := List.mem_map.1 ht
    refine ⟨t₀.insertedBy, ?_, ?_⟩ <;> unfold Tuple.commit
    · split <;> exact ht₀
    · split
      · rename_i hown
        exact .inr hown
      · exact .inl rfl
  · intro j hji entry hentry
    exact hkept _ hentry fun heq => hji (Option.some.inj heq)
  · -- the lock that the write holds excludes the exclusive one
    intro j _ hj
    rcases h.locks with hnone | hnil
    · rw [hnone] at hj
      cases hj
    · rw [hnil] at hsharer
      cases hsharer
  · intro e he
    rcases List.mem_append.1 he with hold | hnew
    · rcases h.committed e hold with ⟨now, hstored⟩ | hgap
      · exact .inl ⟨now, hkept _ hstored nofun⟩
      · exact .inr (hgap.visible h.toShared)
    · rcases hwrite.recorded e hnew with hlog | ⟨c, hc⟩ | hgap | ⟨p, hp, -⟩
      · have hmem := hcommit _ hlog
        rw [Tuple.commit, if_pos rfl] at hmem
        exact .inl ⟨_, hmem⟩
      · right
        refine ⟨c, ?_, (h.drafts _ i c hc).1⟩
        unfold State.visible
        rw [hc]
        exact if_pos rfl
      · exact .inr (hgap.visible h.toShared)
      · rw [htodo] at hp
        cases hp

theorem State.Sound.commitBatch {b : Batch} (h : s.Sound u) (hholder : s.holder = some i) (hbatch : BatchSound s b)
    (hmarked : b.deleted = [] ∨ ∃ c, s.drafts b.model = some (i, c)) : Next u s (s.commitBatch i b) := by
  have hsub : (s.log.filter fun t => t.entry.eventId ∉ b.deleted.map (·.eventId)).Sublist s.log := List.filter_sublist
  -- a row that goes is a committed one of the model
  have hgone : ∀ t ∈ s.log, t.entry.eventId ∈ b.deleted.map (·.eventId) →
      t.insertedBy = none ∧ t.entry.modelName = b.model ∧ ∃ c, s.drafts b.model = some (i, c) := by
    intro t ht hid
    obtain ⟨row, hrow, heq⟩ := List.mem_map.1 hid
    obtain ⟨hmodel, hmem⟩ := hbatch row hrow
    have ht' : t = ⟨row, none⟩ := List.inj_on_of_nodup_map h.log.ids ht hmem heq.symm
    rcases hmarked with hnil | hdraft
    · rw [hnil] at hrow
      cases hrow
    · rw [ht']
      exact ⟨rfl, hmodel, hdraft⟩
  have hkept : ∀ t ∈ s.log, t.entry.eventId ∉ b.deleted.map (·.eventId) →
      t ∈ s.log.filter fun t => t.entry.eventId ∉ b.deleted.map (·.eventId) :=
    fun t ht hid => List.mem_filter.2 ⟨ht, decide_eq_true hid⟩
  refine h.ends ((hsub.map _).nodup h.log.ids) (fun t ht => ⟨t.insertedBy, hsub.subset ht, .inl rfl⟩) ?_
    (fun _ hgap => hgap.visible h.toShared) (fun _ _ hc => visible_created h.toShared hc) ?_ ?_ h.answers
    (fun tx heq t => by cases heq; trivial) nofun
  · intro j _ entry hentry
    refine hkept _ hentry fun hid => ?_
    cases (hgone _ hentry hid).1
  · intro j hji hj
    rw [hholder] at hj
    exact absurd (Option.some.inj hj).symm hji
  · intro e he
    rcases h.committed e he with ⟨now, hstored⟩ | hgap
    · by_cases hid : e.eventId ∈ b.deleted.map (·.eventId)
      · obtain ⟨-, hmodel, c, hc⟩ := hgone _ hstored hid
        right
        have hmodel : e.modelName = b.model := hmodel
        rw [hmodel]
        refine ⟨c, ?_, (h.drafts _ i c hc).1⟩
        unfold State.visible
        rw [hc]
        exact if_pos rfl
      · exact .inl ⟨now, hkept _ hstored hid⟩
    · exact .inr (hgap.visible h.toShared)

end

end Atomo.History
