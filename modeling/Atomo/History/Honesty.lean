import Atomo.History.Invariant

/-!
# Replays are honest

A write stores its events or marks the gap of its model, a batch that deletes rows leaves a gap with its
commit, and no step takes a gap back. So a model without a gap has the events of all committed writes in the
log, and this is what a replay or a rebuild finds, which holds the advisory lock from its check to its end.
-/

namespace Atomo.History

open Jobs (Uuids)

section

variable {u : Uuids} {server : Server} {s s' : State} {i : Nat} {tx : Tx}

/-! ## The statements of a write -/

theorem stamp_drawn {drawn : Nat} {events : List (ModelEvent × String)} {e : StampedEvent}
    (he : e ∈ State.stamp u drawn events) :
    ∃ k, drawn ≤ k ∧ k < drawn + events.length ∧ e.eventId = u.draw k := by
  induction events generalizing drawn with
  | nil => cases he
  | cons event events ih =>
    rcases List.mem_cons.1 he with rfl | he
    · refine ⟨drawn, le_rfl, ?_, rfl⟩
      rw [List.length_cons]
      omega
    · obtain ⟨k, hle, hlt, heq⟩ := ih he
      refine ⟨k, by omega, ?_, heq⟩
      rw [List.length_cons]
      omega

theorem stamp_nodup (u : Uuids) (drawn : Nat) (events : List (ModelEvent × String)) :
    ((State.stamp u drawn events).map (·.eventId)).Nodup := by
  induction events generalizing drawn with
  | nil => exact List.nodup_nil
  | cons event events ih =>
    refine List.nodup_cons.2 ⟨fun hmem => ?_, ih (drawn + 1)⟩
    obtain ⟨e, he, heq⟩ := List.mem_map.1 hmem
    obtain ⟨k, hle, -, hk⟩ := stamp_drawn he
    have hdraw := u.injective (hk.symm.trans heq)
    omega

/-- The statement of a write returns, and its events get ids of their own. -/
theorem State.Sound.wrote (h : s.Sound u) {config config' : HistoryConfig} {model : String} {now : Int}
    (hi : s.txs i = some (.entered config' model now)) {events : List (ModelEvent × String)}
    {persist : HistoryConfig → List StampedEvent → List Persist}
    (hsees : ∀ stamped, Sees stamped (persist config stamped)) : Next u s (s.wrote u i config now persist events) := by
  have hsharer : i ∈ s.sharers := h.txs i _ hi
  have hleaves : Leaves (some i) s (s.wrote u i config now persist events) :=
    { sharers := fun _ _ hj => hj
      holder := fun _ _ hj => hj
      drawn := Nat.le_add_right _ _
      drafts := fun _ _ _ _ hc => hc
      gap := fun _ hgap => hgap
      uncommitted := fun _ _ _ hmem => hmem
      log := fun t ht => .inl ⟨t.insertedBy, ht, .inl rfl⟩
      exclusive := fun _ _ _ => ⟨fun _ hmem => hmem, rfl, rfl⟩ }
  refine h.advance hleaves rfl (fun tx heq => ?_) (fun w hw => .inr fun e he => ?_)
    { log := ⟨h.log.ids, fun t ht => ?_⟩, drafts := h.drafts, coverage := h.coverage, committed := h.committed
      locks := h.locks, answers := h.answers }
  · cases heq
    refine ⟨hsharer, ?_, stamp_nodup u _ _, fun t ht e he hid => ?_, (hsees _).subset, fun e he => ?_⟩
    · intro e he
      obtain ⟨k, -, hlt, heq⟩ := stamp_drawn he
      exact ⟨k, hlt, heq⟩
    · -- no row of the log has an id that was not drawn before
      obtain ⟨k, hle, -, heq⟩ := stamp_drawn he
      exact absurd hid (ne_of_drawn (h.log.drawn t ht) ⟨k, hle, heq⟩ le_rfl)
    · exact .inr (.inr (.inr ((hsees _).records e he)))
  · cases hw
    obtain ⟨k, hle, -, heq⟩ := stamp_drawn he
    exact ⟨k, hle, heq⟩
  · obtain ⟨k, hlt, heq⟩ := h.log.drawn t ht
    exact ⟨k, hlt.trans_le (Nat.le_add_right _ _), heq⟩

theorem mem_insertEntries {entries : List LogEntry} {log : List Tuple} :
    (∀ t ∈ log, t ∈ entries.foldl (State.insertEntry i) log) ∧
      (∀ t ∈ entries.foldl (State.insertEntry i) log, t ∈ log ∨ ∃ entry ∈ entries, t = ⟨entry, some i⟩) ∧
      ∀ entry ∈ entries, ∃ t ∈ entries.foldl (State.insertEntry i) log, t.entry.eventId = entry.eventId := by
  induction entries generalizing log with
  | nil => exact ⟨fun t ht => ht, fun t ht => .inl ht, fun entry h => absurd h List.not_mem_nil⟩
  | cons entry entries ih =>
    rw [List.foldl_cons]
    obtain ⟨hkeeps, honly, hall⟩ := @ih (State.insertEntry i log entry)
    have hold : ∀ t ∈ log, t ∈ State.insertEntry i log entry := by
      intro t ht
      unfold State.insertEntry
      split
      · exact ht
      · exact List.mem_append_left _ ht
    have hnew : ∀ t ∈ State.insertEntry i log entry, t ∈ log ∨ t = ⟨entry, some i⟩ := by
      intro t ht
      unfold State.insertEntry at ht
      split at ht
      · exact .inl ht
      · rcases List.mem_append.1 ht with ht | ht
        · exact .inl ht
        · exact .inr (List.mem_singleton.1 ht)
    have hpresent : ∃ t ∈ State.insertEntry i log entry, t.entry.eventId = entry.eventId := by
      unfold State.insertEntry
      split
      · assumption
      · exact ⟨_, List.mem_append_right _ (List.mem_singleton_self _), rfl⟩
    refine ⟨fun t ht => hkeeps t (hold t ht), fun t ht => ?_, fun other hother => ?_⟩
    · rcases honly t ht with ht | ⟨other, hother, heq⟩
      · rcases hnew t ht with ht | heq
        · exact .inl ht
        · exact .inr ⟨entry, List.mem_cons_self, heq⟩
      · exact .inr ⟨other, List.mem_cons_of_mem _ hother, heq⟩
    · rcases List.mem_cons.1 hother with rfl | hother
      · obtain ⟨t, ht, heq⟩ := hpresent
        exact ⟨t, hkeeps t ht, heq⟩
      · exact hall other hother

theorem nodup_insertEntries (i : Nat) (entries : List LogEntry) {log : List Tuple}
    (h : (log.map (·.entry.eventId)).Nodup) :
    ((entries.foldl (State.insertEntry i) log).map (·.entry.eventId)).Nodup := by
  induction entries generalizing log with
  | nil => exact h
  | cons entry entries ih =>
    apply ih
    unfold State.insertEntry
    split
    · exact h
    · rename_i hnew
      rw [List.map_append, List.map_singleton, List.nodup_append]
      refine ⟨h, List.nodup_singleton _, fun id hid id' hid' heq => hnew ?_⟩
      obtain ⟨t, ht, rfl⟩ := List.mem_map.1 hid
      exact ⟨t, ht, heq.trans (List.mem_singleton.1 hid')⟩

/-- A write stores events of its own. -/
theorem State.Sound.insert {w : Write} {stored : List StampedEvent} {todo : List Persist} (h : s.Sound u)
    (hi : s.txs i = some (.writing w)) (htodo : w.todo = .insert stored :: todo) :
    Next u s { s.setTx i (some (.writing { w with todo })) with
      log := (stored.map (StampedEvent.entry w.startedAt)).foldl (State.insertEntry i) s.log } := by
  obtain ⟨hsharer, hwrite⟩ : i ∈ s.sharers ∧ WriteSound u s i w := h.txs i _ hi
  have hsubset : stored ⊆ w.events := hwrite.subset stored (by rw [htodo]; exact List.mem_cons_self)
  obtain ⟨hkeeps, honly, hall⟩ := @mem_insertEntries i (stored.map (StampedEvent.entry w.startedAt)) s.log
  -- a new row is the row of an event of the write
  have hrow : ∀ t ∈ (stored.map (StampedEvent.entry w.startedAt)).foldl (State.insertEntry i) s.log,
      t ∈ s.log ∨ ∃ e ∈ w.events, t = ⟨e.entry w.startedAt, some i⟩ := by
    intro t ht
    rcases honly t ht with hold | ⟨entry, hentry, heq⟩
    · exact .inl hold
    · obtain ⟨e, he, rfl⟩ := List.mem_map.1 hentry
      exact .inr ⟨e, hsubset he, heq⟩
  have hown : ∀ t ∈ (stored.map (StampedEvent.entry w.startedAt)).foldl (State.insertEntry i) s.log,
      ∀ e ∈ w.events, t.entry.eventId = e.eventId → t = ⟨e.entry w.startedAt, some i⟩ := by
    intro t ht e he hid
    rcases hrow t ht with hold | ⟨e', he', rfl⟩
    · exact hwrite.own t hold e he hid
    · rw [List.inj_on_of_nodup_map hwrite.ids he' he hid]
  have hleaves : Leaves (some i) s { s.setTx i (some (.writing { w with todo })) with
      log := (stored.map (StampedEvent.entry w.startedAt)).foldl (State.insertEntry i) s.log } :=
    { sharers := fun _ _ hj => hj
      holder := fun _ _ hj => hj
      drawn := le_rfl
      drafts := fun _ _ _ _ hc => hc
      gap := fun _ hgap => hgap
      uncommitted := fun _ _ _ hmem => hkeeps _ hmem
      log := fun t ht => by
        rcases hrow t ht with hold | ⟨e, he, heq⟩
        · exact .inl ⟨t.insertedBy, hold, .inl rfl⟩
        · exact .inr ⟨i, w, e, rfl, hi, he, by rw [heq]; rfl⟩
      exclusive := fun _ _ _ => ⟨fun _ hmem => hkeeps _ hmem, rfl, rfl⟩ }
  refine h.advance hleaves rfl (fun tx heq => ?_) (fun w' hw' => ?_) ?_
  · cases heq
    refine ⟨hsharer, hwrite.drawn, hwrite.ids, hown, fun stored' hmem => ?_, fun e he => ?_⟩
    · exact hwrite.subset stored' (by rw [htodo]; exact List.mem_cons_of_mem _ hmem)
    · rcases hwrite.recorded e he with hlog | hdraft | hgap | ⟨p, hp, hrecords⟩
      · exact .inl (hkeeps _ hlog)
      · exact .inr (.inl hdraft)
      · exact .inr (.inr (.inl hgap))
      · rw [htodo] at hp
        rcases List.mem_cons.1 hp with rfl | hp
        · obtain ⟨t, ht, hid⟩ := hall _ (List.mem_map_of_mem hrecords)
          rw [← hown t ht e he hid]
          exact .inl ht
        · exact .inr (.inr (.inr ⟨p, hp, hrecords⟩))
  · cases hw'
    exact .inl ⟨w, hi, rfl⟩
  · refine { log := ⟨nodup_insertEntries i _ h.log.ids, fun t ht => ?_⟩, drafts := h.drafts, coverage := h.coverage
             committed := fun e he => ?_, locks := h.locks, answers := h.answers }
    · rcases hrow t ht with hold | ⟨e, he, rfl⟩
      · exact h.log.drawn t hold
      · exact hwrite.drawn e he
    · rcases h.committed e he with ⟨now, hstored⟩ | hgap
      · exact .inl ⟨now, hkeeps _ hstored⟩
      · exact .inr hgap

/-! ## Gaps -/

theorem gapped_complete (now : Int) (c : Option Coverage) : (Store.gapped now c).complete = false := by
  cases c with
  | none => rfl
  | some c =>
    unfold Store.gapped
    dsimp only
    split
    · rfl
    · rename_i hcomplete
      simp only [Bool.or_eq_true, not_or, Bool.not_eq_true] at hcomplete
      exact hcomplete.1

theorem pruned_complete (now : Int) (deleted : List LogEntry) (c : Option Coverage) :
    (pruned now deleted c).complete = false := by
  cases c <;> rfl

/-- A transaction marks a gap, which its commit will make one for everyone. -/
theorem State.Sound.draft {t : State} {model : String} {f : Option Coverage → Coverage} (h : s.Sound u)
    (hdraft : s.draft i model f = some t) (hf : ∀ c, (f c).complete = false)
    (hown : Leaves (some i) s (t.setTx i (some tx)) → t.drafts model = some (i, f (s.visible i model)) →
      tx.Sound u (t.setTx i (some tx)) i)
    (hevents : SameEvents u s i (some tx)) : Next u s (t.setTx i (some tx)) := by
  unfold State.draft at hdraft
  split at hdraft
  · rename_i hfree
    cases hdraft
    have hleaves : Leaves (some i) s (State.setTx
        { s with drafts := Function.update s.drafts model (some (i, f (s.visible i model))) } i (some tx)) :=
      { sharers := fun _ _ hj => hj
        holder := fun _ _ hj => hj
        drawn := le_rfl
        drafts := fun j hne model' c hc => by
          show Function.update s.drafts model _ model' = some (j, c)
          by_cases heq : model' = model
          · -- the draft of another transaction would have locked the row
            subst heq
            have hlock := hfree.2
            rw [hc] at hlock
            exact absurd (congrArg some (of_decide_eq_true hlock)).symm hne
          · rw [Function.update_of_ne heq]
            exact hc
        gap := fun _ hgap => hgap
        uncommitted := fun _ _ _ hmem => hmem
        log := fun t ht => .inl ⟨t.insertedBy, ht, .inl rfl⟩
        exclusive := fun _ _ _ => ⟨fun _ hmem => hmem, rfl, rfl⟩ }
    refine h.advance hleaves rfl (fun tx' heq => ?_) hevents
      { log := h.log, drafts := fun model' j c hc => ?_, coverage := h.coverage, committed := h.committed
        locks := h.locks, answers := h.answers }
    · cases heq
      exact hown hleaves (Function.update_self model _ s.drafts)
    · have hc : Function.update s.drafts model (some (i, f (s.visible i model))) model' = some (j, c) := hc
      by_cases heq : model' = model
      · rw [heq, Function.update_self] at hc
        cases hc
        exact ⟨hf _, hfree.1⟩
      · rw [Function.update_of_ne heq] at hc
        exact h.drafts model' j c hc
  · cases hdraft

theorem State.Sound.persist {w : Write} {statement : Persist} {todo : List Persist} {t : State} (h : s.Sound u)
    (hi : s.txs i = some (.writing w)) (htodo : w.todo = statement :: todo)
    (hrun : s.runPersist i w.startedAt statement = some t) :
    Next u s (t.setTx i (some (.writing { w with todo }))) := by
  obtain ⟨hsharer, hwrite⟩ : i ∈ s.sharers ∧ WriteSound u s i w := h.txs i _ hi
  have hevents : SameEvents u s i (some (.writing { w with todo })) := by
    intro w' hw'
    cases hw'
    exact .inl ⟨w, hi, rfl⟩
  cases statement with
  | insert stored =>
    simp only [State.runPersist] at hrun
    split at hrun
    · cases hrun
      exact h.insert hi htodo
    · cases hrun
  | mark model =>
    -- the write with its model marked
    have hrest : ∀ {t' : State}, t'.log = s.log → t'.drawn = s.drawn → (∀ model, Gap s model → Gap t' model) →
        (∀ model' c, s.drafts model' = some (i, c) → ∃ c, t'.drafts model' = some (i, c)) →
        ((∃ c, t'.drafts model = some (i, c)) ∨ Gap t' model) → WriteSound u t' i { w with todo } := by
      intro t' hlog hdrawn hgaps hdrafts hmarked
      refine ⟨?_, hwrite.ids, ?_, fun stored hmem => ?_, fun e he => ?_⟩
      · rw [hdrawn]
        exact hwrite.drawn
      · rw [hlog]
        exact hwrite.own
      · exact hwrite.subset stored (by rw [htodo]; exact List.mem_cons_of_mem _ hmem)
      · rw [hlog]
        rcases hwrite.recorded e he with hstored | ⟨c, hc⟩ | hgap | ⟨p, hp, hrecords⟩
        · exact .inl hstored
        · exact .inr (.inl (hdrafts _ c hc))
        · exact .inr (.inr (.inl (hgaps _ hgap)))
        · rw [htodo] at hp
          rcases List.mem_cons.1 hp with rfl | hp
          · have hmodel : model = e.modelName := hrecords
            rw [← hmodel]
            rcases hmarked with hdraft | hgap
            · exact .inr (.inl hdraft)
            · exact .inr (.inr (.inl hgap))
          · exact .inr (.inr (.inr ⟨p, hp, hrecords⟩))
    simp only [State.runPersist] at hrun
    split at hrun
    · rename_i hmarked
      cases hrun
      refine h.go (fun tx heq => ?_) hevents
      cases heq
      refine ⟨hsharer, hrest rfl rfl (fun _ hgap => hgap) (fun _ c hc => ⟨c, hc⟩) ?_⟩
      -- what is marked already is a draft of its own, or committed
      unfold State.isMarked at hmarked
      obtain ⟨c, hc, hcomplete⟩ := (Option.any_eq_true _ _).1 hmarked
      simp only [Bool.and_eq_true, Bool.not_eq_true'] at hcomplete
      unfold State.visible at hc
      split at hc
      · rename_i j c' hdraft
        split at hc
        · rename_i hj
          rw [hj] at hdraft
          exact .inl ⟨c', hdraft⟩
        · exact .inr ⟨c, hc, hcomplete.1⟩
      · exact .inr ⟨c, hc, hcomplete.1⟩
    · refine h.draft hrun (gapped_complete w.startedAt) (fun hleaves hdraft => ?_) hevents
      have ht : t.log = s.log ∧ t.drawn = s.drawn ∧ t.sharers = s.sharers ∧ ∀ model' c, s.drafts model' = some (i, c) →
          ∃ c, t.drafts model' = some (i, c) := by
        unfold State.draft at hrun
        split at hrun
        · cases hrun
          refine ⟨rfl, rfl, rfl, fun model' c hc => ?_⟩
          by_cases heq : model' = model
          · rw [heq]
            exact ⟨_, hdraft⟩
          · refine ⟨c, ?_⟩
            show Function.update s.drafts model _ model' = some (i, c)
            rw [Function.update_of_ne heq]
            exact hc
        · cases hrun
      obtain ⟨hlog, hdrawn, hsharers, hdrafts⟩ := ht
      refine ⟨?_, hrest hlog hdrawn hleaves.gap hdrafts (.inl ⟨_, hdraft⟩)⟩
      show i ∈ t.sharers
      rw [hsharers]
      exact hsharer

/-! ## Deployments -/

/-- A step that belongs to no transaction. -/
theorem State.Sound.outside {t : State} (h : s.Sound u) (hleaves : Leaves none s t) (htxs : t.txs = s.txs)
    (hshared : Shared u t) : Next u s t := by
  refine ⟨{ toShared := hshared, txs := fun j tx hj => ?_, disjoint := fun j k w w' hj hk => ?_ }, hleaves.gap⟩
  · rw [htxs] at hj
    exact Tx.Sound.left h hleaves hj nofun
  · rw [htxs] at hj hk
    exact h.disjoint j k w w' hj hk

theorem State.Sound.deploy (h : s.Sound u) (deployments : Nat → Option Deployment) :
    Next u s { s with created := true, deployments } := by
  have hleaves : Leaves none s { s with created := true, deployments } :=
    { sharers := fun _ _ hj => hj
      holder := fun _ _ hj => hj
      drawn := le_rfl
      drafts := fun _ _ _ _ hc => hc
      gap := fun _ hgap => hgap
      uncommitted := fun _ _ _ hmem => hmem
      log := fun t ht => .inl ⟨t.insertedBy, ht, .inl rfl⟩
      exclusive := fun _ _ _ => ⟨fun _ hmem => hmem, rfl, rfl⟩ }
  exact h.outside hleaves rfl
    { log := h.log, drafts := fun model j c hc => ⟨(h.drafts model j c hc).1, rfl⟩, coverage := fun _ _ _ => rfl
      committed := h.committed, locks := h.locks, answers := h.answers }

theorem State.Sound.initModel {t : State} {model : String} {mode : HistoryMode} (h : s.Sound u)
    (hinit : s.initModel model mode = some t) (deployments : Nat → Option Deployment) :
    Next u s { t with deployments } := by
  unfold State.initModel at hinit
  split at hinit
  · rename_i hfree
    cases hinit
    -- a mode is set, the completeness of a row that is there stays
    have hgap : ∀ model', Gap s model' → ∃ c,
        Function.update s.coverage model (some { ((s.coverage model).getD { mode }) with mode }) model' = some c ∧
          c.complete = false := by
      rintro model' ⟨c, hc, hcomplete⟩
      by_cases heq : model' = model
      · subst heq
        rw [Function.update_self, hc]
        exact ⟨_, rfl, hcomplete⟩
      · rw [Function.update_of_ne heq]
        exact ⟨c, hc, hcomplete⟩
    refine h.outside ?_ rfl ?_
    · exact
        { sharers := fun _ _ hj => hj
          holder := fun _ _ hj => hj
          drawn := le_rfl
          drafts := fun _ _ _ _ hc => hc
          gap := hgap
          uncommitted := fun _ _ _ hmem => hmem
          log := fun t ht => .inl ⟨t.insertedBy, ht, .inl rfl⟩
          exclusive := fun j _ hj => by
            rw [hfree.2.1] at hj
            cases hj }
    · refine { log := h.log, drafts := h.drafts, coverage := fun _ _ _ => hfree.1, committed := fun e he => ?_
               locks := h.locks, answers := h.answers }
      rcases h.committed e he with hstored | hmissing
      · exact .inl hstored
      · exact .inr (hgap _ hmissing)
  · cases hinit

/-! ## The runs -/

theorem victims_subset (server : Server) (policy : HistoryPolicy) (now : Int) (limit : Nat) (ranked : List LogEntry) :
    victims server policy now limit ranked ⊆ ranked := by
  have hrows : ∀ (rows : List LogEntry) (kept : Nat), (keptBytes server kept rows).map (·.1) = rows := by
    intro rows
    induction rows with
    | nil => exact fun _ => rfl
    | cons row rows ih =>
      intro kept
      rw [keptBytes, List.map_cons, ih]
  intro row hrow
  have hmem := List.mem_reverse.1 (List.mem_of_mem_take hrow)
  obtain ⟨ranked', hranked, rfl⟩ := List.mem_map.1 hmem
  rw [← hrows ranked 0]
  exact List.mem_map_of_mem (List.mem_filter.1 hranked).1

theorem mem_rowsOf {model : String} {row : LogEntry} :
    row ∈ s.rowsOf model ↔ ⟨row, none⟩ ∈ s.log ∧ row.modelName = model := by
  unfold State.rowsOf
  rw [List.mem_filter, List.mem_map]
  constructor
  · rintro ⟨⟨t, ht, rfl⟩, hmodel⟩
    obtain ⟨ht, hnone⟩ := List.mem_filter.1 ht
    have heq : t = ⟨t.entry, none⟩ := by rw [← of_decide_eq_true hnone]
    exact ⟨heq ▸ ht, of_decide_eq_true hmodel⟩
  · rintro ⟨hmem, hmodel⟩
    exact ⟨⟨⟨row, none⟩, List.mem_filter.2 ⟨hmem, rfl⟩, rfl⟩, decide_eq_true hmodel⟩

/-- A check that passes finds no gap. -/
theorem not_gap_of_covered {model : String} (h : covered (s.coverage model) = true) : ¬Gap s model := by
  rintro ⟨c, hc, hcomplete⟩
  rw [hc] at h
  simp [covered, hcomplete] at h

theorem not_gap_of_passes (h : Shared u s) {r : Request} (hpasses : s.passes r = true) : ¬Gap s r.model := by
  unfold State.passes at hpasses
  split at hpasses
  · simp only [Bool.and_eq_true] at hpasses
    exact not_gap_of_covered hpasses.2
  · rw [Bool.or_eq_true] at hpasses
    rcases hpasses with hmissing | hcovered
    · rintro ⟨c, hc, -⟩
      rw [h.coverage _ c hc] at hmissing
      cases hmissing
    · exact not_gap_of_covered hcovered

/-- Without a gap, the whole history of a model is read. -/
theorem honest_of_selects (h : Shared u s) {r : Request} {rows : List LogEntry} (hgap : ¬Gap s r.model)
    (hselects : s.selects server r rows) : Answer.Honest ⟨r, rows, s.committed⟩ := by
  intro hwhole e he hmodel
  have hmodel : e.modelName = r.model := hmodel
  rcases h.committed e he with ⟨now, hstored⟩ | hmissing
  · have hmem : e.entry now ∈ s.rowsOf r.model := mem_rowsOf.2 ⟨hstored, hmodel⟩
    refine ⟨now, ?_⟩
    unfold State.selects at hselects
    unfold Request.whole at hwhole
    split at hselects
    · rename_i config since hreading
      have hwhole : since.isNone = true := by simpa [hreading] using hwhole
      rw [Option.isNone_iff_eq_none.1 hwhole] at hselects
      apply hselects.1.symm.subset
      exact List.mem_filter.2 ⟨hmem, rfl⟩
    · exact hselects.1.symm.subset hmem
  · rw [hmodel] at hmissing
    exact absurd hmissing hgap

theorem State.Sound.commit (h : s.Sound u) (hi : s.txs i = some tx) (hcommit : s.commit i tx = some s') :
    Next u s s' := by
  have hsound := h.txs i tx hi
  cases tx with
  | writing w =>
    simp only [State.commit] at hcommit
    split at hcommit
    · rename_i htodo
      cases hcommit
      exact h.commitWrite hi htodo
    · cases hcommit
  | deleting b =>
    simp only [State.commit] at hcommit
    split at hcommit
    · rename_i hnone
      cases hcommit
      exact h.commitBatch hsound.1 hsound.2 (.inl hnone)
    · cases hcommit
  | marked b =>
    cases hcommit
    exact h.commitBatch hsound.1 hsound.2.1 (.inr hsound.2.2)
  | fetched r rows =>
    cases hcommit
    refine h.finish fun a ha => ?_
    rcases List.mem_append.1 ha with hold | hnew
    · exact h.answers a hold
    · rw [List.mem_singleton.1 hnew]
      exact hsound.2
  | begun | entered | passing | visiting | asking | granted | checked => cases hcommit

theorem State.Sound.lock (h : s.Sound u) (hlock : s.lock i tx = some s') : Next u s s' := by
  cases tx with
  | begun config model now =>
    obtain ⟨t, ht, rfl⟩ := Option.map_eq_some_iff.1 hlock
    refine h.lockShared ht ?_ nofun
    unfold State.lockShared at ht
    split at ht
    · cases ht
      exact List.mem_cons_self
    · cases ht
  | asking r =>
    obtain ⟨t, ht, rfl⟩ := Option.map_eq_some_iff.1 hlock
    exact h.lockExclusive ht id nofun
  | entered | writing | passing | visiting | deleting | marked | granted | checked | fetched => cases hlock

theorem State.Sound.visit {p : Pass} {now : Int} (h : s.Sound u) (hvisit : s.visit i now p = some s') :
    Next u s s' := by
  have hends : Next u s (s.setTx i none) := h.go (fun _ heq => nomatch heq) (.of_not nofun)
  unfold State.visit at hvisit
  split at hvisit
  · cases hvisit
    exact hends
  · split at hvisit
    · cases hvisit
      exact hends
    · split at hvisit
      · cases hvisit
        refine h.go (fun tx heq => ?_) (.of_not nofun)
        cases heq
        trivial
      · obtain ⟨t, ht, rfl⟩ := Option.map_eq_some_iff.1 hvisit
        exact h.lockExclusive ht (fun hholder => ⟨hholder, rfl⟩) nofun

theorem State.Sound.delete {b : Batch} {ranked : List LogEntry} (h : s.Sound u) (hi : s.txs i = some (.visiting b))
    (hdelete : s.delete server i ranked b = some s') : Next u s s' := by
  have hholder : s.holder = some i := (h.txs i _ hi).1
  unfold State.delete at hdelete
  split at hdelete
  · rename_i hranked
    cases hdelete
    refine h.go (fun tx heq => ?_) (.of_not nofun)
    cases heq
    refine ⟨hholder, fun row hrow => ?_⟩
    exact (mem_rowsOf.1 (hranked.1.subset (victims_subset _ _ _ _ _ hrow))).symm
  · cases hdelete

/-- The deleted rows of a batch are marked. -/
theorem State.Sound.mark {b : Batch} {t : State} (h : s.Sound u) (hi : s.txs i = some (.deleting b))
    (hmark : s.draft i b.model (pruned b.startedAt b.deleted) = some t) :
    Next u s (t.setTx i (some (.marked b))) := by
  obtain ⟨hholder, hbatch⟩ : s.holder = some i ∧ BatchSound s b := h.txs i _ hi
  refine h.draft hmark (pruned_complete _ _) (fun _ hdraft => ?_) (.of_not nofun)
  unfold State.draft at hmark
  split at hmark
  · cases hmark
    exact ⟨hholder, hbatch, _, hdraft⟩
  · cases hmark

theorem State.Sound.step {a : Act} (h : s.Sound u) (hstep : s.step u server a = some s') : Next u s s' := by
  cases a with
  | deploy d config models =>
    simp only [State.step] at hstep
    split at hstep
    · cases hstep
      exact h.deploy _
    · cases hstep
  | initModel d =>
    obtain ⟨dep, -, hdep⟩ := Option.bind_eq_some_iff.1 hstep
    split at hdep
    · cases hdep
    · obtain ⟨t, ht, rfl⟩ := Option.map_eq_some_iff.1 hdep
      exact h.initModel ht _
  | begin i d model now =>
    obtain ⟨dep, -, hdep⟩ := Option.bind_eq_some_iff.1 hstep
    split at hdep
    · exact h.call hdep (fun _ => trivial) nofun
    · cases hdep
  | maintain i d models =>
    obtain ⟨dep, -, hdep⟩ := Option.bind_eq_some_iff.1 hstep
    split at hdep
    · exact h.call hdep (fun _ => trivial) nofun
    · cases hdep
  | replay i d model since =>
    obtain ⟨dep, -, hdep⟩ := Option.bind_eq_some_iff.1 hstep
    exact h.call hdep (fun _ => trivial) nofun
  | rebuild i model => exact h.call hstep (fun _ => trivial) nofun
  | lock i =>
    obtain ⟨tx, -, hlock⟩ := Option.bind_eq_some_iff.1 hstep
    exact h.lock hlock
  | create i event timestamp =>
    simp only [State.step] at hstep
    split at hstep
    · rename_i config model now hi
      split at hstep
      · cases hstep
        exact h.wrote hi (persistIn_sees config)
      · cases hstep
    · cases hstep
  | bulk i events =>
    simp only [State.step] at hstep
    split at hstep
    · rename_i config model now hi
      split at hstep
      · cases hstep
        exact h.wrote hi (persistManyIn_sees config)
      · cases hstep
    · cases hstep
  | persist i =>
    simp only [State.step] at hstep
    split at hstep
    · rename_i w hi
      split at hstep
      · cases hstep
      · rename_i statement todo htodo
        obtain ⟨t, ht, rfl⟩ := Option.map_eq_some_iff.1 hstep
        exact h.persist hi htodo ht
    · cases hstep
  | visit i now =>
    simp only [State.step] at hstep
    split at hstep
    · exact h.visit hstep
    · cases hstep
  | delete i ranked =>
    simp only [State.step] at hstep
    split at hstep
    · rename_i b hi
      exact h.delete hi hstep
    · cases hstep
  | mark i =>
    simp only [State.step] at hstep
    split at hstep
    · rename_i b hi
      split at hstep
      · cases hstep
      · obtain ⟨t, ht, rfl⟩ := Option.map_eq_some_iff.1 hstep
        exact h.mark hi ht
    · cases hstep
  | check i =>
    simp only [State.step] at hstep
    split at hstep
    · rename_i r hi
      have hholder : s.holder = some i := h.txs i _ hi
      split at hstep
      · rename_i hpasses
        cases hstep
        refine h.go (fun tx heq => ?_) (.of_not nofun)
        cases heq
        exact ⟨hholder, not_gap_of_passes h.toShared hpasses⟩
      · cases hstep
        exact h.finish h.answers
    · cases hstep
  | read i rows =>
    simp only [State.step] at hstep
    split at hstep
    · rename_i r hi
      obtain ⟨hholder, hgap⟩ : s.holder = some i ∧ ¬Gap s r.model := h.txs i _ hi
      split at hstep
      · rename_i hselects
        cases hstep
        refine h.go (fun tx heq => ?_) (.of_not nofun)
        cases heq
        exact ⟨hholder, honest_of_selects h.toShared hgap hselects.2⟩
      · cases hstep
    · cases hstep
  | commit i =>
    obtain ⟨tx, hi, hcommit⟩ := Option.bind_eq_some_iff.1 hstep
    exact h.commit hi hcommit
  | rollback i =>
    obtain ⟨tx, -, rfl⟩ := Option.map_eq_some_iff.1 hstep
    exact h.rollback i

theorem sound_history (u : Uuids) (server : Server) : (history u server).Inductive (State.Sound u) where
  init s hs := by
    obtain ⟨-, hlog, hcoverage, hdrafts, -, hholder, -, htxs, hcommitted, hanswers⟩ := hs
    refine { log := ⟨?_, ?_⟩, drafts := ?_, coverage := ?_, committed := ?_, locks := .inl hholder, answers := ?_
             txs := ?_, disjoint := ?_ }
    · rw [hlog]
      exact List.nodup_nil
    · rw [hlog]
      exact fun t ht => absurd ht List.not_mem_nil
    · intro model i c hc
      rw [hdrafts] at hc
      cases hc
    · intro model c hc
      rw [hcoverage] at hc
      cases hc
    · rw [hcommitted]
      exact fun e he => absurd he List.not_mem_nil
    · rw [hanswers]
      exact fun a ha => absurd ha List.not_mem_nil
    · intro i tx hi
      rw [htxs] at hi
      cases hi
    · intro i j w w' hi
      rw [htxs] at hi
      cases hi
  step _ _ _ h hstep := (h.step hstep).sound

/-- No step takes a gap back. -/
theorem gap_of_run {as : List Act} {model : String} (hs : s.Sound u) (hrun : (history u server).Run s as s')
    (hgap : Gap s model) : Gap s' model := by
  have hboth : s'.Sound u ∧ Gap s' model := by
    refine hrun.preserves (P := fun t => t.Sound u ∧ Gap t model) ?_ ⟨hs, hgap⟩
    intro t a t' ht hstep
    have hnext : Next u t t' := ht.1.step hstep
    exact ⟨hnext.sound, hnext.gap model ht.2⟩
  exact hboth.2

theorem not_passes_of_gap (h : Shared u s) {model : String} (hgap : Gap s model) (reading : Reading) :
    s.passes { model, reading } = false :=
  Bool.eq_false_iff.2 fun hpasses => not_gap_of_passes h hpasses hgap

end

/-! ## What a replay is good for -/

/-- In every reachable state: the replays and rebuilds that have succeeded read all events that were
committed by then; a check that passes now has them all in the log; and a model that lacks one of them
passes no check any more. -/
theorem replay_honest (u : Uuids) (server : Server) (s : State) (hs : (history u server).Reachable s) :
    (∀ a ∈ s.answers, a.Honest) ∧
      ∀ model,
        ((∃ reading, s.passes { model, reading } = true) → ∀ e ∈ s.committed, e.modelName = model → Stored s e) ∧
        ((∃ e ∈ s.committed, e.modelName = model ∧ ¬Stored s e) →
          ∀ as t, (history u server).Run s as t → ∀ reading, t.passes { model, reading } = false) := by
  have hsound := (sound_history u server).reachable hs
  refine ⟨hsound.answers, fun model => ⟨?_, ?_⟩⟩
  · rintro ⟨reading, hpasses⟩ e he rfl
    rcases hsound.committed e he with hstored | hgap
    · exact hstored
    · exact absurd hgap (not_gap_of_passes hsound.toShared hpasses)
  · rintro ⟨e, he, rfl, hmissing⟩ as t hrun reading
    have hgap : Gap s e.modelName := (hsound.committed e he).resolve_left hmissing
    have ht := (sound_history u server).reachable (hs.run hrun)
    exact not_passes_of_gap ht.toShared (gap_of_run hsound hrun hgap) reading

def noTables : State :=
  ⟨false, [], fun _ => none, fun _ => none, [], none, fun _ => none, fun _ => none, 0, [], []⟩

def noteCreated : ModelEvent :=
  { eventType := .created, modelName := "Note", data := [("id", .string "n")] }

/-- A note is created under the default policy and its history replayed. -/
theorem replay_honest_note : ∃ s : State, s.committed.length = 1 ∧ s.answers.length = 1 ∧ ∀ a ∈ s.answers, a.Honest := by
  let server : Server := { columnSize := fun _ => 1, textLe := fun _ _ => true }
  let stored : StampedEvent := { noteCreated with eventId := (default : Uuids).draw 0, timestamp := "t" }
  have hs : (history default server).Reachable _ :=
    ⟨noTables, [.deploy 0 {} ["Note"], .initModel 0, .begin 0 0 "Note" 5, .lock 0, .create 0 noteCreated "t",
        .persist 0, .commit 0, .replay 1 0 "Note" none, .lock 1, .check 1, .read 1 [stored.entry 5], .commit 1],
      ⟨rfl, rfl, fun _ => rfl, fun _ => rfl, rfl, rfl, fun _ => rfl, fun _ => rfl, rfl, rfl⟩,
      .cons rfl (.cons rfl (.cons rfl (.cons rfl (.cons rfl (.cons rfl (.cons rfl (.cons rfl (.cons rfl (.cons rfl
        (.cons rfl (.single rfl)))))))))))⟩
  exact ⟨_, rfl, rfl, (replay_honest default server _ hs).1⟩

end Atomo.History
