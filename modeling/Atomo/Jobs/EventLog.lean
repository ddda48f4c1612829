import Atomo.Jobs.Fencing

/-!
# The log of the job events

Each operation of the store changes the table and then sends its `Job` events, on its own. The log replays to
the table when no expired lease is reclaimed, which sends nothing, and the events of a job are sent in the order
of the commits (`replays`).
-/

namespace Atomo.Jobs

/-! ## Replaying events -/

/-- The job that an event is about. -/
def jobId (e : ModelEvent) : Option String :=
  (e.data.lookup "id").bind Json.asStr?

/-- The events about one job. -/
def about (id : String) (events : List ModelEvent) : List ModelEvent :=
  events.filter fun e => jobId e = some id

/-- Status and attempts of a job, as a reader of the events has them. -/
structure Replayed where
  status : Option Json
  attempts : Json
  deriving DecidableEq

def Replayed.apply (r : Replayed) (e : ModelEvent) : Replayed where
  status := (e.data.lookup "status").or r.status
  attempts := (e.data.lookup "attempts").getD r.attempts

def replay (events : List ModelEvent) : Replayed :=
  events.foldl Replayed.apply ⟨none, .number (.ofInt 0)⟩

/-- What the events of a job should replay to. -/
def Job.told (j : Job) : Replayed where
  status := some (.string j.status.text)
  attempts := .number (.ofInt j.attempts)

/-! ## The system -/

/-- The store, the events that the calls under way have still to send, in the order of their commits, and the events
sent. -/
structure EventLog where
  store : Store
  pending : List (Nat × ModelEvent)
  log : List ModelEvent

inductive LogAct where
  | call (i : Nat) (c : Call)
  | emit (i : Nat)

/-- A call up to its first event; `emit_enqueued` is called after the commit of `enqueue_tx` when that has created
the row. -/
def committed (u : Uuids) (s : Store) : Call → Option Outcome
  | .emitEnqueued _ _ _ => none
  | .enqueueTx a => some (enqueue s a)
  | c => some (run u s c)

def EventLog.step (u : Uuids) (s : EventLog) : LogAct → Option EventLog
  | .call i c =>
    if s.pending.any fun p => p.1 = i then none
    else (committed u s.store c).map fun o =>
      { s with store := o.store, pending := s.pending ++ o.events.map fun e => (i, e) }
  | .emit i =>
    (s.pending.find? fun p => p.1 = i).map fun p =>
      { s with pending := s.pending.eraseP fun p => p.1 = i, log := s.log ++ [p.2] }

/-- Any number of callers, each with one call at a time. -/
def eventLog (u : Uuids) : LabelledSystem EventLog LogAct where
  init s := s.store.rows = [] ∧ s.pending = [] ∧ s.log = []
  step s a t := s.step u a = some t

/-- No lease is reclaimed, and of the events about one job the one that was committed first is sent first. -/
def Tells (s : EventLog) : LogAct → Prop
  | .call _ .reclaimExpired => ∀ j ∈ s.store.rows, ¬j.expired s.store.now = true
  | .call _ _ => True
  | .emit i => ∀ p ∈ s.pending.find? (fun p => p.1 = i), ∀ q ∈ s.pending.takeWhile (fun q => ¬q.1 = i),
      jobId q.2 ≠ jobId p.2

/-! ## What one call tells -/

section

variable {u : Uuids} {s t : Store} {events : List ModelEvent} {id : String}

theorem jobId_emit {eventType : EventType} {extra : List (String × Json)} (h : extra.lookup "id" = none) :
    jobId (emit eventType id extra) = some id := by
  unfold jobId emit
  dsimp only
  rw [List.lookup_append, h]
  rfl

theorem about_append (id : String) (l l' : List ModelEvent) : about id (l ++ l') = about id l ++ about id l' :=
  List.filter_append ..

theorem about_eq_nil (h : ∀ e ∈ events, jobId e ≠ some id) : about id events = [] := by
  refine List.filter_eq_nil_iff.2 fun e he => ?_
  rw [decide_eq_true_iff]
  exact h e he

/-- Events about different jobs. -/
theorem about_map {α : Type} {key : α → String} {g : α → ModelEvent} (hg : ∀ a, jobId (g a) = some (key a))
    {l : List α} (hn : (l.map key).Nodup) {a : α} (ha : a ∈ l) : about (key a) (l.map g) = [g a] := by
  induction l with
  | nil => cases ha
  | cons b l ih =>
    rw [List.map_cons, List.nodup_cons] at hn
    have hrest : ∀ c, key c ∉ l.map key → about (key c) (l.map g) = [] := by
      intro c hc
      refine about_eq_nil fun e he => ?_
      obtain ⟨d, hd, rfl⟩ := List.mem_map.1 he
      rw [hg]
      intro hsame
      exact hc (Option.some.inj hsame ▸ List.mem_map_of_mem hd)
    unfold about at hrest ih ⊢
    rw [List.map_cons]
    cases List.mem_cons.1 ha with
    | inl heq =>
      subst heq
      rw [List.filter_cons_of_pos (by rw [hg, decide_eq_true_iff]), hrest a hn.1]
    | inr hmem =>
      have hne : key b ≠ key a := fun hsame => hn.1 (hsame ▸ List.mem_map_of_mem hmem)
      rw [List.filter_cons_of_neg, ih hn.2 hmem]
      rw [hg, decide_eq_true_iff]
      exact fun hsame => hne (Option.some.inj hsame)

/-- The events of a step lead from what was told of each row to what is to be told of it. -/
structure Follows (s t : Store) (events : List ModelEvent) : Prop where
  rows : ∀ j' ∈ t.rows, (∃ j ∈ s.rows, j.id = j'.id ∧ (about j'.id events).foldl Replayed.apply j.told = j'.told) ∨
    j'.id ∉ s.rows.map Job.id ∧ replay (about j'.id events) = j'.told
  ids : ∀ e ∈ events, ∃ j ∈ t.rows, jobId e = some j.id
  kept : s.rows.map Job.id ⊆ t.rows.map Job.id

theorem Follows.of_update {p : Job → Bool} {f : Job → Job} (hrows : t.rows = Table.update p f s.rows)
    (hid : ∀ j, (f j).id = j.id) (hhit : ∀ j ∈ s.rows, p j = true →
      (about j.id events).foldl Replayed.apply j.told = (f j).told)
    (hmiss : ∀ j ∈ s.rows, p j = false → about j.id events = [])
    (hids : ∀ e ∈ events, ∃ j ∈ s.rows, jobId e = some j.id) : Follows s t events := by
  have hkeys : t.rows.map Job.id = s.rows.map Job.id := by
    rw [hrows]
    exact Table.map_update hid
  refine ⟨fun j' hj' => ?_, fun e he => ?_, by rw [hkeys]; exact List.Subset.refl _⟩
  · left
    rw [hrows] at hj'
    cases Table.mem_update_cases hj' with
    | inl hmissed => exact ⟨j', hmissed.1, rfl, by rw [hmiss j' hmissed.1 hmissed.2]; rfl⟩
    | inr hit =>
      obtain ⟨j, hj, hp, rfl⟩ := hit
      exact ⟨j, hj, (hid j).symm, by rw [hid]; exact hhit j hj hp⟩
  · obtain ⟨j, hj, hjob⟩ := hids e he
    have hmem : j.id ∈ t.rows.map Job.id := by
      rw [hkeys]
      exact List.mem_map_of_mem hj
    obtain ⟨j', hj', hsame⟩ := List.mem_map.1 hmem
    exact ⟨j', hj', by rw [hjob, hsame]⟩

theorem Follows.of_rows_eq (hrows : t.rows = s.rows) : Follows s t [] :=
  .of_update (p := fun _ => false) (f := fun j => j) (by rw [hrows, Table.update_of_forall_not fun _ _ => rfl])
    (fun _ => rfl) (fun _ _ hp => by cases hp) (fun _ _ _ => rfl) fun _ he => by cases he

theorem enqueue_follows (s : Store) (n : NewJob) : Follows s (enqueue s n).store (enqueue s n).events := by
  rcases enqueueTx_cases s n with ⟨existing, h⟩ | h | ⟨hid, h⟩
  · unfold enqueue
    dsimp only
    rw [h]
    exact .of_rows_eq rfl
  · unfold enqueue
    dsimp only
    rw [h]
    exact .of_rows_eq rfl
  · have henqueue : enqueue s n =
        ⟨s.insert (n.row s.now) hid, .enqueued n.newId true, [emitEnqueued n.newId n.queue n.kind]⟩ := by
      unfold enqueue
      rw [h]
    have hjob : jobId (emitEnqueued n.newId n.queue n.kind) = some n.newId := jobId_emit rfl
    rw [henqueue]
    refine ⟨fun j' hj' => ?_, fun e he => ?_, ?_⟩
    · cases List.mem_append.1 hj' with
      | inl hold =>
        refine .inl ⟨j', hold, rfl, ?_⟩
        rw [about_eq_nil]
        · rfl
        · intro e he hsame
          rw [List.mem_singleton.1 he, hjob] at hsame
          have hold' : j'.id ∈ s.rows.map Job.id := List.mem_map_of_mem hold
          rw [← Option.some.inj hsame] at hold'
          exact hid hold'
      | inr hnew =>
        right
        rw [List.mem_singleton.1 hnew]
        refine ⟨hid, ?_⟩
        have hevents : about (n.row s.now).id [emitEnqueued n.newId n.queue n.kind] =
            [emitEnqueued n.newId n.queue n.kind] := by
          unfold about
          rw [List.filter_cons_of_pos (by rw [hjob]; exact decide_eq_true rfl), List.filter_nil]
        rw [hevents]
        rfl
    · rw [List.mem_singleton.1 he]
      exact ⟨n.row s.now, List.mem_append_right _ (List.mem_singleton_self _), hjob⟩
    · exact List.map_subset _ (List.subset_append_left _ _)

theorem lease_follows (u : Uuids) (s : Store) (scan queues : List String) (capacity visibilitySecs : Int) :
    Follows s (lease u s scan queues capacity visibilitySecs).store
      (lease u s scan queues capacity visibilitySecs).events := by
  rcases lease_cases u s scan queues capacity visibilitySecs with h | ⟨v, t, h, hrows, -⟩
  · rw [h]
    exact .of_rows_eq rfl
  · rw [h]
    generalize hpicked : picked s scan queues capacity = rows at *
    have hnodup : (rows.map Job.id).Nodup := hpicked ▸ picked_ids_nodup s scan queues capacity
    have hmem : ∀ j ∈ rows, j ∈ s.rows := fun j hj => (mem_picked (hpicked ▸ hj)).1
    set f := leaseRow u s.drawn (rows.map Job.id) v with hf
    let g : Job → ModelEvent := fun j => leasedEvent (LeasedJob.ofRow (f j) ((f j).leaseId.getD ""))
    have hid : ∀ j, (f j).id = j.id := leaseRow_id _ _ _ _
    have hg : ∀ j, jobId (g j) = some j.id := by
      intro j
      rw [← hid j]
      exact jobId_emit rfl
    have hevents : (((rows.map f).map fun j => LeasedJob.ofRow j (j.leaseId.getD "")).map leasedEvent) = rows.map g := by
      rw [List.map_map, List.map_map]
      rfl
    dsimp only
    rw [hevents]
    refine .of_update (p := fun j => decide (j.id ∈ rows.map Job.id)) (f := f) ?_ hid (fun j hj hp => ?_) (fun j _ hp => ?_)
      fun e he => ?_
    · rw [hrows]
      unfold Table.update
      refine List.map_congr_left fun j _ => ?_
      split_ifs with hp
      · rfl
      · rw [decide_eq_true_iff] at hp
        rw [hf]
        unfold leaseRow
        rw [if_neg hp]
    · rw [decide_eq_true_iff] at hp
      obtain ⟨j', hj', hsame⟩ := List.mem_map.1 hp
      have heq := Table.eq_of_key s.primaryKey (hmem j' hj') hj hsame
      subst heq
      rw [about_map hg hnodup hj']
      have hleased : f j' = j'.lease (u.draw (s.drawn + (rows.map Job.id).idxOf j'.id)) v := by
        rw [hf]
        unfold leaseRow
        rw [if_pos hp]
      simp only [g, hleased]
      rfl
    · refine about_eq_nil fun e he hsame => ?_
      obtain ⟨j', hj', rfl⟩ := List.mem_map.1 he
      rw [hg] at hsame
      exact of_decide_eq_false hp (Option.some.inj hsame ▸ List.mem_map_of_mem hj')
    · obtain ⟨j, hj, rfl⟩ := List.mem_map.1 he
      exact ⟨j, hmem j hj, hg j⟩

theorem heartbeat_follows (s : Store) (id leaseId : String) (visibilitySecs : Int) :
    Follows s (heartbeat s id leaseId visibilitySecs).store (heartbeat s id leaseId visibilitySecs).events := by
  unfold heartbeat
  split
  · exact .of_rows_eq rfl
  · exact .of_rows_eq rfl
  · exact .of_update rfl (fun _ => rfl) (fun _ _ _ => rfl) (fun _ _ _ => rfl) fun _ he => by cases he

/-- One event, about the row that an `UPDATE` has hit. -/
theorem Follows.of_single {p : Job → Bool} {f : Job → Job} {e : ModelEvent} (hrows : t.rows = Table.update p f s.rows)
    (hid : ∀ j, (f j).id = j.id) (hjob : jobId e = some id) {row : Job} (hrow : row ∈ s.rows) (hrowId : row.id = id)
    (hp : ∀ j ∈ s.rows, p j = true ↔ j.id = id) (htold : ∀ j : Job, j.told.apply e = (f j).told) :
    Follows s t [e] := by
  refine .of_update hrows hid (fun j hj hhit => ?_) (fun j hj hmiss => ?_) fun e' he => ?_
  · have hsame : about j.id [e] = [e] := by
      unfold about
      rw [List.filter_cons_of_pos, List.filter_nil]
      rw [hjob, (hp j hj).1 hhit]
      exact decide_eq_true rfl
    rw [hsame]
    exact htold j
  · refine about_eq_nil fun e' he hsame => ?_
    rw [List.mem_singleton.1 he, hjob] at hsame
    rw [(hp j hj).2 (Option.some.inj hsame).symm] at hmiss
    cases hmiss
  · rw [List.mem_singleton.1 he]
    exact ⟨row, hrow, by rw [hjob, hrowId]⟩

theorem complete_follows (s : Store) (id leaseId : String) (result : Json) :
    Follows s (complete s id leaseId result).store (complete s id leaseId result).events := by
  unfold complete
  dsimp only
  split_ifs with haffected
  · obtain ⟨row, hrow, hheld⟩ := Table.affected_pos.1 haffected
    have hrowId : row.id = id := (heldBy_iff.1 hheld).1
    refine .of_single rfl (fun _ => rfl) (jobId_emit rfl) hrow hrowId (fun j hj => ?_) fun _ => rfl
    constructor
    · intro hp
      exact (heldBy_iff.1 hp).1
    · intro hid
      rw [Table.eq_of_key s.primaryKey hj hrow (hid.trans hrowId.symm)]
      exact hheld
  · have hnone := Table.affected_eq_zero.1 (Nat.eq_zero_of_not_pos haffected)
    exact .of_rows_eq (Table.update_of_forall_not hnone)

theorem fail_follows (s : Store) (id leaseId error : String) (retryable : Bool) :
    Follows s (fail s id leaseId error retryable).store (fail s id leaseId error retryable).events := by
  unfold fail
  split
  · exact .of_rows_eq rfl
  · rename_i row hfound
    have hrow := List.mem_of_find?_eq_some hfound
    have hheld : row.heldBy id leaseId = true := List.find?_some hfound
    have hrowId : row.id = id := (heldBy_iff.1 hheld).1
    dsimp only
    split
    · split
      · exact .of_rows_eq rfl
      · exact .of_single rfl (fun _ => rfl) (jobId_emit rfl) hrow hrowId
          (fun _ _ => by rw [decide_eq_true_iff]) fun _ => rfl
    · exact .of_single rfl (fun _ => rfl) (jobId_emit rfl) hrow hrowId
        (fun _ _ => by rw [decide_eq_true_iff]) fun _ => rfl

theorem reclaim_follows (s : Store) (h : ∀ j ∈ s.rows, ¬j.expired s.now = true) :
    Follows s (reclaimExpired s).store (reclaimExpired s).events :=
  .of_rows_eq (Table.update_of_forall_not fun j hj => Bool.not_eq_true _ ▸ h j hj)

/-- Every call but a reclaim tells what it does to the rows. -/
theorem committed_follows {c : Call} {o : Outcome} (h : committed u s c = some o)
    (hreclaim : c = .reclaimExpired → ∀ j ∈ s.rows, ¬j.expired s.now = true) : Follows s o.store o.events := by
  cases c with
  | enqueue a =>
    cases h
    exact enqueue_follows s a
  | enqueueTx a =>
    cases h
    exact enqueue_follows s a
  | emitEnqueued id queue kind => cases h
  | lease scan queues capacity visibilitySecs =>
    cases h
    exact lease_follows u s scan queues capacity visibilitySecs
  | heartbeat id leaseId visibilitySecs =>
    cases h
    exact heartbeat_follows s id leaseId visibilitySecs
  | complete id leaseId result =>
    cases h
    exact complete_follows s id leaseId result
  | fail id leaseId error retryable =>
    cases h
    exact fail_follows s id leaseId error retryable
  | reclaimExpired =>
    cases h
    exact reclaim_follows s (hreclaim rfl)
  | tick micros =>
    cases h
    exact .of_rows_eq rfl

end

/-! ## The runs -/

/-- The events sent, and then those still to be sent, replay to the table. -/
structure Replays (s : EventLog) : Prop where
  rows : ∀ j ∈ s.store.rows, replay (about j.id (s.log ++ s.pending.map Prod.snd)) = j.told
  ids : ∀ e ∈ s.log ++ s.pending.map Prod.snd, ∃ j ∈ s.store.rows, jobId e = some j.id

section

variable {u : Uuids} {s : EventLog} {i : Nat}

theorem Replays.call (h : Replays s) {o : Outcome} (hfollows : Follows s.store o.store o.events) :
    Replays { s with store := o.store, pending := s.pending ++ o.events.map fun e => (i, e) } := by
  have hall : s.log ++ (s.pending ++ o.events.map fun e => (i, e)).map Prod.snd =
      (s.log ++ s.pending.map Prod.snd) ++ o.events := by
    rw [List.map_append, List.map_map, ← List.append_assoc]
    congr 1
    exact List.map_id _
  refine ⟨fun j' hj' => ?_, fun e he => ?_⟩
  · dsimp only
    rw [hall, about_append, replay, List.foldl_append]
    rcases hfollows.rows j' hj' with ⟨j, hj, hid, htold⟩ | ⟨hnew, htold⟩
    · have hbefore := h.rows j hj
      rw [replay, hid] at hbefore
      rw [hbefore]
      exact htold
    · have hnone : about j'.id (s.log ++ s.pending.map Prod.snd) = [] := by
        refine about_eq_nil fun e he hsame => ?_
        obtain ⟨j, hj, hjob⟩ := h.ids e he
        rw [hjob] at hsame
        exact hnew (Option.some.inj hsame ▸ List.mem_map_of_mem hj)
      rw [hnone]
      exact htold
  · dsimp only at he
    rw [hall] at he
    cases List.mem_append.1 he with
    | inl hold =>
      obtain ⟨j, hj, hjob⟩ := h.ids e hold
      obtain ⟨j', hj', hid⟩ := List.mem_map.1 (hfollows.kept (List.mem_map_of_mem hj))
      exact ⟨j', hj', by rw [hjob, hid]⟩
    | inr hnew => exact hfollows.ids e hnew

/-- An event that is the first of its job is sent without passing another one of it. -/
theorem about_emit {pending before after : List (Nat × ModelEvent)} {p : Nat × ModelEvent}
    (hpending : pending = before ++ p :: after) (hfirst : ∀ q ∈ before, jobId q.2 ≠ jobId p.2) (log : List ModelEvent)
    (id : String) : about id ((log ++ [p.2]) ++ (before ++ after).map Prod.snd) =
      about id (log ++ pending.map Prod.snd) := by
  have hcons : about id (p.2 :: after.map Prod.snd) = about id [p.2] ++ about id (after.map Prod.snd) :=
    about_append id [p.2] _
  rw [hpending, List.map_append, List.map_append, List.map_cons, about_append, about_append, about_append,
    about_append, about_append, hcons, List.append_assoc]
  by_cases hid : jobId p.2 = some id
  · have hnone : about id (before.map Prod.snd) = [] := by
      refine about_eq_nil fun e he hsame => ?_
      obtain ⟨q, hq, rfl⟩ := List.mem_map.1 he
      exact hfirst q hq (hsame.trans hid.symm)
    rw [hnone]
    rfl
  · have hnone : about id [p.2] = [] := about_eq_nil fun e he => by rwa [List.mem_singleton.1 he]
    rw [hnone]
    rfl

theorem takeWhile_of_first {before : List (Nat × ModelEvent)} (after : List (Nat × ModelEvent))
    {p : Nat × ModelEvent} (hp : p.1 = i) (hbefore : ∀ q ∈ before, ¬q.1 = i) :
    (before ++ p :: after).takeWhile (fun q => ¬q.1 = i) = before ∧
      (before ++ p :: after).eraseP (fun q => q.1 = i) = before ++ after := by
  induction before with
  | nil =>
    rw [List.nil_append, List.nil_append]
    refine ⟨?_, List.eraseP_cons_of_pos (decide_eq_true hp)⟩
    rw [List.takeWhile_cons_of_neg]
    simpa using hp
  | cons q before ih =>
    have hq : ¬q.1 = i := hbefore q List.mem_cons_self
    obtain ⟨htake, herase⟩ := ih fun r hr => hbefore r (List.mem_cons_of_mem q hr)
    constructor
    · rw [List.cons_append, List.takeWhile_cons_of_pos (by simpa using hq), htake]
    · rw [List.cons_append, List.eraseP_cons_of_neg (by simpa using hq), herase]
      rfl

/-- The event that has waited longest is always in order. -/
theorem tells_of_head (h : s.pending.head?.map Prod.fst = some i) : Tells s (.emit i) := by
  intro p _ q hq
  cases hpending : s.pending with
  | nil =>
    rw [hpending] at h
    cases h
  | cons r rest =>
    rw [hpending, List.head?_cons] at h
    have howner : r.1 = i := Option.some.inj h
    rw [hpending, List.takeWhile_cons_of_neg (by simpa using howner)] at hq
    cases hq

theorem Replays.emit (h : Replays s) (htells : Tells s (.emit i)) {p : Nat × ModelEvent}
    (hp : s.pending.find? (fun p => p.1 = i) = some p) :
    Replays { s with pending := s.pending.eraseP fun p => p.1 = i, log := s.log ++ [p.2] } := by
  obtain ⟨howner, before, after, hpending, hbefore⟩ := List.find?_eq_some_iff_append.1 hp
  have howner : p.1 = i := of_decide_eq_true howner
  have hbefore : ∀ q ∈ before, ¬q.1 = i := by
    intro q hq
    simpa using hbefore q hq
  obtain ⟨htake, herase⟩ := takeWhile_of_first after howner hbefore
  have hfirst : ∀ q ∈ before, jobId q.2 ≠ jobId p.2 := by
    intro q hq
    refine htells p hp q ?_
    rw [hpending, htake]
    exact hq
  have hsame := about_emit hpending hfirst s.log
  rw [← hpending] at herase
  refine ⟨fun j hj => ?_, fun e he => ?_⟩
  · dsimp only
    rw [herase, hsame]
    exact h.rows j hj
  · refine h.ids e ?_
    dsimp only at he
    rw [herase, List.map_append] at he
    rw [hpending, List.map_append, List.map_cons]
    simp only [List.mem_append, List.mem_cons, List.not_mem_nil, or_false] at he ⊢
    tauto

theorem replays_inductive (u : Uuids) : ((eventLog u).restrict Tells).Inductive Replays where
  init s hs := by
    obtain ⟨hrows, hpending, hlog⟩ := hs
    refine ⟨fun j hj => ?_, fun e he => ?_⟩
    · rw [hrows] at hj
      cases hj
    · rw [hlog, hpending] at he
      cases he
  step s a t h hstep := by
    obtain ⟨hstep, htells⟩ := hstep
    change s.step u a = some t at hstep
    unfold EventLog.step at hstep
    cases a with
    | call i c =>
      dsimp only at hstep
      split_ifs at hstep
      obtain ⟨o, hcommitted, rfl⟩ := Option.map_eq_some_iff.1 hstep
      refine h.call (committed_follows hcommitted fun hc => ?_)
      subst hc
      exact htells
    | emit i =>
      obtain ⟨p, hp, rfl⟩ := Option.map_eq_some_iff.1 hstep
      exact h.emit htells hp

/-- In every run in which no lease is reclaimed and the events of a job are sent in the order of the commits, the
events sent replay to the rows whenever no call is under way. -/
theorem replays (u : Uuids) (s : EventLog) (hs : ((eventLog u).restrict Tells).Reachable s) (hidle : s.pending = []) :
    ∀ j ∈ s.store.rows, replay (about j.id s.log) = j.told := by
  intro j hj
  have hrows := ((replays_inductive u).reachable hs).rows j hj
  rw [hidle, List.map_nil, List.append_nil] at hrows
  exact hrows

end

def emptyLog : EventLog :=
  ⟨emptyStore 0, [], []⟩

def sendJob : NewJob :=
  ⟨"j", "mail", "send", .null, none, 5, 0, none⟩

/-- A job is enqueued, leased and completed, by one call after the other. -/
theorem replays_completed : ∃ s : EventLog, s.log.length = 3 ∧ ∀ j ∈ s.store.rows, replay (about j.id s.log) = j.told := by
  have hs : ((eventLog default).restrict Tells).Reachable _ :=
    ⟨emptyLog, [.call 0 (.enqueue sendJob), .emit 0, .call 1 (.lease ["j"] ["mail"] 1 60), .emit 1,
        .call 1 (.complete "j" "" .null), .emit 1], ⟨rfl, rfl, rfl⟩,
      .cons ⟨rfl, trivial⟩ (.cons ⟨rfl, tells_of_head rfl⟩ (.cons ⟨rfl, trivial⟩ (.cons ⟨rfl, tells_of_head rfl⟩
        (.cons ⟨rfl, trivial⟩ (.single ⟨rfl, tells_of_head rfl⟩)))))⟩
  exact ⟨_, rfl, replays default _ hs rfl⟩

/-- A lease that is reclaimed leaves the log at the lease. -/
theorem reclaimed_untold : ¬∀ s, (eventLog default).Reachable s → s.pending = [] →
    ∀ j ∈ s.store.rows, replay (about j.id s.log) = j.told := by
  intro h
  have hs : (eventLog default).Reachable _ :=
    ⟨emptyLog, [.call 0 (.enqueue sendJob), .emit 0, .call 1 (.lease ["j"] ["mail"] 1 60), .emit 1,
        .call 2 (.tick 61000000), .call 2 .reclaimExpired], ⟨rfl, rfl, rfl⟩,
      .cons rfl (.cons rfl (.cons rfl (.cons rfl (.cons rfl (.single rfl)))))⟩
  have hrow := h _ hs rfl
  revert hrow
  decide

end Atomo.Jobs
