import Atomo.Jobs.Store
import Mathlib.Data.List.Dedup

/-!
# Lease fencing

Every interleaving of the store's calls is a run of `Jobs.system`. `Move` lists the ways one step can
rewrite a row, with the call that did it; the invariants and the fencing guarantees are read off it:
a stale token changes nothing, finished jobs are final, and a job reaches a second worker only
through a retry or an expired lease.
-/

namespace Atomo.Jobs

variable {u : Uuids} {s t : Store} {a : Label}

/-! ## What one step does to a row -/

def Label.leased (a : Label) : List LeasedJob :=
  match a.reply with
  | .leased jobs => jobs
  | _ => []

/-- `Move u s t a j j'`: the step `a` from `s` to `t` rewrites the row `j` to `j'`. -/
inductive Move (u : Uuids) (s t : Store) (a : Label) (j : Job) : Job → Prop where
  | keep : Move u s t a j j
  | lease (k : Nat) (visibleAt : Int) (fresh : s.drawn ≤ k ∧ k < t.drawn)
      (queued : j.status = .queued) (visible : j.visibleAt ≤ s.now)
      (handed : LeasedJob.ofRow (j.lease (u.draw k) visibleAt) (u.draw k) ∈ a.leased) :
      Move u s t a j (j.lease (u.draw k) visibleAt)
  | heartbeat (leaseId : String) (secs visibleAt : Int)
      (call : a.call = .heartbeat j.id leaseId secs) (reply : a.reply = .extended true)
      (held : j.heldBy j.id leaseId) : Move u s t a j (j.heartbeat visibleAt)
  | complete (leaseId : String) (result : Json) (call : a.call = .complete j.id leaseId result)
      (reply : a.reply = .completed true) (held : j.heldBy j.id leaseId) :
      Move u s t a j (j.complete result)
  | retry (leaseId error : String) (retryable : Bool) (delay : Nat) (visibleAt : Int)
      (call : a.call = .fail j.id leaseId error retryable)
      (reply : a.reply = .failed (some (.retry delay))) (held : j.heldBy j.id leaseId)
      (policy : decideOnFail (max j.attempts 0).toNat (max j.maxAttempts 0).toNat retryable
        defaultBaseBackoffSecs defaultCapBackoffSecs = .retry delay) :
      Move u s t a j (j.retry error visibleAt)
  | deadLetter (leaseId error : String) (retryable : Bool)
      (call : a.call = .fail j.id leaseId error retryable)
      (reply : a.reply = .failed (some .deadLetter)) (held : j.heldBy j.id leaseId) :
      Move u s t a j (j.deadLetter error)
  | reclaim (call : a.call = .reclaimExpired) (expired : j.expired s.now) :
      Move u s t a j j.reclaim

/-- What a step does: it rewrites each row by a `Move`, may append one fresh row, and what it hands
out are rows it leased under identifiers drawn in this step. -/
structure StepSpec (u : Uuids) (s t : Store) (a : Label) : Prop where
  rows : ∃ f new, t.rows = s.rows.map f ++ new ∧ (∀ j ∈ s.rows, Move u s t a j (f j)) ∧
    (new = [] ∨ ∃ n : NewJob, new = [n.row s.now] ∧ n.newId ∉ s.rows.map Job.id)
  drawn : s.drawn ≤ t.drawn
  leased : ∀ l ∈ a.leased, ∃ j ∈ s.rows, j.status = .queued ∧ j.visibleAt ≤ s.now ∧
    ∃ k visibleAt, s.drawn ≤ k ∧ k < t.drawn ∧ j.lease (u.draw k) visibleAt ∈ t.rows ∧
      l = LeasedJob.ofRow (j.lease (u.draw k) visibleAt) (u.draw k)
  ids : (a.leased.map LeasedJob.id).Nodup
  tokens : (a.leased.map LeasedJob.leaseId).Nodup

theorem heldBy_iff {id leaseId : String} {j : Job} :
    j.heldBy id leaseId = true ↔ j.id = id ∧ j.leaseId = some leaseId ∧ j.status = .leased := by
  simp [Job.heldBy]

theorem expired_iff {now : Int} {j : Job} :
    j.expired now = true ↔ j.status = .leased ∧ j.visibleAt < now := by
  simp [Job.expired]

theorem StepSpec.of_update {p : Job → Bool} {f : Job → Job} (hleased : a.leased = [])
    (hrows : t.rows = Table.update p f s.rows) (hdrawn : t.drawn = s.drawn)
    (hmove : ∀ j ∈ s.rows, p j = true → Move u s t a j (f j)) : StepSpec u s t a where
  rows := by
    refine ⟨fun j => if p j then f j else j, [], by simp [hrows, Table.update], ?_, .inl rfl⟩
    intro j hj
    cases hp : p j with
    | false =>
      simp only [hp, Bool.false_eq_true, if_false]
      exact .keep
    | true =>
      simp only [hp, if_true]
      exact hmove j hj hp
  drawn := hdrawn.ge
  leased := by simp [hleased]
  ids := by simp [hleased]
  tokens := by simp [hleased]

theorem StepSpec.of_rows_eq (hleased : a.leased = []) (hrows : t.rows = s.rows)
    (hdrawn : t.drawn = s.drawn) : StepSpec u s t a :=
  .of_update (p := fun _ => false) (f := id) hleased (by simp [hrows, Table.update]) hdrawn
    (by simp)

/-! ## One lemma for each operation -/

theorem enqueueTx_cases (s : Store) (n : NewJob) :
    (∃ id, enqueueTx s n = ⟨s, .enqueued id false, []⟩) ∨ enqueueTx s n = dbError s ∨
      ∃ h : (n.row s.now).id ∉ s.rows.map Job.id,
        enqueueTx s n = ⟨s.insert (n.row s.now) h, .enqueued n.newId true, []⟩ := by
  unfold enqueueTx
  split
  · exact .inl ⟨_, rfl⟩
  · split
    · next h => exact .inr (.inr ⟨h, rfl⟩)
    · exact .inr (.inl rfl)

theorem StepSpec.of_enqueueTx {n : NewJob} (hleased : a.leased = [])
    (ht : t = (enqueueTx s n).store) : StepSpec u s t a := by
  rcases enqueueTx_cases s n with ⟨id, h⟩ | h | ⟨hid, h⟩
  · rw [h] at ht
    subst ht
    exact .of_rows_eq hleased rfl rfl
  · rw [h] at ht
    subst ht
    exact .of_rows_eq hleased rfl rfl
  · rw [h] at ht
    subst ht
    refine ⟨⟨id, [n.row s.now], by simp [Store.insert], fun j _ => .keep, .inr ⟨n, rfl, hid⟩⟩,
      le_rfl, ?_, ?_, ?_⟩
    · simp [hleased]
    · simp [hleased]
    · simp [hleased]

theorem mem_picked {scan queues : List String} {capacity : Int} {j : Job}
    (h : j ∈ picked s scan queues capacity) :
    j ∈ s.rows ∧ j.queue ∈ queues ∧ j.status = .queued ∧ j.visibleAt ≤ s.now := by
  have h := List.mem_of_mem_take h
  rw [List.mem_insertionSort, List.mem_filter, List.mem_filterMap] at h
  obtain ⟨⟨id, -, hfind⟩, helig⟩ := h
  exact ⟨Table.mem_of_find hfind, by simpa [Job.eligible] using helig⟩

theorem picked_ids_nodup (s : Store) (scan queues : List String) (capacity : Int) :
    ((picked s scan queues capacity).map Job.id).Nodup := by
  have hcand : (scan.dedup.filterMap fun id => Table.find Job.id id s.rows).Nodup := by
    refine (List.nodup_dedup scan).filterMap fun i i' j hi hi' => ?_
    rw [← Table.key_of_find hi, ← Table.key_of_find hi']
  have hpicked : (picked s scan queues capacity).Nodup := by
    refine List.Nodup.sublist (List.take_sublist _ _) ?_
    exact (List.perm_insertionSort _ _).nodup_iff.2 (hcand.filter _)
  refine hpicked.map_on fun i hi j hj hij => ?_
  exact Table.eq_of_key s.primaryKey (mem_picked hi).1 (mem_picked hj).1 hij

/-- The event of `lease` about one of the jobs. -/
def leasedEvent (l : LeasedJob) : ModelEvent :=
  emit .custom l.id [("status", .string Status.leased.text), ("attempts", .number (.ofInt l.attempts))]

/-- `lease` fails and changes nothing, or leases the picked rows and has an event for each. -/
theorem lease_cases (u : Uuids) (s : Store) (scan queues : List String)
    (capacity visibilitySecs : Int) :
    lease u s scan queues capacity visibilitySecs = dbError s ∨
      ∃ visibleAt, let rows := picked s scan queues capacity
        let f := leaseRow u s.drawn (rows.map Job.id) visibleAt
        let jobs := (rows.map f).map fun j => LeasedJob.ofRow j (j.leaseId.getD "")
        ∃ t, lease u s scan queues capacity visibilitySecs = ⟨t, .leased jobs, jobs.map leasedEvent⟩ ∧
          t.rows = s.rows.map f ∧ t.drawn = s.drawn + rows.length := by
  unfold lease
  split
  · exact .inl rfl
  · simp only
    split
    · next heq =>
      refine .inr ⟨0, s, by simp [heq], ?_, by simp [heq]⟩
      have hid : leaseRow u s.drawn [] 0 = id := by
        funext j
        simp [leaseRow]
      simp [heq, hid]
    · exact .inl rfl
    · next visibleAt heq hplus =>
      split
      · exact .inl rfl
      · exact .inr ⟨visibleAt, _, rfl, by simp [Store.update, Table.update], rfl⟩

theorem StepSpec.of_lease {scan queues : List String} {capacity visibilitySecs : Int}
    (hstep : lease u s scan queues capacity visibilitySecs = ⟨t, a.reply, a.events⟩) :
    StepSpec u s t a := by
  rcases lease_cases u s scan queues capacity visibilitySecs with h | ⟨v, t', h, hrows, hdrawn⟩
  · rw [h] at hstep
    obtain ⟨rfl, hreply, -⟩ := Outcome.mk.inj hstep
    exact .of_rows_eq (by simp [Label.leased, ← hreply]) rfl rfl
  · rw [h] at hstep
    obtain ⟨rfl, hreply, -⟩ := Outcome.mk.inj hstep
    have hnodup := picked_ids_nodup s scan queues capacity
    generalize hpicked : picked s scan queues capacity = rows at *
    have hmem : ∀ j ∈ rows, j ∈ s.rows ∧ j.queue ∈ queues ∧ j.status = .queued ∧
        j.visibleAt ≤ s.now := fun j hj => mem_picked (hpicked ▸ hj)
    -- the identifier drawn for a picked row
    let k : Job → Nat := fun j => s.drawn + (rows.map Job.id).idxOf j.id
    have hf : ∀ j ∈ rows, leaseRow u s.drawn (rows.map Job.id) v j = j.lease (u.draw (k j)) v := by
      intro j hj
      simp [leaseRow, k, List.mem_map_of_mem (f := Job.id) hj]
    have hleased : a.leased = rows.map fun j =>
        LeasedJob.ofRow (j.lease (u.draw (k j)) v) (u.draw (k j)) := by
      rw [Label.leased, ← hreply]
      simp only [List.map_map]
      refine List.map_congr_left fun j hj => ?_
      simp [hf j hj, Job.lease]
    have hk : ∀ j ∈ rows, s.drawn ≤ k j ∧ k j < t'.drawn := by
      intro j hj
      have := List.idxOf_lt_length_of_mem (List.mem_map_of_mem (f := Job.id) hj)
      rw [List.length_map] at this
      exact ⟨Nat.le_add_right _ _, by rw [hdrawn]; exact Nat.add_lt_add_left this _⟩
    refine ⟨⟨_, [], by rw [hrows, List.append_nil], ?_, .inl rfl⟩, ?_, ?_, ?_, ?_⟩
    · intro j hj
      by_cases hid : j.id ∈ rows.map Job.id
      · obtain ⟨j', hj', hid'⟩ := List.mem_map.1 hid
        obtain rfl : j' = j := Table.eq_of_key s.primaryKey (hmem j' hj').1 hj hid'
        rw [hf j' hj']
        refine .lease _ _ (hk j' hj') (hmem j' hj').2.2.1 (hmem j' hj').2.2.2 ?_
        rw [hleased]
        exact List.mem_map_of_mem (f := fun j =>
          LeasedJob.ofRow (j.lease (u.draw (k j)) v) (u.draw (k j))) hj'
      · simpa [leaseRow, hid] using Move.keep
    · rw [hdrawn]
      exact Nat.le_add_right _ _
    · intro l hl
      rw [hleased] at hl
      obtain ⟨j, hj, rfl⟩ := List.mem_map.1 hl
      refine ⟨j, (hmem j hj).1, (hmem j hj).2.2.1, (hmem j hj).2.2.2, k j, v, (hk j hj).1,
        (hk j hj).2, ?_, rfl⟩
      rw [hrows, ← hf j hj]
      exact List.mem_map_of_mem (hmem j hj).1
    · rw [hleased, List.map_map]
      exact hnodup
    · rw [hleased, List.map_map]
      refine (List.Nodup.of_map _ hnodup).map_on fun i hi j hj hij => ?_
      have hdraw : k i = k j := u.injective hij
      have hidx := Nat.add_left_cancel hdraw
      have hid := (List.idxOf_inj (List.mem_map_of_mem (f := Job.id) hi)).1 hidx
      exact Table.eq_of_key s.primaryKey (hmem i hi).1 (hmem j hj).1 hid

theorem StepSpec.of_heartbeat {id leaseId : String} {secs : Int}
    (hcall : a.call = .heartbeat id leaseId secs)
    (hstep : heartbeat s id leaseId secs = ⟨t, a.reply, a.events⟩) : StepSpec u s t a := by
  unfold heartbeat at hstep
  split at hstep
  · obtain ⟨rfl, hreply, -⟩ := Outcome.mk.inj hstep
    exact .of_rows_eq (by simp [Label.leased, ← hreply]) rfl rfl
  · obtain ⟨rfl, hreply, -⟩ := Outcome.mk.inj hstep
    exact .of_rows_eq (by simp [Label.leased, ← hreply]) rfl rfl
  · next v _ _ =>
    obtain ⟨rfl, hreply, -⟩ := Outcome.mk.inj hstep
    refine .of_update (p := Job.heldBy id leaseId) (f := (·.heartbeat v))
      (by simp [Label.leased, ← hreply]) rfl rfl ?_
    intro j _ hj
    obtain ⟨rfl, -, -⟩ := heldBy_iff.1 hj
    exact .heartbeat leaseId secs v hcall hreply.symm hj

theorem StepSpec.of_complete {id leaseId : String} {result : Json}
    (hcall : a.call = .complete id leaseId result)
    (hstep : complete s id leaseId result = ⟨t, a.reply, a.events⟩) : StepSpec u s t a := by
  unfold complete at hstep
  simp only at hstep
  split at hstep
  · obtain ⟨rfl, hreply, -⟩ := Outcome.mk.inj hstep
    refine .of_update (p := Job.heldBy id leaseId) (f := (·.complete result))
      (by simp [Label.leased, ← hreply]) rfl rfl ?_
    intro j _ hj
    obtain ⟨rfl, -, -⟩ := heldBy_iff.1 hj
    exact .complete leaseId result hcall hreply.symm hj
  · next hnone =>
    obtain ⟨rfl, hreply, -⟩ := Outcome.mk.inj hstep
    have hno := Table.affected_eq_zero.1 (Nat.eq_zero_of_not_pos hnone)
    exact .of_rows_eq (by simp [Label.leased, ← hreply]) (Table.update_of_forall_not hno) rfl

theorem StepSpec.of_fail {id leaseId error : String} {retryable : Bool}
    (hcall : a.call = .fail id leaseId error retryable)
    (hstep : fail s id leaseId error retryable = ⟨t, a.reply, a.events⟩) : StepSpec u s t a := by
  unfold fail at hstep
  split at hstep
  · obtain ⟨rfl, hreply, -⟩ := Outcome.mk.inj hstep
    exact .of_rows_eq (by simp [Label.leased, ← hreply]) rfl rfl
  · next row hrow =>
    have hheld : row.heldBy id leaseId = true := by simpa using List.find?_some hrow
    have hid : row.id = id := (heldBy_iff.1 hheld).1
    -- the primary key makes the second statement's `WHERE id = $1` hit the row that was read
    have honly : ∀ j ∈ s.rows, decide (j.id = id) = true → j = row := by
      intro j hj hjid
      exact Table.eq_of_key s.primaryKey hj (List.mem_of_find?_eq_some hrow)
        ((of_decide_eq_true hjid).trans hid.symm)
    generalize hdecide : decideOnFail (max row.attempts 0).toNat (max row.maxAttempts 0).toNat
      retryable defaultBaseBackoffSecs defaultCapBackoffSecs = outcome at hstep
    cases outcome with
    | retry delay =>
      simp only at hstep
      split at hstep
      · obtain ⟨rfl, hreply, -⟩ := Outcome.mk.inj hstep
        exact .of_rows_eq (by simp [Label.leased, ← hreply]) rfl rfl
      · next v _ =>
        obtain ⟨rfl, hreply, -⟩ := Outcome.mk.inj hstep
        refine .of_update (p := fun j => decide (j.id = id)) (f := (·.retry error v))
          (by simp [Label.leased, ← hreply]) rfl rfl ?_
        intro j hj hjid
        obtain rfl := honly j hj hjid
        subst hid
        exact .retry leaseId error retryable delay v hcall hreply.symm hheld hdecide
    | deadLetter =>
      obtain ⟨rfl, hreply, -⟩ := Outcome.mk.inj hstep
      refine .of_update (p := fun j => decide (j.id = id)) (f := (·.deadLetter error))
        (by simp [Label.leased, ← hreply]) rfl rfl ?_
      intro j hj hjid
      obtain rfl := honly j hj hjid
      subst hid
      exact .deadLetter leaseId error retryable hcall hreply.symm hheld

theorem StepSpec.of_reclaimExpired (hcall : a.call = .reclaimExpired)
    (hstep : reclaimExpired s = ⟨t, a.reply, a.events⟩) : StepSpec u s t a := by
  obtain ⟨rfl, hreply, -⟩ := Outcome.mk.inj hstep
  exact .of_update (p := Job.expired s.now) (f := Job.reclaim)
    (by simp [Label.leased, ← hreply]) rfl rfl fun j _ hj => .reclaim hcall hj

theorem enqueue_store_reply (s : Store) (n : NewJob) :
    (enqueue s n).store = (enqueueTx s n).store ∧ (enqueue s n).reply = (enqueueTx s n).reply := by
  unfold enqueue
  simp only
  split
  · next heq => exact ⟨rfl, rfl⟩
  · exact ⟨rfl, rfl⟩

theorem enqueueTx_leased {n : NewJob} (h : a.reply = (enqueueTx s n).reply) : a.leased = [] := by
  rw [Label.leased, h]
  rcases enqueueTx_cases s n with ⟨id, h'⟩ | h' | ⟨hid, h'⟩
  · rw [h']
  · rw [h', dbError]
  · rw [h']

/-- Every step of the system meets its specification. -/
theorem stepSpec (h : (system u).step s a t) : StepSpec u s t a := by
  have h : run u s a.call = ⟨t, a.reply, a.events⟩ := h
  have hstore : t = (run u s a.call).store := (congrArg Outcome.store h).symm
  have hreply : a.reply = (run u s a.call).reply := (congrArg Outcome.reply h).symm
  cases hcall : a.call with
  | enqueue n =>
    rw [hcall] at hstore hreply
    obtain ⟨hs, hr⟩ := enqueue_store_reply s n
    exact .of_enqueueTx (enqueueTx_leased (hreply.trans hr)) (hstore.trans hs)
  | enqueueTx n =>
    rw [hcall] at hstore hreply
    exact .of_enqueueTx (enqueueTx_leased hreply) hstore
  | emitEnqueued id queue kind =>
    rw [hcall] at hstore hreply
    subst hstore
    exact .of_rows_eq (by rw [Label.leased, hreply]; rfl) rfl rfl
  | lease scan queues capacity secs =>
    rw [hcall] at h
    exact .of_lease h
  | heartbeat id leaseId secs =>
    rw [hcall] at h
    exact .of_heartbeat hcall h
  | complete id leaseId result =>
    rw [hcall] at h
    exact .of_complete hcall h
  | fail id leaseId error retryable =>
    rw [hcall] at h
    exact .of_fail hcall h
  | reclaimExpired =>
    rw [hcall] at h
    exact .of_reclaimExpired hcall h
  | tick micros =>
    rw [hcall] at hstore hreply
    subst hstore
    exact .of_rows_eq (by rw [Label.leased, hreply]; rfl) rfl rfl

/-! ## Rows across a step -/

theorem Move.id_eq {j j' : Job} (h : Move u s t a j j') : j'.id = j.id := by
  cases h <;> rfl

theorem StepSpec.exists_move (h : StepSpec u s t a) {j : Job} (hj : j ∈ s.rows) :
    ∃ j' ∈ t.rows, Move u s t a j j' := by
  obtain ⟨f, new, hrows, hmove, -⟩ := h.rows
  exact ⟨f j, by rw [hrows]; exact List.mem_append_left _ (List.mem_map_of_mem hj), hmove j hj⟩

/-- Every row after a step is a moved row or the row an enqueue inserted. -/
theorem StepSpec.cases_mem (h : StepSpec u s t a) {j' : Job} (hj' : j' ∈ t.rows) :
    (∃ j ∈ s.rows, Move u s t a j j') ∨
      ∃ n : NewJob, j' = n.row s.now ∧ n.newId ∉ s.rows.map Job.id := by
  obtain ⟨f, new, hrows, hmove, hnew⟩ := h.rows
  rw [hrows, List.mem_append] at hj'
  rcases hj' with hj' | hj'
  · obtain ⟨j, hj, rfl⟩ := List.mem_map.1 hj'
    exact .inl ⟨j, hj, hmove j hj⟩
  · rcases hnew with rfl | ⟨n, rfl, hn⟩
    · exact absurd hj' (List.not_mem_nil)
    · exact .inr ⟨n, List.mem_singleton.1 hj', hn⟩

/-! ## Invariants -/

/-- `lease_id` is set exactly while a job is leased, and only to an identifier already drawn. -/
structure Leases (u : Uuids) (s : Store) : Prop where
  leaseId_iff : ∀ j ∈ s.rows, j.leaseId.isSome ↔ j.status = .leased
  drawn : ∀ j ∈ s.rows, ∀ l, j.leaseId = some l → ∃ k < s.drawn, l = u.draw k

theorem leases_inductive (u : Uuids) : (system u).Inductive (Leases u) where
  init s hs := by
    have hs : s.rows = [] := hs
    exact ⟨by simp [hs], by simp [hs]⟩
  step s a t hs hstep := by
    have spec := stepSpec hstep
    have hlt : ∀ {l}, (∃ k < s.drawn, l = u.draw k) → ∃ k < t.drawn, l = u.draw k :=
      fun ⟨k, hk, hl⟩ => ⟨k, hk.trans_le spec.drawn, hl⟩
    refine ⟨fun j' hj' => ?_, fun j' hj' l hl => ?_⟩
    · rcases spec.cases_mem hj' with ⟨j, hj, hmove⟩ | ⟨n, rfl, -⟩
      · cases hmove with
        | keep => exact hs.leaseId_iff _ hj
        | heartbeat => exact hs.leaseId_iff j hj
        | lease => simp [Job.lease]
        | complete => simp [Job.complete]
        | retry => simp [Job.retry]
        | deadLetter => simp [Job.deadLetter]
        | reclaim => simp [Job.reclaim]
      · simp [NewJob.row]
    · rcases spec.cases_mem hj' with ⟨j, hj, hmove⟩ | ⟨n, rfl, -⟩
      · cases hmove with
        | keep => exact hlt (hs.drawn _ hj l hl)
        | heartbeat => exact hlt (hs.drawn j hj l hl)
        | lease k _ fresh => exact ⟨k, fresh.2, (Option.some.inj hl).symm⟩
        | complete => cases hl
        | retry => cases hl
        | deadLetter => cases hl
        | reclaim => cases hl
      · cases hl

/-! ## Stale tokens -/

/-- The job and the lease token a call carries, with the reply that rejects it. -/
def Call.lease? : Call → Option (String × String × Reply)
  | .heartbeat id leaseId _ => some (id, leaseId, .extended false)
  | .complete id leaseId _ => some (id, leaseId, .completed false)
  | .fail id leaseId _ _ => some (id, leaseId, .failed none)
  | _ => none

/-- A call under a token that is not the job's current one changes nothing and is rejected. -/
theorem run_of_stale {call : Call} {id leaseId : String} {reply : Reply}
    (hcall : call.lease? = some (id, leaseId, reply))
    (hstale : ∀ j ∈ s.rows, j.id = id → j.leaseId ≠ some leaseId) :
    run u s call = ⟨s, reply, []⟩ := by
  have hnone : ∀ j ∈ s.rows, j.heldBy id leaseId = false := by
    intro j hj
    cases hheld : j.heldBy id leaseId with
    | false => rfl
    | true =>
      obtain ⟨hid, hl, -⟩ := heldBy_iff.1 hheld
      exact absurd hl (hstale j hj hid)
  have hfind : s.rows.find? (Job.heldBy id leaseId) = none := by
    simpa [List.find?_eq_none] using hnone
  cases call with
  | heartbeat =>
    obtain ⟨rfl, rfl, rfl⟩ : _ ∧ _ ∧ _ := by simpa [Call.lease?] using hcall
    simp [run, heartbeat, hfind]
  | complete _ _ result =>
    obtain ⟨rfl, rfl, rfl⟩ : _ ∧ _ ∧ _ := by simpa [Call.lease?] using hcall
    have hkeep := Store.update_of_forall_not (f := (·.complete result)) (fun _ => rfl) hnone
    simp [run, complete, Table.affected_eq_zero.2 hnone, hkeep]
  | fail =>
    obtain ⟨rfl, rfl, rfl⟩ : _ ∧ _ ∧ _ := by simpa [Call.lease?] using hcall
    simp [run, fail, hfind]
  | _ => simp [Call.lease?] at hcall

theorem drawn_mono {as : List Label} (r : (system u).Run s as t) : s.drawn ≤ t.drawn :=
  r.preserves (P := fun v => s.drawn ≤ v.drawn)
    (fun _ _ _ h hstep => h.trans (stepSpec hstep).drawn) le_rfl

/-- A token that was drawn and is no job's current token never becomes current again. -/
theorem stale_forever {as : List Label} {k : Nat} (r : (system u).Run s as t) (hk : k < s.drawn)
    (hstale : ∀ j ∈ s.rows, j.leaseId ≠ some (u.draw k)) :
    ∀ j ∈ t.rows, j.leaseId ≠ some (u.draw k) := by
  refine (r.preserves (P := fun v => k < v.drawn ∧ ∀ j ∈ v.rows, j.leaseId ≠ some (u.draw k))
    ?_ ⟨hk, hstale⟩).2
  rintro v b w ⟨hk, hstale⟩ hstep
  have spec := stepSpec hstep
  refine ⟨hk.trans_le spec.drawn, fun j' hj' hl => ?_⟩
  rcases spec.cases_mem hj' with ⟨j, hj, hmove⟩ | ⟨n, rfl, -⟩
  · cases hmove with
    | keep => exact hstale _ hj hl
    | heartbeat => exact hstale j hj hl
    | lease k' _ fresh =>
      have hk' : k' = k := u.injective (Option.some.inj hl)
      exact absurd fresh.1 (hk' ▸ Nat.not_le.2 hk)
    | complete => cases hl
    | retry => cases hl
    | deadLetter => cases hl
    | reclaim => cases hl
  · cases hl

theorem drawn_of_leased {as : List Label} (r : (system u).Run s as t) {b : Label} (hb : b ∈ as)
    {l : LeasedJob} (hl : l ∈ b.leased) : ∃ k < t.drawn, l.leaseId = u.draw k := by
  induction r with
  | nil => exact absurd hb (List.not_mem_nil)
  | cons hstep r ih =>
    rcases List.mem_cons.1 hb with rfl | hb
    · obtain ⟨j, -, -, -, k, v, -, hk, -, rfl⟩ := (stepSpec hstep).leased l hl
      exact ⟨k, hk.trans_le (drawn_mono r), rfl⟩
    · exact ih hb

/-! ## Finished jobs -/

theorem Move.eq_of_terminal {j j' : Job} (h : Move u s t a j j') (hj : j.status.Terminal) :
    j' = j := by
  cases h with
  | keep => rfl
  | lease _ _ _ queued => simp [queued, Status.Terminal] at hj
  | heartbeat _ _ _ _ _ held => simp [(heldBy_iff.1 held).2.2, Status.Terminal] at hj
  | complete _ _ _ _ held => simp [(heldBy_iff.1 held).2.2, Status.Terminal] at hj
  | retry _ _ _ _ _ _ _ held => simp [(heldBy_iff.1 held).2.2, Status.Terminal] at hj
  | deadLetter _ _ _ _ _ held => simp [(heldBy_iff.1 held).2.2, Status.Terminal] at hj
  | reclaim _ expired => simp [(expired_iff.1 expired).1, Status.Terminal] at hj

theorem mem_of_terminal {as : List Label} (r : (system u).Run s as t) {j : Job} (hj : j ∈ s.rows)
    (hterminal : j.status.Terminal) : j ∈ t.rows := by
  refine r.preserves (P := fun v => j ∈ v.rows) (fun v b w hv hstep => ?_) hj
  obtain ⟨j', hj', hmove⟩ := (stepSpec hstep).exists_move hv
  rwa [hmove.eq_of_terminal hterminal] at hj'

def Label.completes (id : String) (a : Label) : Bool :=
  match a.call, a.reply with
  | .complete id' _ _, .completed true => id' = id
  | _, _ => false

theorem completes_iff {id : String} :
    a.completes id = true ↔
      ∃ leaseId result, a.call = .complete id leaseId result ∧ a.reply = .completed true := by
  unfold Label.completes
  split
  · next id' leaseId result hcall hreply => simp [hcall, hreply]
  · next hno =>
    simp only [Bool.false_eq_true, false_iff, not_exists, not_and]
    exact fun leaseId result hcall hreply => hno _ _ _ hcall hreply

/-- A step that writes a result finds the job leased and leaves it succeeded. -/
theorem leased_of_completes {id : String} (hstep : (system u).step s a t)
    (h : a.completes id = true) : ∃ j ∈ s.rows, j.id = id ∧ j.status = .leased ∧
      ∃ j' ∈ t.rows, j'.id = id ∧ j'.status = .succeeded := by
  obtain ⟨leaseId, result, hcall, hreply⟩ := completes_iff.1 h
  have hrun : complete s id leaseId result = ⟨t, a.reply, a.events⟩ := by
    have hrun : run u s a.call = ⟨t, a.reply, a.events⟩ := hstep
    rwa [hcall] at hrun
  unfold complete at hrun
  simp only [hreply] at hrun
  split at hrun
  · next hpos =>
    obtain ⟨rfl, -⟩ := Outcome.mk.inj hrun
    obtain ⟨j, hj, hheld⟩ := Table.affected_pos.1 hpos
    obtain ⟨hid, -, hstatus⟩ := heldBy_iff.1 hheld
    exact ⟨j, hj, hid, hstatus, j.complete result, Table.mem_update_of hj hheld, hid, rfl⟩
  · simp at hrun

/-- A run that starts with a finished job does not write its result. -/
theorem countP_completes_eq_zero {as : List Label} (r : (system u).Run s as t) {j : Job}
    (hj : j ∈ s.rows) (hterminal : j.status.Terminal) : as.countP (Label.completes j.id) = 0 := by
  induction r with
  | nil => rfl
  | cons hstep r ih =>
    have hnext : j ∈ _ := mem_of_terminal (.single hstep) hj hterminal
    rw [List.countP_cons, ih hnext]
    split
    · next hcompletes =>
      obtain ⟨j', hj', hid, hleased, -⟩ := leased_of_completes hstep hcompletes
      rw [Table.eq_of_key (Store.primaryKey _) hj' hj hid] at hleased
      simp [hleased, Status.Terminal] at hterminal
    · rfl

/-- A run writes the result of a job at most once. -/
theorem countP_completes_le_one {as : List Label} (r : (system u).Run s as t) (id : String) :
    as.countP (Label.completes id) ≤ 1 := by
  induction r with
  | nil => simp
  | cons hstep r ih =>
    rw [List.countP_cons]
    split
    · next hcompletes =>
      obtain ⟨-, -, -, -, j', hj', rfl, hsucceeded⟩ := leased_of_completes hstep hcompletes
      rw [countP_completes_eq_zero r hj' (.inl hsucceeded)]
    · exact ih

/-! ## Hand-outs -/

/-- The step returned job `id` to the queue: a failed attempt is retried, or an expired lease is
reclaimed. -/
def Label.requeues (s : Store) (id : String) (a : Label) : Prop :=
  (∃ leaseId error retryable delay, a.call = .fail id leaseId error retryable ∧
    a.reply = .failed (some (.retry delay))) ∨
  a.call = .reclaimExpired ∧ ∃ j ∈ s.rows, j.id = id ∧ j.expired s.now = true

theorem Move.requeues {j j' : Job} (h : Move u s t a j j') (hj : j ∈ s.rows)
    (hne : j.status ≠ .queued) (hqueued : j'.status = .queued) : a.requeues s j.id := by
  cases h with
  | keep => exact absurd hqueued hne
  | lease => cases hqueued
  | heartbeat => exact absurd hqueued hne
  | complete => cases hqueued
  | retry leaseId error retryable delay _ call reply =>
    exact .inl ⟨leaseId, error, retryable, delay, call, reply⟩
  | deadLetter => cases hqueued
  | reclaim call expired => exact .inr ⟨call, j, hj, rfl, expired⟩

/-- Between two hand-outs of one job lies a step that returned it to the queue. -/
theorem exists_requeues {mid : List Label} {b : Label} {l l' : LeasedJob}
    (r : (system u).Run s (a :: mid ++ [b]) t) (hl : l ∈ a.leased) (hl' : l' ∈ b.leased)
    (hid : l.id = l'.id) : ∃ pre x post v w, mid = pre ++ x :: post ∧
      (system u).Run s (a :: pre) v ∧ (system u).step v x w ∧ x.requeues v l.id := by
  obtain ⟨s₂, r₁, r₂⟩ := LabelledSystem.run_append_iff.1 r
  obtain ⟨s₁, hstep, rmid⟩ := LabelledSystem.run_cons_iff.1 r₁
  obtain ⟨_, hlast, -⟩ := LabelledSystem.run_cons_iff.1 r₂
  obtain ⟨j, -, -, -, k, v, -, -, hj₁, rfl⟩ := (stepSpec hstep).leased l hl
  obtain ⟨j₂, hj₂, hqueued, -, k', v', -, -, -, rfl⟩ := (stepSpec hlast).leased l' hl'
  have hid : j.id = j₂.id := hid
  -- the job leaves the states other than `queued` somewhere between the two leases
  let P : Store → Prop := fun w => ∃ i ∈ w.rows, i.id = j.id ∧ i.status ≠ .queued
  have hP₁ : P s₁ := ⟨_, hj₁, rfl, by simp [Job.lease]⟩
  have hP₂ : ¬ P s₂ := by
    rintro ⟨i, hi, hij, hne⟩
    rw [Table.eq_of_key s₂.primaryKey hi hj₂ (hij.trans hid)] at hne
    exact hne hqueued
  obtain ⟨pre, x, post, w, w', rfl, rpre, hx, -, ⟨i, hi, hij, hne⟩, hP'⟩ :=
    rmid.exists_leaving (P := P) hP₁ hP₂
  refine ⟨pre, x, post, w, w', rfl, .cons hstep rpre, hx, ?_⟩
  obtain ⟨i', hi', hmove⟩ := (stepSpec hx).exists_move hi
  have hqueued' : i'.status = .queued := by
    by_contra hne'
    exact hP' ⟨i', hi', hmove.id_eq.trans hij, hne'⟩
  have := hmove.requeues hi hne hqueued'
  rwa [hij] at this

/-! ## The guarantee -/

/-- What the lease protocol promises from the store `s` on. -/
structure Fenced (u : Uuids) (s : Store) : Prop where
  /-- A call under a token that is not the job's current one changes nothing and says so. -/
  stale : ∀ call id leaseId reply, call.lease? = some (id, leaseId, reply) →
    (∀ j ∈ s.rows, j.id = id → j.leaseId ≠ some leaseId) → run u s call = ⟨s, reply, []⟩
  /-- A token handed out and no longer current stays stale. -/
  zombie : ∀ as b l t bs v, (system u).Run s as t → b ∈ as → l ∈ b.leased →
    (∀ j ∈ t.rows, j.leaseId ≠ some l.leaseId) → (system u).Run t bs v →
    ∀ j ∈ v.rows, j.leaseId ≠ some l.leaseId
  /-- A succeeded or dead job never changes again. -/
  final : ∀ j ∈ s.rows, j.status.Terminal → ∀ as t, (system u).Run s as t → j ∈ t.rows
  /-- The result of a job is written at most once. -/
  result_once : ∀ id as t, (system u).Run s as t → as.countP (Label.completes id) ≤ 1
  /-- A lease hands out distinct jobs that were queued and visible. -/
  lease : ∀ a t, (system u).step s a t → (a.leased.map LeasedJob.id).Nodup ∧
    ∀ l ∈ a.leased, ∃ j ∈ s.rows, j.id = l.id ∧ j.status = .queued ∧ j.visibleAt ≤ s.now
  /-- Two hand-outs of one job have a retry or a reclaim of it between them. -/
  exclusive : ∀ a mid b t l l', (system u).Run s (a :: mid ++ [b]) t → l ∈ a.leased →
    l' ∈ b.leased → l.id = l'.id → ∃ pre x post v w, mid = pre ++ x :: post ∧
      (system u).Run s (a :: pre) v ∧ (system u).step v x w ∧ x.requeues v l.id
  /-- A job has a lease token exactly while it is leased. -/
  leaseId_iff : ∀ j ∈ s.rows, j.leaseId.isSome ↔ j.status = .leased

/-- **Lease fencing.** In every state any interleaving of calls reaches, every guarantee of the
lease protocol holds, over that state and over all its continuations. -/
theorem lease_fencing (h : (system u).Reachable s) : Fenced u s where
  stale _ _ _ _ hcall hstale := run_of_stale hcall hstale
  zombie as b l t bs v r hb hl hstale r' := by
    obtain ⟨k, hk, hdraw⟩ := drawn_of_leased r hb hl
    rw [hdraw] at hstale ⊢
    exact stale_forever r' hk hstale
  final _ hj hterminal _ _ r := mem_of_terminal r hj hterminal
  result_once id _ _ r := countP_completes_le_one r id
  lease a t hstep := by
    have spec := stepSpec hstep
    refine ⟨spec.ids, fun l hl => ?_⟩
    obtain ⟨j, hj, hqueued, hvisible, k, v, -, -, -, rfl⟩ := spec.leased l hl
    exact ⟨j, hj, rfl, hqueued, hvisible⟩
  exclusive _ _ _ _ _ _ r hl hl' hid := exists_requeues r hl hl' hid
  leaseId_iff := ((leases_inductive u).reachable h).leaseId_iff

/-- A job leased for a second, lost by its worker, reclaimed and leased again. -/
def releasedJob : Store :=
  runCalls default (emptyStore 0)
    [.enqueue ⟨"j", "q", "k", .null, none, 3, 0, none⟩, .lease ["j"] ["q"] 1 1, .tick 2000000,
      .reclaimExpired, .lease ["j"] ["q"] 1 1]

/-- The first worker's late completion of that job is refused. -/
theorem lease_fencing_releasedJob :
    run default releasedJob (.complete "j" ((default : Uuids).draw 0) .null) =
      ⟨releasedJob, .completed false, []⟩ :=
  (lease_fencing (reachable_runCalls default 0 _)).stale _ "j" _ _ rfl (by decide)

end Atomo.Jobs
