import Atomo.Client.Commits

/-!
# The log of a run

The event log of a model whose history is kept: each commit appends its events to it, all of them, since their ids are
new.
-/

namespace Atomo.Client

variable {env : Env} {w w' : World}

/-- Ids stay new when those that are in use were drawn meanwhile. -/
theorem Write.FreshIds.after (hfresh : Write.FreshIds env w) (htick : w.tick ≤ w'.tick)
    (hlog : ∀ entry ∈ w'.store.eventLog,
      entry ∈ w.store.eventLog ∨ ∃ i, w.tick ≤ i ∧ i < w'.tick ∧ entry.eventId = env.uuid i) : Write.FreshIds env w' where
  distinct i j hi hj := hfresh.distinct i j (Nat.le_trans htick hi) (Nat.le_trans htick hj)
  unused i hi entry hentry heq := by
    rcases hlog entry hentry with hold | ⟨j, hj, hlt, hid⟩
    · exact hfresh.unused i (Nat.le_trans htick hi) entry hold heq
    · have hsame := hfresh.distinct j i hj (Nat.le_trans htick hi) (hid.symm.trans heq)
      omega

theorem Write.Done.freshIds {scope : Scope} {modelName : String} {actor : Option String} {write : Write} {reply : Reply}
    (hfresh : Write.FreshIds env w) (h : Write.Done env scope modelName actor write w reply w') :
    Write.FreshIds env w' := by
  obtain ⟨model, built, records, events, -, -, -, ⟨tick, hle, hlt, rfl⟩, ⟨tables, now, -, hstore⟩, -⟩ := h
  refine hfresh.after (by omega) fun entry hentry => ?_
  rw [hstore] at hentry
  unfold recorded at hentry
  split at hentry
  · split at hentry <;> exact .inl hentry
  · rcases Store.mem_logEntries hentry with hold | hnew
    · exact .inl hold
    · obtain ⟨event, hevent, rfl⟩ := List.mem_map.1 hnew
      have hid : event.eventId ∈ (List.range' tick (records.map write.payload).length).map env.uuid := by
        rw [← stamped_ids env scope write.eventType modelName actor]
        exact List.mem_map_of_mem hevent
      obtain ⟨i, hi, heq⟩ := List.mem_map.1 hid
      have hbounds := List.mem_range'_1.1 hi
      rw [List.length_map] at hbounds
      exact .inr ⟨i, by omega, by omega, heq.symm⟩

/-- A commit whose events were all stored. -/
structure Commit.Stored (c : Commit) (w w' : World) : Prop where
  eventLog : w'.store.eventLog = w.store.eventLog ++ c.events.map (StampedEvent.entry c.now)
  coverage : w'.store.coverage = w.store.coverage

theorem Write.Done.stored {call : Call} {reply : Reply} (hmode : (env.history.policy call.modelName).mode ≠ .off)
    (hfresh : Write.FreshIds env w) (h : Write.Done env call.scope call.modelName call.actor call.write w reply w') :
    ∃ c : Commit, c.call = call ∧ c.Valid env w w' ∧ c.Stored w w' := by
  obtain ⟨model, handed, tick, rows, events, now, hmodel, hhanded, hdoes, hevents, hstore, hrecorded, hsent⟩ := h.effects
  obtain ⟨htype, hpayload, hrecord⟩ := hhanded.eventType
  obtain ⟨hlog, hcoverage⟩ := (hrecorded hfresh).stored hmode
  refine ⟨⟨call, model, handed, tick, now, rows, events⟩, rfl, ⟨hmodel, hhanded, hdoes, ?_, hstore, hsent⟩, hlog, hcoverage⟩
  rw [hevents, htype, hpayload, hrecord]

/-- A call leaves the store alone, or commits with all of its events; either way ids stay new. -/
theorem Call.perform_stored (call : Call) (hmode : (env.history.policy call.modelName).mode ≠ .off)
    (hfresh : Write.FreshIds env w) :
    Write.FreshIds env (call.perform env w) ∧ ((call.perform env w).store = w.store ∨
      ∃ c : Commit, c.call = call ∧ c.Valid env w (call.perform env w) ∧ c.Stored w (call.perform env w)) := by
  have hends := Write.run_ends env call.scope call.modelName call.actor call.write w
  unfold Call.perform
  cases hrun : call.write.run env call.scope call.modelName call.actor w with
  | error e w1 =>
    have hundone := hends.error hrun
    refine ⟨hfresh.after hundone.tick fun entry hentry => .inl ?_, .inl hundone.store⟩
    rw [← hundone.store]
    exact hentry
  | ok reply w1 =>
    rcases hends.ok hrun with hdone | ⟨-, -, hnothing⟩
    · exact ⟨hdone.freshIds hfresh, .inr (hdone.stored hmode hfresh)⟩
    · subst hnothing
      exact ⟨hfresh, .inl rfl⟩

end Atomo.Client
