import Atomo.Client.Effects
import Atomo.GraphQL.Mutations

/-!
# Bulk updates

Each entry of `updateMany` is a transaction of its own. When one is rejected, those ahead of it stay:
nothing has been changed exactly when none of these selected a row (`updateMany_spares`).
-/

namespace Atomo.Client

open Query (WhereClause tableName)
open Db (Row)

variable {env : Env} {scope : Scope} {modelName : String} {w w' : World}

/-- No row has been changed and no event recorded, nor sent where none is to be recorded. -/
structure Spared (env : Env) (modelName : String) (w w' : World) : Prop where
  tables : w'.store.tables = w.store.tables
  eventLog : w'.store.eventLog = w.store.eventLog
  sent : (env.history.policy modelName).mode = .off → w'.sent = w.sent

/-- Nothing is unrecorded or unsent. -/
structure Grows (w w' : World) : Prop where
  eventLog : w.store.eventLog <+: w'.store.eventLog
  sent : w.sent <+: w'.sent

theorem Spared.trans {w'' : World} (h : Spared env modelName w w') (h' : Spared env modelName w' w'') :
    Spared env modelName w w'' :=
  ⟨h'.tables.trans h.tables, h'.eventLog.trans h.eventLog, fun hoff => (h'.sent hoff).trans (h.sent hoff)⟩

theorem Grows.trans {w'' : World} (h : Grows w w') (h' : Grows w' w'') : Grows w w'' :=
  ⟨h.eventLog.trans h'.eventLog, h.sent.trans h'.sent⟩

theorem Store.logEntry_grows (store : Store) (entry : LogEntry) :
    store.eventLog <+: (store.logEntry entry).eventLog := by
  unfold Store.logEntry
  split
  · exact List.prefix_rfl
  · exact List.prefix_append _ _

theorem Store.logEntries_grows (store : Store) (entries : List LogEntry) :
    store.eventLog <+: (store.logEntries entries).eventLog := by
  induction entries generalizing store with
  | nil => exact List.prefix_rfl
  | cons entry entries ih => exact (logEntry_grows store entry).trans (ih _)

theorem recorded_grows (config : HistoryConfig) (model : String) (now : Int) (events : List StampedEvent)
    (store : Store) : store.eventLog <+: (recorded config model now events store).eventLog := by
  unfold recorded
  split
  · split
    · exact List.prefix_rfl
    · exact List.prefix_rfl
  · exact Store.logEntries_grows _ _

theorem Undone.spared {e : Error} (h : Undone w e w') : Spared env modelName w w' where
  tables := by rw [h.store]
  eventLog := by rw [h.store]
  sent _ := h.sent

theorem Undone.grows {e : Error} (h : Undone w e w') : Grows w w' where
  eventLog := by rw [h.store]
  sent := by rw [h.sent]

variable {actor : Option String} {reply : Reply}

theorem Write.Done.grows {write : Write} (h : Write.Done env scope modelName actor write w reply w') :
    Grows w w' := by
  obtain ⟨model, handed, tick, rows, events, now, -, -, -, -, hstore, -, hsent⟩ := h.effects
  constructor
  · rw [hstore]
    exact recorded_grows _ _ _ _ { w.store with tables := w'.store.tables }
  · rw [hsent]
    exact List.prefix_append _ _

/-- An update that selects no row spares everything. -/
theorem Write.Done.spared {clauses : List WhereClause} {data : Record}
    (h : Write.Done env scope modelName actor (.updateMany clauses data) w reply w')
    (hnone : selection env scope modelName clauses w = []) : Spared env modelName w w' := by
  obtain ⟨model, handed, tick, rows, events, now, hmodel, ⟨data', -, rfl⟩,
    ⟨sets, -, hrows, htables, -⟩, hdata, hstore, -, hsent⟩ := h.effects
  rw [selection_eq hmodel] at hnone
  rw [hnone] at hrows
  have hevents : events = [] := by
    rw [hrows] at hdata
    exact List.map_eq_nil_iff.1 hdata
  have hsame : (w.store.tables (tableName env.casing model)).rows.map (fun row =>
      if Db.matching env.pg env.casing (boundTenant env scope) (tableName env.casing model) clauses row
      then row.update sets else row) = (w.store.tables (tableName env.casing model)).rows := by
    rw [List.filter_eq_nil_iff] at hnone
    conv_rhs => rw [← List.map_id (w.store.tables (tableName env.casing model)).rows]
    exact List.map_congr_left fun row hrow => if_neg (hnone row hrow)
  rw [hevents] at hstore hsent
  refine ⟨?_, ?_, fun _ => hsent.trans (List.append_nil _)⟩
  · rw [htables, hsame, Function.update_eq_self]
  · rw [hstore, recorded]
    split <;> rfl

/-- An update that changes no log, nor sends anything where there is none, selects no row. -/
theorem Write.Done.selection_eq_nil {clauses : List WhereClause} {data : Record}
    (hfresh : Write.FreshIds env w)
    (h : Write.Done env scope modelName actor (.updateMany clauses data) w reply w')
    (hlog : w'.store.eventLog = w.store.eventLog)
    (hsame : (env.history.policy modelName).mode = .off → w'.sent = w.sent) :
    selection env scope modelName clauses w = [] := by
  obtain ⟨model, handed, tick, rows, events, now, hmodel, ⟨data', -, rfl⟩, ⟨sets, -, hrows, -, -⟩, hdata, -,
    hrecorded, hsent⟩ := h.effects
  have hevents : events = [] := by
    by_cases hmode : (env.history.policy modelName).mode = .off
    · have hnil := hsame hmode
      rw [hsent] at hnil
      exact List.map_eq_nil_iff.1 (List.append_right_eq_self.1 hnil)
    · have hnil := ((hrecorded hfresh).stored hmode).1
      rw [hlog] at hnil
      exact List.map_eq_nil_iff.1 (List.append_right_eq_self.1 hnil.symm)
  rw [hevents] at hdata
  have hnone := List.map_eq_nil_iff.1 hdata.symm
  rw [hrows] at hnone
  rw [selection_eq hmodel]
  exact List.map_eq_nil_iff.1 hnone

theorem Write.Done.tick_le {write : Write} (h : Write.Done env scope modelName actor write w reply w') :
    w.tick ≤ w'.tick := by
  obtain ⟨_, _, _, _, -, -, -, ⟨tick, hle, hlt, -⟩, -, -⟩ := h
  omega

theorem Write.FreshIds.of_log (hfresh : Write.FreshIds env w) (htick : w.tick ≤ w'.tick)
    (hlog : w'.store.eventLog = w.store.eventLog) : Write.FreshIds env w' where
  distinct i j hi hj := hfresh.distinct i j (Nat.le_trans htick hi) (Nat.le_trans htick hj)
  unused i hi entry hentry := by
    rw [hlog] at hentry
    exact hfresh.unused i (Nat.le_trans htick hi) entry hentry

theorem Grows.eventLog_eq {w'' : World} (h : Grows w w') (h' : Grows w' w'')
    (hlog : w''.store.eventLog = w.store.eventLog) : w'.store.eventLog = w.store.eventLog := by
  refine (h.eventLog.eq_of_length_le ?_).symm
  rw [← hlog]
  exact h'.eventLog.length_le

theorem Grows.sent_eq {w'' : World} (h : Grows w w') (h' : Grows w' w'') (hsent : w''.sent = w.sent) :
    w'.sent = w.sent := by
  refine (h.sent.eq_of_length_le ?_).symm
  rw [← hsent]
  exact h'.sent.length_le

theorem selection_congr (h : w'.store.tables = w.store.tables) (clauses : List WhereClause) :
    selection env scope modelName clauses w' = selection env scope modelName clauses w := by
  unfold selection
  rw [h]

end Atomo.Client

namespace Atomo.GraphQL.ServiceMutation

open Client (Env Scope World Spared Grows selection)
open Client.Write (FreshIds)

variable {env : Env} {scope : Scope} {ctx : Ctx} {modelName : String}

/-- The entries ahead of the rejected one, `entry`. -/
structure Rejected (env : Env) (scope : Scope) (ctx : Ctx) (modelName : String) (updates before : List BulkUpdateInput)
    (entry : BulkUpdateInput) (w : World) (e : Error) (w' : World) : Prop where
  split : ∃ after, updates = before ++ entry :: after
  rejected : ∃ rows w1, updateEntries env scope ctx modelName before w = .ok rows w1 ∧
    updateEntry env scope ctx modelName entry w1 = .error e w'

theorem updateEntries_error {updates : List BulkUpdateInput} {w w' : World} {e : Error}
    (h : updateEntries env scope ctx modelName updates w = .error e w') :
    ∃ before entry, Rejected env scope ctx modelName updates before entry w e w' ∧ Grows w w' ∧
      (FreshIds env w → (Spared env modelName w w' ↔
        ∀ earlier ∈ before, selection env scope modelName (entryWhere ctx earlier) w = [])) := by
  induction updates generalizing w with
  | nil => cases h
  | cons entry updates ih =>
    rcases bind_eq_error h with hentry | ⟨row, w1, hentry, hrest⟩
    · obtain ⟨e', hundone⟩ := (updateEntry_ends entry).error hentry
      refine ⟨[], entry, ⟨⟨updates, rfl⟩, [], w, rfl, hentry⟩, hundone.grows, fun _ => ?_⟩
      exact ⟨fun _ earlier hearlier => absurd hearlier List.not_mem_nil, fun _ => hundone.spared⟩
    · rcases bind_eq_error hrest with hrest | ⟨rows, w2, hrest, hpure⟩
      · obtain ⟨before, rejected, ⟨⟨after, hsplit⟩, rows, w2, hbefore, hrejected⟩, hgrows', hiff⟩ := ih hrest
        obtain ⟨map, reply, hmap, hdone⟩ := (updateEntry_ends entry).ok hentry
        have hgrows := hdone.grows
        refine ⟨entry :: before, rejected, ⟨⟨after, by rw [hsplit, List.cons_append]⟩, row.toList ++ rows, w2, ?_,
          hrejected⟩, hgrows.trans hgrows', fun hfresh => ?_⟩
        · show (updateEntry env scope ctx modelName entry >>= _) w = _
          rw [bind_of_ok hentry, bind_of_ok hbefore]
          rfl
        · rw [List.forall_mem_cons]
          constructor
          · intro hspared
            have hlog := hgrows.eventLog_eq hgrows' hspared.eventLog
            have hnone := hdone.selection_eq_nil hfresh hlog fun hoff => hgrows.sent_eq hgrows' (hspared.sent hoff)
            have hfirst := hdone.spared hnone
            have hlater : Spared env modelName w1 w' := by
              refine ⟨hspared.tables.trans hfirst.tables.symm, hspared.eventLog.trans hlog.symm, fun hoff => ?_⟩
              exact (hspared.sent hoff).trans (hfirst.sent hoff).symm
            refine ⟨hnone, fun earlier hearlier => ?_⟩
            rw [← Client.selection_congr hfirst.tables]
            exact (hiff (hfresh.of_log hdone.tick_le hlog)).1 hlater earlier hearlier
          · rintro ⟨hnone, hall⟩
            have hfirst := hdone.spared hnone
            refine hfirst.trans ((hiff (hfresh.of_log hdone.tick_le hfirst.eventLog)).2 fun earlier hearlier => ?_)
            rw [Client.selection_congr hfirst.tables]
            exact hall earlier hearlier
      · cases hpure

/-- When `updateMany` fails, nothing has been changed exactly when no entry ahead of the rejected one selected
a row. -/
theorem updateMany_spares (env : Env) (scope : Scope) (ctx : Ctx) (modelName : String)
    (updates : List BulkUpdateInput) (w : World) (hfresh : FreshIds env w) :
    Ends (updateMany env scope ctx modelName updates) w (fun _ _ => True) (fun e w' =>
      checkAccess env.schema modelName "update" ctx w = .error e w' ∧ Spared env modelName w w' ∨
      ∃ before entry, Rejected env scope ctx modelName updates before entry w e w' ∧
        (Spared env modelName w w' ↔
          ∀ earlier ∈ before, selection env scope modelName (entryWhere ctx earlier) w = [])) := by
  refine ⟨fun _ => trivial, fun {e w'} h => ?_⟩
  rcases bind_eq_error h with haccess | ⟨_, w1, haccess, hentries⟩
  · obtain ⟨e', hundone⟩ := (checkAccess_refused ctx env.schema modelName "update" w).error haccess
    exact .inl ⟨haccess, hundone.spared⟩
  · cases (checkAccess_refused ctx env.schema modelName "update" w).ok haccess
    obtain ⟨before, entry, hrejected, -, hiff⟩ := updateEntries_error hentries
    exact .inr ⟨before, entry, hrejected, hiff hfresh⟩

/-- An update of a note, and one that is rejected. -/
def halfUpdates : List BulkUpdateInput :=
  [⟨"1", .object [("title", .string "x")]⟩, ⟨"2", .string "x"⟩]

theorem updateMany_spares_half :
    FreshIds (.bare Client.noteSchema) (Client.noteWorld [Client.noteRow "1" "a" "t"]) ∧
    Ends (updateMany (.bare Client.noteSchema) {} {} "Note" halfUpdates)
      (Client.noteWorld [Client.noteRow "1" "a" "t"]) (fun _ _ => True) (fun e w' =>
        checkAccess Client.noteSchema "Note" "update" {} (Client.noteWorld [Client.noteRow "1" "a" "t"]) =
            .error e w' ∧
          Spared (.bare Client.noteSchema) "Note" (Client.noteWorld [Client.noteRow "1" "a" "t"]) w' ∨
        ∃ before entry, Rejected (.bare Client.noteSchema) {} {} "Note" halfUpdates before entry
            (Client.noteWorld [Client.noteRow "1" "a" "t"]) e w' ∧
          (Spared (.bare Client.noteSchema) "Note" (Client.noteWorld [Client.noteRow "1" "a" "t"]) w' ↔
            ∀ earlier ∈ before, selection (.bare Client.noteSchema) {} "Note" (entryWhere {} earlier)
              (Client.noteWorld [Client.noteRow "1" "a" "t"]) = [])) := by
  have hfresh : FreshIds (.bare Client.noteSchema) (Client.noteWorld [Client.noteRow "1" "a" "t"]) :=
    ⟨fun _ _ _ _ h => Db.ticket_injective h, fun _ _ _ h => absurd h List.not_mem_nil⟩
  exact ⟨hfresh, updateMany_spares _ _ _ _ _ _ hfresh⟩

/-- The mutation fails, but the first note has been updated, with an event. -/
theorem updateMany_half_done : ∃ e w',
    updateMany (.bare Client.noteSchema) {} {} "Note" halfUpdates (Client.noteWorld [Client.noteRow "1" "a" "t"]) =
      .error e w' ∧
    (w'.store.tables "notes").rows = [Client.noteRow "1" "x" "t"] ∧ w'.store.eventLog.length = 1 := by
  have hends : endsError (updateMany (.bare Client.noteSchema) {} {} "Note" halfUpdates)
      (Client.noteWorld [Client.noteRow "1" "a" "t"])
      (fun _ w' => (w'.store.tables "notes").rows = [Client.noteRow "1" "x" "t"] &&
        w'.store.eventLog.length = 1) = true := by
    decide +kernel
  obtain ⟨e, w', hrun, htest⟩ := exists_of_endsError hends
  exact ⟨e, w', hrun, by simpa using htest⟩

end Atomo.GraphQL.ServiceMutation
