import Atomo.Client.Effects

/-!
# Runs of writes

Calls of a client one after the other, by whoever makes them. A call commits its write or leaves store and
subscribers alone; a run is told by what its calls have committed (`Commits`).
-/

namespace Atomo.Client

open Schema (Model)
open Query (tableName)
open Db (Row Tables)

variable (env : Env)

/-- A write as it is called. -/
structure Call where
  scope : Scope
  modelName : String
  actor : Option String
  write : Write

/-- The world after a call, whether it succeeds or not. -/
def Call.perform (call : Call) (w : World) : World :=
  match call.write.run env call.scope call.modelName call.actor w with
  | .ok _ w' | .error _ w' => w'

def performAll (calls : List Call) (w : World) : World :=
  calls.foldl (fun w call => call.perform env w) w

/-- What a call has committed: its write with the data of its hook, the rows that it is about, as it leaves
them (a deleted row as it was), and the event of each. -/
structure Commit where
  call : Call
  model : Model
  handed : Write
  tick : Nat
  now : Int
  rows : List Row
  events : List StampedEvent

/-- The table that a commit is about. -/
def Commit.table (c : Commit) : String :=
  tableName env.casing c.model

structure Commit.Valid (c : Commit) (w w' : World) : Prop where
  model : env.schema.model? c.call.modelName = some c.model
  handedOn : c.call.write.HandedOn env c.call.modelName c.handed
  does : c.handed.Does env c.call.scope c.model c.tick w.store.tables c.rows w'.store.tables
  events : c.events.map (fun event => (event.eventType, event.modelName, event.data)) =
    c.rows.map fun row =>
      (c.handed.eventType, c.call.modelName, c.handed.payload (c.handed.record env c.model w.store.tables row))
  store : w'.store = recorded env.history c.call.modelName c.now c.events { w.store with tables := w'.store.tables }
  sent : w'.sent = w.sent ++ c.events.map .send

/-- A run with its commits. -/
inductive Commits : World → List Call → List Commit → World → Prop
  | nil (w : World) : Commits w [] [] w
  | silent {w call calls commits w'} (hstore : (call.perform env w).store = w.store)
      (hsent : (call.perform env w).sent = w.sent) (hrest : Commits (call.perform env w) calls commits w') :
      Commits w (call :: calls) commits w'
  | commit {w calls commits w'} (c : Commit) (hvalid : c.Valid env w (c.call.perform env w))
      (hrest : Commits (c.call.perform env w) calls commits w') : Commits w (c.call :: calls) (c :: commits) w'

variable {env} {w w' : World} {calls : List Call} {commits : List Commit}

theorem Write.HandedOn.eventType {modelName : String} {write handed : Write} (h : write.HandedOn env modelName handed) :
    handed.eventType = write.eventType ∧ handed.payload = write.payload ∧
      ∀ (model : Model) (tables : Tables), handed.record env model tables = write.record env model tables := by
  cases write with
  | create data | createMany data | updateMany clauses data =>
    obtain ⟨data', -, rfl⟩ := h
    exact ⟨rfl, rfl, fun _ _ => rfl⟩
  | deleteMany | restoreMany | hardDeleteMany =>
    cases h
    exact ⟨rfl, rfl, fun _ _ => rfl⟩

theorem Write.Done.valid {call : Call} {reply : Reply}
    (h : Write.Done env call.scope call.modelName call.actor call.write w reply w') :
    ∃ c : Commit, c.call = call ∧ c.Valid env w w' := by
  obtain ⟨model, handed, tick, rows, events, now, hmodel, hhanded, hdoes, hevents, hstore, -, hsent⟩ := h.effects
  obtain ⟨htype, hpayload, hrecord⟩ := hhanded.eventType
  refine ⟨⟨call, model, handed, tick, now, rows, events⟩, rfl, hmodel, hhanded, hdoes, ?_, hstore, hsent⟩
  rw [hevents, htype, hpayload, hrecord]

/-- Each run has its commits. -/
theorem exists_commits (env : Env) (calls : List Call) (w : World) :
    ∃ commits, Commits env w calls commits (performAll env calls w) := by
  induction calls generalizing w with
  | nil => exact ⟨[], .nil w⟩
  | cons call calls ih =>
    obtain ⟨commits, hrest⟩ := ih (call.perform env w)
    have hends := Write.run_ends env call.scope call.modelName call.actor call.write w
    cases hrun : call.write.run env call.scope call.modelName call.actor w with
    | error e w1 =>
      have hundone := hends.error hrun
      have hperform : call.perform env w = w1 := by
        unfold Call.perform
        rw [hrun]
      refine ⟨commits, .silent ?_ ?_ hrest⟩ <;> rw [hperform]
      · exact hundone.store
      · exact hundone.sent
    | ok reply w1 =>
      have hperform : call.perform env w = w1 := by
        unfold Call.perform
        rw [hrun]
      rcases hends.ok hrun with hdone | ⟨-, -, hnothing⟩
      · obtain ⟨c, rfl, hvalid⟩ := hdone.valid
        rw [← hperform] at hvalid
        exact ⟨c :: commits, .commit c hvalid hrest⟩
      · refine ⟨commits, .silent ?_ ?_ hrest⟩ <;> rw [hperform, hnothing]

/-- A single call commits nothing, or its write. -/
theorem Commits.single {call : Call} (h : Commits env w [call] commits w') :
    (call.perform env w).sent = w.sent ∧ commits = [] ∨
      ∃ c : Commit, c.call = call ∧ commits = [c] ∧ c.Valid env w (call.perform env w) := by
  generalize hcalls : [call] = calls at h
  cases h with
  | nil => cases hcalls
  | silent hstore hsent hrest =>
    cases hcalls
    cases hrest
    exact .inl ⟨hsent, rfl⟩
  | commit c hvalid hrest =>
    obtain ⟨hcall, hnil⟩ := List.cons.inj hcalls
    subst hnil
    cases hrest
    rw [hcall]
    exact .inr ⟨c, rfl, rfl, hvalid⟩

theorem update_columns {name : String} {tables : Tables} {rows : List Row} (other : String) :
    (Function.update tables name { tables name with rows } other).columns = (tables other).columns := by
  by_cases hother : other = name
  · rw [hother, Function.update_self]
  · rw [Function.update_of_ne hother]

/-- The columns of the tables stay. -/
theorem Commit.Valid.columns {c : Commit} (h : c.Valid env w w') (name : String) :
    (w'.store.tables name).columns = (w.store.tables name).columns := by
  have hdoes := h.does
  unfold Write.Does at hdoes
  cases hhanded : c.handed with
  | create data =>
    rw [hhanded] at hdoes
    obtain ⟨values, -, -, -, htables, -⟩ := hdoes
    rw [htables, update_columns]
  | createMany data =>
    rw [hhanded] at hdoes
    obtain ⟨-, htables, -⟩ := hdoes
    rw [htables, update_columns]
  | updateMany clauses data =>
    rw [hhanded] at hdoes
    obtain ⟨sets, -, -, htables, -⟩ := hdoes
    rw [htables, update_columns]
  | deleteMany clauses =>
    rw [hhanded] at hdoes
    obtain ⟨now, -, htables, -⟩ := hdoes
    rw [htables, update_columns]
  | restoreMany clauses =>
    rw [hhanded] at hdoes
    obtain ⟨-, htables, -⟩ := hdoes
    rw [htables, update_columns]
  | hardDeleteMany clauses =>
    rw [hhanded] at hdoes
    obtain ⟨-, htables⟩ := hdoes
    rw [htables, update_columns]

end Atomo.Client
