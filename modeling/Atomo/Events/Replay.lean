import Atomo.Events.Aggregate

/-!
# Loading what was saved

The life of one event-sourced aggregate over commands, saves that the store takes or refuses, and loads from what it has
taken. At any time `from_events` makes of the saved events and those not yet saved the aggregate as it is
(`replays_alike`), where handlers and failing events leave the data alone and the events bear the versions that they get.
-/

namespace Atomo.Events

variable {T Event : Type}

/-- What happens to the aggregate; a load is `from_events` of what the store has. -/
inductive LifeStep (T Event : Type) where
  | command {Command : Type} (handler : T → Command → T × Except AtomoError (List Event)) (command : Command)
  | save (appendEvents : Append → Except AtomoError Unit)
  | load

/-- The aggregate, and the events that the store has taken of it. -/
structure Life (T Event : Type) where
  aggregate : AggregateBase T Event
  saved : List Event

variable (impl : AggregateImpl T Event) (domainEvent : DomainEventImpl Event) (new : Nat → EntityId)
  (now : Nat → Timestamp) (initialState : T) (streamId : StreamId)

namespace Life

def next (s : Life T Event) : LifeStep T Event → Life T Event
  | .command handler command => { s with aggregate := (s.aggregate.applyCommand impl handler command).1 }
  | .save appendEvents =>
    match s.aggregate.save domainEvent new now appendEvents with
    | (aggregate, .ok ()) => ⟨aggregate, s.saved ++ s.aggregate.uncommittedEvents⟩
    | (aggregate, .error _) => { s with aggregate := aggregate }
  | .load =>
    match AggregateBase.fromEvents impl domainEvent initialState streamId s.saved with
    | .ok aggregate => { s with aggregate := aggregate }
    | .error _ => s

/-- Each event bears the version that it gets. -/
def Numbered (version : Int64) : List Event → Prop
  | [] => True
  | event :: rest => domainEvent.aggregateVersion event = version + 1 ∧ Numbered (version + 1) rest

/-- A handler leaves the data to the events, and numbers them. -/
def Orderly (s : Life T Event) : LifeStep T Event → Prop
  | .command handler command => (handler s.aggregate.data command).1 = s.aggregate.data ∧
      ∀ events, (handler s.aggregate.data command).2 = .ok events → Numbered domainEvent s.aggregate.version events
  | _ => True

end Life

def lifeSystem : LabelledSystem (Life T Event) (LifeStep T Event) where
  init s := s = ⟨.fresh initialState streamId, []⟩
  step s action t := t = s.next impl domainEvent new now initialState streamId action

/-- An event that does not apply leaves the data as it was. -/
def FailsCleanly : Prop :=
  ∀ data event error, (impl.apply data event).2 = .error error → (impl.apply data event).1 = data

/-- Replayed, the events make the aggregate. -/
def Life.Replays (s : Life T Event) : Prop :=
  (AggregateBase.fresh initialState streamId).replay impl domainEvent (s.saved ++ s.aggregate.uncommittedEvents) =
    .ok s.aggregate.markEventsAsCommitted

variable {impl domainEvent new now initialState streamId} {s : Life T Event}

theorem replay_append (aggregate : AggregateBase T Event) (events later : List Event) :
    aggregate.replay impl domainEvent (events ++ later) =
      (aggregate.replay impl domainEvent events).bind fun aggregate => aggregate.replay impl domainEvent later := by
  induction events generalizing aggregate with
  | nil => rfl
  | cons event events ih =>
    rw [List.cons_append, AggregateBase.replay, AggregateBase.replay]
    rcases aggregate.applyEvent impl domainEvent event with ⟨after, error | _⟩
    · rfl
    · exact ih after

theorem replay_uncommittedEvents {aggregate after : AggregateBase T Event} {events : List Event}
    (h : aggregate.replay impl domainEvent events = .ok after) : after.uncommittedEvents = aggregate.uncommittedEvents := by
  induction events generalizing aggregate with
  | nil =>
    cases h
    rfl
  | cons event events ih =>
    have hkept := applyEvent_uncommittedEvents impl domainEvent aggregate event
    rw [AggregateBase.replay] at h
    rcases happly : aggregate.applyEvent impl domainEvent event with ⟨next, error | _⟩
    · rw [happly] at h
      cases h
    · rw [happly] at h hkept
      rw [ih h, hkept]

/-- A replay of the events that a command has recorded makes of the data what the command has made of it. -/
theorem replays_applyEvents (hclean : FailsCleanly impl) {aggregate : AggregateBase T Event} {saved events : List Event}
    (h : Life.Replays impl domainEvent initialState streamId ⟨aggregate, saved⟩)
    (hnumbered : Life.Numbered domainEvent aggregate.version events) :
    Life.Replays impl domainEvent initialState streamId ⟨(aggregate.applyEvents impl events).1, saved⟩ := by
  fun_induction AggregateBase.applyEvents impl aggregate events with
  | case1 => exact h
  | case2 aggregate event rest data error happly =>
    have hdata : data = aggregate.data := by
      have hleft := hclean aggregate.data event error (by rw [happly])
      rwa [happly] at hleft
    rw [hdata]
    exact h
  | case3 aggregate event rest data happly ih =>
    obtain ⟨hversion, hrest⟩ := hnumbered
    refine ih ?_ hrest
    unfold Life.Replays at h ⊢
    rw [AggregateBase.record_uncommittedEvents, ← List.append_assoc, replay_append, h]
    simp only [Except.bind, AggregateBase.replay, AggregateBase.applyEvent, AggregateBase.markEventsAsCommitted, happly,
      hversion]
    rfl

theorem Life.Replays.command (hclean : FailsCleanly impl) (h : s.Replays impl domainEvent initialState streamId)
    {Command : Type} {handler : T → Command → T × Except AtomoError (List Event)} {command : Command}
    (horderly : s.Orderly domainEvent (.command handler command)) :
    Life.Replays impl domainEvent initialState streamId
      { s with aggregate := (s.aggregate.applyCommand impl handler command).1 } := by
  obtain ⟨hdata, hnumbered⟩ := horderly
  unfold AggregateBase.applyCommand
  split
  · exact h
  · rcases hhandler : handler s.aggregate.data command with ⟨data, error | events⟩
    · rw [hhandler] at hdata
      obtain rfl : data = s.aggregate.data := hdata
      exact h
    · rw [hhandler] at hdata hnumbered
      obtain rfl : data = s.aggregate.data := hdata
      exact replays_applyEvents hclean h (hnumbered events rfl)

theorem Life.Replays.save (h : s.Replays impl domainEvent initialState streamId)
    (appendEvents : Append → Except AtomoError Unit) :
    (s.next impl domainEvent new now initialState streamId (.save appendEvents)).Replays impl domainEvent initialState
      streamId := by
  have hcommitted : Life.Replays impl domainEvent initialState streamId
      ⟨s.aggregate.markEventsAsCommitted, s.saved ++ s.aggregate.uncommittedEvents⟩ := by
    unfold Life.Replays at h ⊢
    rw [show s.aggregate.markEventsAsCommitted.uncommittedEvents = [] from rfl, List.append_nil]
    exact h
  unfold Life.next AggregateBase.save
  cases hcall : s.aggregate.saveCall domainEvent new now with
  | none =>
    have hempty : s.aggregate.uncommittedEvents = [] := by
      simpa [AggregateBase.saveCall] using hcall
    unfold Life.Replays at h ⊢
    simpa [hempty] using h
  | some call =>
    cases happend : appendEvents call with
    | error error => simpa only [happend] using h
    | ok => simpa only [happend] using hcommitted

/-- What the store has taken can be loaded. -/
theorem Life.Replays.loads (h : s.Replays impl domainEvent initialState streamId) :
    ∃ aggregate, AggregateBase.fromEvents impl domainEvent initialState streamId s.saved = .ok aggregate ∧
      Life.Replays impl domainEvent initialState streamId ⟨aggregate, s.saved⟩ := by
  unfold Life.Replays at h
  rw [replay_append] at h
  cases hsaved : (AggregateBase.fresh initialState streamId).replay impl domainEvent s.saved with
  | error error =>
    rw [hsaved] at h
    cases h
  | ok aggregate =>
    have hnone : aggregate.uncommittedEvents = [] := replay_uncommittedEvents hsaved
    have hsame : aggregate.markEventsAsCommitted = aggregate := by
      cases aggregate
      cases hnone
      rfl
    refine ⟨aggregate, ?_, ?_⟩
    · unfold AggregateBase.fromEvents
      rw [hsaved, Except.map, hsame]
    · unfold Life.Replays
      rw [hnone, List.append_nil, hsaved, hsame]

theorem replays_inductive (hclean : FailsCleanly impl) :
    ((lifeSystem impl domainEvent new now initialState streamId).restrict (Life.Orderly domainEvent)).Inductive
      (Life.Replays impl domainEvent initialState streamId) where
  init := by
    rintro _ rfl
    rfl
  step := by
    rintro s action _ h ⟨rfl, horderly⟩
    cases action with
    | command handler command => exact h.command hclean horderly
    | save appendEvents => exact h.save appendEvents
    | load =>
      obtain ⟨aggregate, hload, hreplays⟩ := h.loads
      simp only [Life.next, hload]
      exact hreplays

/-- Whatever is commanded, saved, refused and loaded: the saved events and those that are not saved yet make, replayed, the
aggregate as it is, with its data and its version, and the saved ones alone can be loaded. -/
theorem replays_alike {T Event : Type} (impl : AggregateImpl T Event) (domainEvent : DomainEventImpl Event)
    (new : Nat → EntityId) (now : Nat → Timestamp) (initialState : T) (streamId : StreamId) (hclean : FailsCleanly impl)
    {s : Life T Event}
    (hs : ((lifeSystem impl domainEvent new now initialState streamId).restrict (Life.Orderly domainEvent)).Reachable s) :
    AggregateBase.fromEvents impl domainEvent initialState streamId (s.saved ++ s.aggregate.uncommittedEvents) =
        .ok s.aggregate.markEventsAsCommitted ∧
      ∃ aggregate, AggregateBase.fromEvents impl domainEvent initialState streamId s.saved = .ok aggregate := by
  have hreplays : s.Replays impl domainEvent initialState streamId := (replays_inductive hclean).reachable hs
  obtain ⟨aggregate, hload, -⟩ := hreplays.loads
  refine ⟨?_, aggregate, hload⟩
  unfold Life.Replays at hreplays
  unfold AggregateBase.fromEvents
  rw [hreplays]
  rfl

/-- An account whose events are amounts with their versions. -/
def ledger : AggregateImpl Int (Int × Int64) where
  apply balance event := account.apply balance event.1
  setVersion balance _ := balance

def ledgerEvent : DomainEventImpl (Int × Int64) where
  streamId _ := 7
  eventType _ := .created
  metadata _ := {}
  payload _ := .null
  aggregateVersion := Prod.snd

/-- A deposit is saved and loaded before a withdrawal, which is not saved. -/
theorem replays_ledger : AggregateBase.fromEvents ledger ledgerEvent 0 7 ([(5, 1)] ++ [(-2, 2)]) = .ok ⟨3, 2, [], 7⟩ := by
  have hclean : FailsCleanly ledger := by
    intro balance event error h
    unfold ledger account at h ⊢
    dsimp only at h ⊢
    split at h
    · next hover => rw [if_pos hover]
    · cases h
  let M := (lifeSystem ledger ledgerEvent (fun _ => 0) (fun _ => 0) 0 7).restrict (Life.Orderly ledgerEvent)
  have hs : M.Reachable ⟨⟨3, 2, [(-2, 2)], 7⟩, [(5, 1)]⟩ :=
    ⟨⟨.fresh 0 7, []⟩, [.command (fun balance events => (balance, .ok events)) [(5, 1)], .save fun _ => .ok (), .load,
        .command (fun balance events => (balance, .ok events)) [(-2, 2)]], rfl,
      .cons ⟨rfl, rfl, fun _ h => by cases h; exact ⟨rfl, trivial⟩⟩ (.cons ⟨rfl, trivial⟩ (.cons ⟨rfl, trivial⟩
        (.cons ⟨rfl, rfl, fun _ h => by cases h; exact ⟨rfl, trivial⟩⟩ (.nil _))))⟩
  exact (replays_alike ledger ledgerEvent _ _ 0 7 hclean hs).1

end Atomo.Events
