import Atomo.Data.Json

/-!
# Model events

What the broadcast channel carries. The wall-clock timestamp and the random event id, which nothing
in the development reads, are left out.
-/

namespace Atomo

/-- `EventType` of `events.rs`. -/
inductive EventType where
  | created
  | updated
  | deleted
  | restored
  | hardDeleted
  | custom
  deriving DecidableEq

/-- `ModelEvent` of `events.rs`; a `HashMap` is the list of its entries. -/
structure ModelEvent where
  eventType : EventType
  modelName : String
  data : List (String × Json)
  previousData : Option (List (String × Json)) := none
  actor : Option String := none
  origin : Option String := none
  deriving DecidableEq

end Atomo
