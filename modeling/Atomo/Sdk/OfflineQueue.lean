import Atomo.Data.Json
import Atomo.Lib.LabelledSystem
import Mathlib.Data.List.Nodup

/-!
# The offline queue

`OfflineQueue` of `offline-queue.ts`: mutations are put in a queue that is kept in `localStorage`, and `sync` sends
those of a snapshot one after the other, awaiting each answer. Other calls run at these awaits. What is in the queue
when a sync ends is replaced by what has failed in it, an answer that carries GraphQL errors is taken for a success,
and a mutation is sent whatever has become of the earlier ones of its record: a run loses nothing, and keeps the order
of each record, exactly when none of its steps meets one of these (`loses_nothing_iff`).
-/

namespace Atomo.Sdk

/-! ## The code -/

/-- `QueuedMutation['operation']`. -/
inductive Operation where
  | create
  | update
  | delete
  deriving DecidableEq

structure QueuedMutation where
  id : String
  model : String
  operation : Operation
  data : Json
  retries : Nat
  deriving DecidableEq

/-- A POST of `fetch`. -/
structure Request where
  url : String
  headers : List (String × String)
  body : Json
  deriving DecidableEq

/-- What comes of a `fetch`: it rejects, or a response arrives, whose body carries GraphQL errors or not. -/
inductive Reply where
  | rejected
  | response (status : Nat) (errors : Bool)
  deriving DecidableEq

/-- What the network has seen. -/
inductive Event where
  | sent (id : String) (request : Request)
  | settled (id : String) (reply : Reply)
  deriving DecidableEq

/-- A `sync` at the await of its loop: `toSync` by the ids of its mutations, the one that has been sent, those still
to come, and `failed`. -/
structure SyncCall where
  toSync : List String
  current : QueuedMutation
  rest : List QueuedMutation
  failed : List QueuedMutation

/-- `OfflineQueue`, with what `localStorage` holds for it, `navigator.onLine`, and the call of `sync` that has set
`syncing`. The mutations of the queue and those of the call are the same objects: an id names one. `enqueued` lists
all that has been queued and `log` what has been sent and answered, the newest first; the code keeps neither. -/
structure OfflineQueue where
  queue : List QueuedMutation
  endpoint : String
  authToken : Option String
  storage : List QueuedMutation
  online : Bool
  call : Option SyncCall
  enqueued : List QueuedMutation
  log : List Event

/-- `mutation.retries++`. -/
def QueuedMutation.retried (m : QueuedMutation) : QueuedMutation :=
  { m with retries := m.retries + 1 }

/-- A list of objects once the one named as `m` has become `m`. -/
def changed (m : QueuedMutation) (l : List QueuedMutation) : List QueuedMutation :=
  l.map fun q => if q.id = m.id then m else q

/-- `res.ok`. -/
def Reply.ok : Reply → Bool
  | .rejected => false
  | .response status _ => 200 ≤ status && status ≤ 299

def Reply.errors : Reply → Bool
  | .rejected => false
  | .response _ errors => errors

namespace OfflineQueue

/-- `queries` of `executeMutation`. -/
def queryText : Operation → String
  | .create => "mutation($model: String!, $data: JSON!) \x7b create(model: $model, data: $data) \x7d"
  | .update =>
    "mutation($model: String!, $where: JSON!, $data: JSON!) \x7b update(model: $model, where: $where, data: $data) \x7d"
  | .delete => "mutation($model: String!, $where: JSON!) \x7b delete(model: $model, where: $where) \x7d"

/-- `{ id: { equals: data.id } }`; an entry without a value is not in the JSON. -/
def whereId (data : Json) : Json :=
  .object [("id", .object ((data.get? "id").toList.map fun id => ("equals", id)))]

/-- `variables` of `executeMutation`. -/
def queryVariables (m : QueuedMutation) : Json :=
  match m.operation with
  | .create => .object [("model", .string m.model), ("data", m.data)]
  | .update => .object [("model", .string m.model), ("where", whereId m.data), ("data", m.data)]
  | .delete => .object [("model", .string m.model), ("where", whereId m.data)]

/-- The request of `executeMutation`. -/
def request (s : OfflineQueue) (m : QueuedMutation) : Request where
  url := s.endpoint ++ "/graphql"
  headers :=
    ("Content-Type", "application/json") :: s.authToken.toList.map fun token => ("Authorization", "Bearer " ++ token)
  body := .object [("query", .string (queryText m.operation)), ("variables", queryVariables m)]

/-- `executeMutation`, up to the await of its `fetch`. -/
def executeMutation (s : OfflineQueue) (m : QueuedMutation) : OfflineQueue :=
  { s with log := .sent m.id (s.request m) :: s.log }

/-- `saveToStorage`: a write that is refused is ignored. -/
def saveToStorage (s : OfflineQueue) (accepted : Bool) : OfflineQueue :=
  if accepted then { s with storage := s.queue } else s

/-- The constructor: the queue is what the storage holds. -/
def load (endpoint : String) (storage : List QueuedMutation) (online : Bool) : OfflineQueue where
  queue := storage
  endpoint
  authToken := none
  storage
  online
  call := none
  enqueued := storage
  log := []

/-- `sync`, up to its first await. -/
def sync (s : OfflineQueue) : OfflineQueue :=
  if s.call.isSome || !s.online then s
  else
    match s.queue with
    | [] => s
    | m :: rest =>
      let call : SyncCall := { toSync := s.queue.map (·.id), current := m, rest, failed := [] }
      { s with call := some call }.executeMutation m

/-- `enqueue`, with the id it draws. -/
def enqueue (s : OfflineQueue) (id model : String) (operation : Operation) (data : Json) (accepted : Bool) :
    OfflineQueue :=
  let m : QueuedMutation := { id, model, operation, data, retries := 0 }
  let s := { s with queue := s.queue ++ [m], enqueued := s.enqueued ++ [m] }.saveToStorage accepted
  if s.online then s.sync else s

/-- The rest of an iteration of `sync`, once the answer to what was sent is there: the queue, and `failed`. -/
def settle (s : OfflineQueue) (call : SyncCall) (reply : Reply) : List QueuedMutation × List QueuedMutation :=
  if reply.ok then
    (s.queue.filter (·.id ≠ call.current.id), call.failed)
  else
    let m := call.current.retried
    (changed m s.queue, if m.retries < 5 then call.failed ++ [m] else call.failed)

/-- `sync`, from an answer to its next await, or to its end. -/
def resume (s : OfflineQueue) (call : SyncCall) (reply : Reply) (accepted : Bool) : OfflineQueue :=
  let (queue, failed) := s.settle call reply
  let s := { s with queue, log := .settled call.current.id reply :: s.log }
  match call.rest with
  | next :: rest =>
    { s with call := some { call with current := next, rest, failed } }.executeMutation next
  | [] => { s with queue := failed, call := none }.saveToStorage accepted

/-! ## Runs -/

/-- What happens to the queue: calls, the network coming and going, and an answer; `accepted` tells whether the
storage takes what is written in the step. The `online` event of the window is a call of `sync`. -/
inductive Act where
  | setAuthToken (token : Option String)
  | enqueue (id model : String) (operation : Operation) (data : Json) (accepted : Bool)
  | sync
  | connectivity (online : Bool)
  | answer (reply : Reply) (accepted : Bool)

/-- One step. The ids drawn are new. -/
def step (s : OfflineQueue) : Act → Option OfflineQueue
  | .setAuthToken token => some { s with authToken := token }
  | .enqueue id model operation data accepted =>
    if id ∈ s.enqueued.map (·.id) then none else some (s.enqueue id model operation data accepted)
  | .sync => some s.sync
  | .connectivity online => some { s with online }
  | .answer reply accepted => s.call.map fun call => s.resume call reply accepted

/-- A queue from its construction on, with whatever an earlier one has left in the storage. -/
def system : LabelledSystem OfflineQueue Act where
  init s := ∃ endpoint storage online, (storage.map QueuedMutation.id).Nodup ∧ s = load endpoint storage online
  step s a s' := s.step a = some s'

/-! ## What is claimed of it -/

end OfflineQueue

/-- The mutation has been carried out: a GraphQL answer without errors. -/
def Reply.succeeded (reply : Reply) : Bool :=
  reply.ok && !reply.errors

/-- Both mutations name the same record. -/
def QueuedMutation.SameRecord (m m' : QueuedMutation) : Prop :=
  m.model = m'.model ∧ (m.data.get? "id").isSome ∧ m.data.get? "id" = m'.data.get? "id"

instance (m m' : QueuedMutation) : Decidable (m.SameRecord m') :=
  inferInstanceAs (Decidable (_ ∧ _))

/-- In the list `a` stands before `b`. -/
def Before (ids : List String) (a b : String) : Prop :=
  [a, b].Sublist ids

instance (ids : List String) (a b : String) : Decidable (Before ids a b) :=
  inferInstanceAs (Decidable ([a, b].Sublist ids))

def Succeeded (log : List Event) (id : String) : Prop :=
  ∃ reply : Reply, .settled id reply ∈ log ∧ reply.succeeded = true

/-- The failed attempts of a mutation, an answer with GraphQL errors among them. -/
def failedAttempts (log : List Event) (id : String) : Nat :=
  log.countP fun
    | .settled id' reply => id' = id && !reply.succeeded
    | .sent _ _ => false

/-- No mutation is sent after it has succeeded. -/
def SentOnce (log : List Event) : Prop :=
  log.Pairwise fun newer older => ∀ id request reply,
    newer = .sent id request → older = .settled id reply → reply.succeeded = false

namespace OfflineQueue

/-- The failed attempts of a mutation that has been enqueued, with those before it was loaded. -/
def failures (s : OfflineQueue) (m : QueuedMutation) : Nat :=
  m.retries + failedAttempts s.log m.id

/-- Each mutation has been executed, or is in the queue and in the storage, or has failed five times. -/
def Accounted (s : OfflineQueue) : Prop :=
  ∀ m ∈ s.enqueued,
    Succeeded s.log m.id ∨ (m.id ∈ s.queue.map (·.id) ∧ m.id ∈ s.storage.map (·.id)) ∨ 5 ≤ s.failures m

/-- If the step carries out a mutation, then no earlier one of its record waits in the queue after a failure. -/
def InOrder (s : OfflineQueue) : Act → Prop
  | .answer reply _ => reply.succeeded = true → ∀ call, s.call = some call →
    ∀ m ∈ s.enqueued, Before (s.enqueued.map (·.id)) m.id call.current.id → m.SameRecord call.current →
      m.id ∈ s.queue.map (·.id) → s.failures m = 0
  | _ => True

/-- The step meets none of what the code leaves open. A mutation that is enqueued gets into the storage. An answer that
is taken for a success has no GraphQL errors, or ends the fifth attempt; the last answer of a sync finds nothing in
the queue that was not in its snapshot; and what is carried out stands in the queue behind no mutation of its record
that has been tried. -/
def Safe (s : OfflineQueue) : Act → Prop
  | .enqueue _ _ _ _ accepted => accepted = true
  | .answer reply _ => ∀ call, s.call = some call →
    (reply.ok = true → reply.errors = true → 4 ≤ call.current.retries) ∧
    (call.rest = [] → ∀ m ∈ s.queue, m.id ∈ call.toSync) ∧
    (reply.succeeded = true → ∀ m ∈ s.queue, Before (s.queue.map (·.id)) m.id call.current.id →
      m.SameRecord call.current → m.retries = 0)
  | _ => True

instance (s : OfflineQueue) (a : Act) : Decidable (s.Safe a) :=
  match a with
  | .enqueue _ _ _ _ accepted => inferInstanceAs (Decidable (accepted = true))
  | .answer reply _ => inferInstanceAs (Decidable (∀ call ∈ s.call,
      (reply.ok = true → reply.errors = true → 4 ≤ call.current.retries) ∧
      (call.rest = [] → ∀ m ∈ s.queue, m.id ∈ call.toSync) ∧
      (reply.succeeded = true → ∀ m ∈ s.queue, Before (s.queue.map (·.id)) m.id call.current.id →
        m.SameRecord call.current → m.retries = 0)))
  | .setAuthToken _ | .sync | .connectivity _ => isTrue trivial

end OfflineQueue

/-! ## Orders in lists -/

theorem Before.mono {ids ids' : List String} {a b : String} (hsub : ids.Sublist ids') (h : Before ids a b) :
    Before ids' a b :=
  h.trans hsub

/-- Two elements of a part of a list stand there as they do in the list. -/
theorem Before.of_sublist {ids ids' : List String} {a b : String} (hsub : ids.Sublist ids') (hnodup : ids'.Nodup)
    (h : Before ids' a b) (ha : a ∈ ids) (hb : b ∈ ids) : Before ids a b := by
  induction hsub with
  | slnil => cases ha
  | @cons ids ids' x hsub ih =>
    obtain ⟨hx, hnodup⟩ := List.nodup_cons.1 hnodup
    cases h with
    | cons _ h => exact ih hnodup h ha hb
    | cons_cons _ _ => exact absurd (hsub.subset ha) hx
  | @cons_cons ids ids' x hsub ih =>
    obtain ⟨hx, hnodup⟩ := List.nodup_cons.1 hnodup
    have hrest : ∀ c, c ∈ ids' → c ∈ x :: ids → c ∈ ids := by
      intro c hc hmem
      refine (List.mem_cons.1 hmem).resolve_left ?_
      rintro rfl
      exact hx hc
    cases h with
    | cons _ h =>
      have ha' := hrest a (h.subset (List.mem_cons_self ..)) ha
      have hb' := hrest b (h.subset (List.mem_cons_of_mem _ (List.mem_cons_self ..))) hb
      exact (ih hnodup h ha' hb').cons x
    | cons_cons _ h =>
      have hb' := hrest b (h.subset (List.mem_cons_self ..)) hb
      exact (List.singleton_sublist.2 hb').cons_cons a

/-! ## The invariant -/

theorem succeeded_sent {log : List Event} {id id' : String} {request : Request} :
    Succeeded (.sent id' request :: log) id ↔ Succeeded log id := by
  unfold Succeeded
  simp

theorem succeeded_settled {log : List Event} {id id' : String} {reply : Reply} :
    Succeeded (.settled id' reply :: log) id ↔ (id = id' ∧ reply.succeeded = true) ∨ Succeeded log id := by
  unfold Succeeded
  constructor
  · rintro ⟨r, hmem, hr⟩
    rcases List.mem_cons.1 hmem with heq | hmem
    · injection heq with hid hreply
      exact .inl ⟨hid, hreply ▸ hr⟩
    · exact .inr ⟨r, hmem, hr⟩
  · rintro (⟨rfl, hr⟩ | ⟨r, hmem, hr⟩)
    · exact ⟨reply, List.mem_cons_self .., hr⟩
    · exact ⟨r, List.mem_cons_of_mem _ hmem, hr⟩

theorem failedAttempts_sent {log : List Event} {id id' : String} {request : Request} :
    failedAttempts (.sent id' request :: log) id = failedAttempts log id :=
  List.countP_cons_of_neg (by simp)

theorem failedAttempts_settled {log : List Event} {id id' : String} {reply : Reply} :
    failedAttempts (.settled id' reply :: log) id =
      failedAttempts log id + if id' = id ∧ reply.succeeded = false then 1 else 0 := by
  unfold failedAttempts
  rw [List.countP_cons]
  simp

theorem failedAttempts_settled_self {log : List Event} {id : String} {reply : Reply} (h : reply.succeeded = false) :
    failedAttempts (.settled id reply :: log) id = failedAttempts log id + 1 := by
  rw [failedAttempts_settled, if_pos ⟨rfl, h⟩]

theorem failedAttempts_settled_ne {log : List Event} {id id' : String} {reply : Reply} (h : id ≠ id') :
    failedAttempts (.settled id' reply :: log) id = failedAttempts log id := by
  rw [failedAttempts_settled, if_neg fun hboth => h hboth.1.symm, Nat.add_zero]

/-- The queue, the storage, all that has been enqueued and what the network has seen: the queue is a part of what has
been enqueued, in its order, each mutation with its failed attempts counted, and nothing in it has succeeded. -/
structure Sound (queue storage enqueued : List QueuedMutation) (log : List Event) : Prop where
  nodup : (enqueued.map (·.id)).Nodup
  order : (queue.map (·.id)).Sublist (enqueued.map (·.id))
  counted : ∀ m ∈ queue, ∃ e ∈ enqueued, m = { e with retries := e.retries + failedAttempts log e.id }
  pending : ∀ m ∈ queue, ¬ Succeeded log m.id
  stored : ∀ m ∈ queue, m.id ∈ storage.map (·.id)
  known : ∀ id ∈ storage.map (·.id), id ∈ enqueued.map (·.id)
  answered : ∀ id reply, .settled id reply ∈ log → id ∈ enqueued.map (·.id)
  accounted : ∀ m ∈ enqueued, Succeeded log m.id ∨
    (m.id ∈ queue.map (·.id) ∧ m.id ∈ storage.map (·.id)) ∨ 5 ≤ m.retries + failedAttempts log m.id
  once : SentOnce log

/-- A sync that has got to `todo`: what it has not dropped of its snapshot is in the queue, and what else is in the
queue has not been tried. -/
structure Working (queue : List QueuedMutation) (toSync : List String) (failed todo : List QueuedMutation) : Prop where
  snapshot : (failed ++ todo).Sublist queue
  listed : ∀ m ∈ failed ++ todo, m.id ∈ toSync
  tried : ∀ m ∈ queue, m.id ∈ toSync → m.retries < 5 → m ∈ failed ++ todo
  fresh : ∀ m ∈ queue, m.id ∉ toSync → m.retries = 0

/-- What holds between two steps. -/
structure OfflineQueue.Consistent (s : OfflineQueue) : Prop where
  sound : Sound s.queue s.storage s.enqueued s.log
  working : ∀ call, s.call = some call → Working s.queue call.toSync call.failed (call.current :: call.rest)
  drawn : ∀ call, s.call = some call → ∀ id ∈ call.toSync, id ∈ s.enqueued.map (·.id)

section

variable {queue storage enqueued failed todo rest : List QueuedMutation} {log : List Event} {toSync : List String}
  {c m : QueuedMutation} {reply : Reply} {s s' : OfflineQueue}

theorem Sound.nodup_queue (h : Sound queue storage enqueued log) : (queue.map (·.id)).Nodup :=
  h.nodup.sublist h.order

theorem Sound.eq_of_id (h : Sound queue storage enqueued log) {e e' : QueuedMutation} (he : e ∈ enqueued)
    (he' : e' ∈ enqueued) (hid : e.id = e'.id) : e = e' :=
  List.inj_on_of_nodup_map h.nodup he he' hid

/-- Sending what has not succeeded changes nothing else. -/
theorem Sound.sent (h : Sound queue storage enqueued log) (hm : m ∈ queue) (request : Request) :
    Sound queue storage enqueued (.sent m.id request :: log) where
  nodup := h.nodup
  order := h.order
  counted := by
    simp only [failedAttempts_sent]
    exact h.counted
  pending := by
    simp only [succeeded_sent]
    exact h.pending
  stored := h.stored
  known := h.known
  answered id reply hmem := h.answered id reply ((List.mem_cons.1 hmem).resolve_left (by simp))
  accounted := by
    simp only [succeeded_sent, failedAttempts_sent]
    exact h.accounted
  once := by
    refine .cons (fun older holder id request reply hsent hsettled => ?_) h.once
    injection hsent with hid
    subst hid hsettled
    by_contra hreply
    exact h.pending m hm ⟨reply, holder, by simpa using hreply⟩

/-! ## What an answer does -/

/-- The objects of a snapshot have each their own id. -/
theorem Working.ne (h : Working queue toSync failed (c :: rest)) (hnodup : (queue.map (·.id)).Nodup)
    (hm : m ∈ failed ++ rest) : m.id ≠ c.id := by
  have hsnapshot := (h.snapshot.map (·.id)).nodup hnodup
  rw [List.map_append, List.map_cons, List.nodup_middle] at hsnapshot
  intro hid
  exact (List.nodup_cons.1 hsnapshot).1 (hid ▸ List.map_append ▸ List.mem_map_of_mem hm)

theorem Working.current_mem (h : Working queue toSync failed (c :: rest)) : c ∈ queue :=
  h.snapshot.subset (List.mem_append_right _ (List.mem_cons_self ..))

theorem Working.filter_snapshot (h : Working queue toSync failed (c :: rest)) (hnodup : (queue.map (·.id)).Nodup) :
    (failed ++ c :: rest).filter (·.id ≠ c.id) = failed ++ rest := by
  have hne := fun m hm => h.ne (m := m) hnodup hm
  rw [List.filter_append, List.filter_cons_of_neg (by simp)]
  rw [← List.filter_append, List.filter_eq_self]
  exact fun m hm => by simpa using hne m hm

/-- What is taken for a success leaves the queue. -/
theorem Working.removed (h : Working queue toSync failed (c :: rest)) (hnodup : (queue.map (·.id)).Nodup) :
    Working (queue.filter (·.id ≠ c.id)) toSync failed rest where
  snapshot := by
    rw [← h.filter_snapshot hnodup]
    exact h.snapshot.filter _
  listed m hm := h.listed m (by simp only [List.mem_append, List.mem_cons] at hm ⊢; exact hm.imp_right .inr)
  tried m hm hlisted hretries := by
    obtain ⟨hm, hne⟩ := List.mem_filter.1 hm
    have htried := h.tried m hm hlisted hretries
    rw [← h.filter_snapshot hnodup]
    exact List.mem_filter.2 ⟨htried, hne⟩
  fresh m hm := h.fresh m (List.mem_filter.1 hm).1

theorem mem_changed {q : QueuedMutation} {l : List QueuedMutation} :
    q ∈ changed m l ↔ (q ∈ l ∧ q.id ≠ m.id) ∨ (q = m ∧ m.id ∈ l.map (·.id)) := by
  unfold changed
  rw [List.mem_map]
  constructor
  · rintro ⟨p, hp, rfl⟩
    by_cases hid : p.id = m.id
    · rw [if_pos hid]
      exact .inr ⟨rfl, hid ▸ List.mem_map_of_mem hp⟩
    · rw [if_neg hid]
      exact .inl ⟨hp, hid⟩
  · rintro (⟨hq, hid⟩ | ⟨rfl, hmem⟩)
    · exact ⟨q, hq, if_neg hid⟩
    · obtain ⟨p, hp, hid⟩ := List.mem_map.1 hmem
      exact ⟨p, hp, if_pos hid⟩

theorem changed_of_ne {l : List QueuedMutation} (h : ∀ q ∈ l, q.id ≠ m.id) : changed m l = l := by
  unfold changed
  rw [List.map_congr_left fun q hq => if_neg (h q hq)]
  exact List.map_id' l

theorem ids_changed (m : QueuedMutation) (l : List QueuedMutation) : (changed m l).map (·.id) = l.map (·.id) := by
  unfold changed
  rw [List.map_map]
  refine List.map_congr_left fun q _ => ?_
  rw [Function.comp_apply]
  split
  · next hid => exact hid.symm
  · rfl

theorem Working.changed_snapshot (h : Working queue toSync failed (c :: rest)) (hnodup : (queue.map (·.id)).Nodup) :
    changed c.retried (failed ++ c :: rest) = failed ++ c.retried :: rest := by
  have hfailed := changed_of_ne (m := c.retried) fun q hq => h.ne hnodup (List.mem_append_left rest hq)
  have hrest := changed_of_ne (m := c.retried) fun q hq => h.ne hnodup (List.mem_append_right failed hq)
  unfold changed at hfailed hrest ⊢
  rw [List.map_append, List.map_cons, hfailed, hrest]
  exact congrArg (failed ++ · :: rest) (if_pos rfl)

/-- A failed attempt is counted at the object, wherever it is. -/
theorem Working.counted (h : Working queue toSync failed (c :: rest)) (hnodup : (queue.map (·.id)).Nodup) :
    Working (changed c.retried queue) toSync (if c.retried.retries < 5 then failed ++ [c.retried] else failed) rest := by
  have hsnapshot : (failed ++ c.retried :: rest).Sublist (changed c.retried queue) :=
    h.changed_snapshot hnodup ▸ h.snapshot.map _
  have hkept : (if c.retried.retries < 5 then failed ++ [c.retried] else failed) ++ rest |>.Sublist
      (failed ++ c.retried :: rest) := by
    split
    · rw [List.append_assoc, List.singleton_append]
    · exact (List.sublist_cons_self _ _).append_left failed
  refine ⟨hkept.trans hsnapshot, fun m hm => ?_, fun m hm hlisted hretries => ?_, fun m hm hlisted => ?_⟩
  · have hmem := hkept.subset hm
    simp only [List.mem_append, List.mem_cons] at hmem
    rcases hmem with hm | rfl | hm
    · exact h.listed m (List.mem_append_left _ hm)
    · exact h.listed c (List.mem_append_right _ (List.mem_cons_self ..))
    · exact h.listed m (List.mem_append_right _ (List.mem_cons_of_mem _ hm))
  · rcases mem_changed.1 hm with ⟨hm, hid⟩ | ⟨rfl, -⟩
    · have htried := h.tried m hm hlisted hretries
      simp only [List.mem_append, List.mem_cons] at htried
      rcases htried with hm | rfl | hm
      · refine List.mem_append_left _ ?_
        split
        · exact List.mem_append_left _ hm
        · exact hm
      · exact absurd rfl hid
      · exact List.mem_append_right _ hm
    · rw [if_pos hretries]
      simp
  · rcases mem_changed.1 hm with ⟨hm, -⟩ | ⟨rfl, -⟩
    · exact h.fresh m hm hlisted
    · exact absurd (h.listed c (List.mem_append_right _ (List.mem_cons_self ..))) hlisted

/-- The mutation that an object of the queue has been enqueued as. -/
theorem Sound.retries_eq (h : Sound queue storage enqueued log) {e : QueuedMutation} (he : e ∈ enqueued)
    (hm : m ∈ queue) (hid : m.id = e.id) : m.retries = e.retries + failedAttempts log e.id := by
  obtain ⟨e', he', hcounted⟩ := h.counted m hm
  have hsame : e' = e := h.eq_of_id he' he (by rw [← hid, hcounted])
  rw [hcounted, hsame]

theorem Sound.settled (h : Sound queue storage enqueued log) (hc : c ∈ queue) {queue' : List QueuedMutation}
    (horder : (queue'.map (·.id)).Sublist (queue.map (·.id)))
    (hcounted : ∀ m ∈ queue', (m ∈ queue ∧ m.id ≠ c.id) ∨ (m = c.retried ∧ reply.succeeded = false))
    (hkept : ∀ m ∈ queue, m.id ≠ c.id → m.id ∈ queue'.map (·.id))
    (hcurrent : reply.succeeded = true ∨ c.id ∈ queue'.map (·.id) ∨ 4 ≤ c.retries) :
    Sound queue' storage enqueued (.settled c.id reply :: log) where
  nodup := h.nodup
  order := horder.trans h.order
  counted m hm := by
    rcases hcounted m hm with ⟨hm, hne⟩ | ⟨rfl, hfailed⟩
    · obtain ⟨e, he, heq⟩ := h.counted m hm
      refine ⟨e, he, ?_⟩
      have hne' : e.id ≠ c.id := by
        rintro hid
        exact hne (by rw [heq, hid])
      rw [failedAttempts_settled_ne hne']
      exact heq
    · obtain ⟨e, he, heq⟩ := h.counted c hc
      refine ⟨e, he, ?_⟩
      have hid : c.id = e.id := by rw [heq]
      rw [hid, failedAttempts_settled_self hfailed, QueuedMutation.retried, heq]
      rfl
  pending m hm := by
    rw [succeeded_settled]
    rcases hcounted m hm with ⟨hm, hne⟩ | ⟨rfl, hfailed⟩
    · rintro (⟨hid, -⟩ | hsucceeded)
      · exact hne hid
      · exact h.pending m hm hsucceeded
    · rintro (⟨-, hreply⟩ | hsucceeded)
      · rw [hfailed] at hreply
        cases hreply
      · exact h.pending c hc hsucceeded
  stored m hm := by
    rcases hcounted m hm with ⟨hm, -⟩ | ⟨rfl, -⟩
    · exact h.stored m hm
    · exact h.stored c hc
  known := h.known
  answered id reply' hmem := by
    rcases List.mem_cons.1 hmem with heq | hmem
    · injection heq with hid
      exact hid ▸ h.order.subset (List.mem_map_of_mem hc)
    · exact h.answered id reply' hmem
  accounted e he := by
    rw [succeeded_settled]
    by_cases hid : e.id = c.id
    · by_cases hreply : reply.succeeded = true
      · exact .inl (.inl ⟨hid, hreply⟩)
      · have hfailed : reply.succeeded = false := by simpa using hreply
        rcases hcurrent.resolve_left hreply with hmem | hretries
        · exact .inr (.inl ⟨hid ▸ hmem, hid ▸ h.stored c hc⟩)
        · have hsame := h.retries_eq he hc hid.symm
          rw [hid, failedAttempts_settled_self hfailed, ← hid]
          omega
    · rw [failedAttempts_settled_ne hid]
      refine (h.accounted e he).imp .inr (.imp_left fun hmem => ⟨?_, hmem.2⟩)
      obtain ⟨m, hm, hmid⟩ := List.mem_map.1 hmem.1
      exact hmid ▸ hkept m hm (hmid ▸ hid)
  once := .cons (fun _ _ _ _ _ hsent => Event.noConfusion hsent) h.once

/-! ## Steps -/

theorem Sound.failedAttempts_fresh {id : String} (h : Sound queue storage enqueued log)
    (hfresh : id ∉ enqueued.map (·.id)) : failedAttempts log id = 0 := by
  refine List.countP_eq_zero.2 fun event hevent => ?_
  cases event with
  | sent id' request => exact Bool.false_ne_true
  | settled id' reply =>
    have hne : id' ≠ id := fun hid => hfresh (hid ▸ h.answered id' reply hevent)
    simp [hne]

theorem Sound.not_succeeded_fresh {id : String} (h : Sound queue storage enqueued log)
    (hfresh : id ∉ enqueued.map (·.id)) : ¬ Succeeded log id := by
  rintro ⟨reply, hmem, -⟩
  exact hfresh (h.answered _ reply hmem)

/-- A new mutation is put at the end of the queue, and the storage takes it. -/
theorem Sound.enqueue (h : Sound queue storage enqueued log) (hfresh : m.id ∉ enqueued.map (·.id)) :
    Sound (queue ++ [m]) (queue ++ [m]) (enqueued ++ [m]) log := by
  have hattempts := h.failedAttempts_fresh hfresh
  have hpending := h.not_succeeded_fresh hfresh
  refine ⟨?_, ?_, fun q hq => ?_, fun q hq => ?_, fun q hq => List.mem_map_of_mem hq, fun id hid => ?_,
    fun id reply hmem => ?_, fun q hq => ?_, h.once⟩
  · rw [List.map_append]
    exact h.nodup.append (by simp) (by simpa using hfresh)
  · rw [List.map_append, List.map_append]
    exact h.order.append (.refl _)
  · rcases List.mem_append.1 hq with hq | hq
    · obtain ⟨e, he, heq⟩ := h.counted q hq
      exact ⟨e, List.mem_append_left _ he, heq⟩
    · obtain rfl := List.mem_singleton.1 hq
      exact ⟨q, List.mem_append_right _ hq, by rw [hattempts]; rfl⟩
  · rcases List.mem_append.1 hq with hq | hq
    · exact h.pending q hq
    · obtain rfl := List.mem_singleton.1 hq
      exact hpending
  · rw [List.map_append] at hid ⊢
    exact List.mem_append.2 ((List.mem_append.1 hid).imp_left (h.order.subset ·))
  · rw [List.map_append]
    exact List.mem_append_left _ (h.answered id reply hmem)
  · have hnew : ∀ q ∈ queue ++ [m], Succeeded log q.id ∨ (q.id ∈ (queue ++ [m]).map (·.id) ∧
        q.id ∈ (queue ++ [m]).map (·.id)) ∨ 5 ≤ q.retries + failedAttempts log q.id := fun q hq =>
      .inr (.inl ⟨List.mem_map_of_mem hq, List.mem_map_of_mem hq⟩)
    rcases List.mem_append.1 hq with hq | hq
    · refine (h.accounted q hq).imp_right (.imp_left fun hmem => ?_)
      have hmem' : q.id ∈ (queue ++ [m]).map (·.id) := by
        rw [List.map_append]
        exact List.mem_append_left _ hmem.1
      exact ⟨hmem', hmem'⟩
    · exact hnew q (List.mem_append_right _ hq)

theorem Working.enqueue (h : Working queue toSync failed todo) (hfresh : m.id ∉ toSync) (hretries : m.retries = 0) :
    Working (queue ++ [m]) toSync failed todo where
  snapshot := h.snapshot.trans (List.sublist_append_left _ _)
  listed := h.listed
  tried q hq hlisted := by
    rcases List.mem_append.1 hq with hq | hq
    · exact h.tried q hq hlisted
    · obtain rfl := List.mem_singleton.1 hq
      exact absurd hlisted hfresh
  fresh q hq hlisted := by
    rcases List.mem_append.1 hq with hq | hq
    · exact h.fresh q hq hlisted
    · obtain rfl := List.mem_singleton.1 hq
      exact hretries

/-- At the end of a sync the queue is what has failed in it. Nothing is lost if all of the queue was in the snapshot. -/
theorem Sound.finish (h : Sound queue storage enqueued log) (hworking : Working queue toSync failed [])
    (hall : ∀ m ∈ queue, m.id ∈ toSync) (accepted : Bool) :
    Sound failed (if accepted then failed else storage) enqueued log := by
  have hsub : failed.Sublist queue := List.append_nil failed ▸ hworking.snapshot
  have hstored : ∀ m ∈ failed, m.id ∈ (if accepted then failed else storage).map (·.id) := by
    intro m hm
    split
    · exact List.mem_map_of_mem hm
    · exact h.stored m (hsub.subset hm)
  refine ⟨h.nodup, (hsub.map _).trans h.order, fun m hm => h.counted m (hsub.subset hm),
    fun m hm => h.pending m (hsub.subset hm), hstored, fun id hid => ?_, h.answered, fun e he => ?_, h.once⟩
  · split at hid
    · exact h.order.subset ((hsub.map _).subset hid)
    · exact h.known id hid
  · refine (h.accounted e he).imp_right fun hkept => ?_
    rcases hkept with ⟨hmem, -⟩ | hfailures
    · obtain ⟨m, hm, hid⟩ := List.mem_map.1 hmem
      have hretries := h.retries_eq he hm hid
      by_cases hfew : m.retries < 5
      · have htried := hworking.tried m hm (hall m hm) hfew
        rw [List.append_nil] at htried
        exact .inl ⟨hid ▸ List.mem_map_of_mem htried, hid ▸ hstored m htried⟩
      · exact .inr (by omega)
    · exact .inr hfailures

namespace OfflineQueue

theorem Consistent.sync (h : s.Consistent) : s.sync.Consistent := by
  unfold OfflineQueue.sync
  split
  · exact h
  · split
    · exact h
    · next m rest hqueue =>
      have hm : m ∈ s.queue := hqueue ▸ List.mem_cons_self ..
      refine ⟨h.sound.sent hm _, fun call hcall => ?_, fun call hcall => ?_⟩
      · cases hcall
        refine ⟨?_, fun q hq => ?_, fun q hq _ _ => ?_, fun q hq hlisted => ?_⟩
        · rw [hqueue]
          exact .refl _
        · exact List.mem_map_of_mem (hqueue ▸ hq)
        · exact hqueue ▸ hq
        · exact absurd (List.mem_map_of_mem hq) hlisted
      · cases hcall
        exact fun id hid => h.sound.order.subset hid

theorem Consistent.enqueue (h : s.Consistent) {id model : String} {operation : Operation} {data : Json}
    (hfresh : id ∉ s.enqueued.map (·.id)) : (s.enqueue id model operation data true).Consistent := by
  have hbase : Consistent
      { s with
        queue := s.queue ++ [⟨id, model, operation, data, 0⟩]
        storage := s.queue ++ [⟨id, model, operation, data, 0⟩]
        enqueued := s.enqueued ++ [⟨id, model, operation, data, 0⟩] } := by
    refine ⟨h.sound.enqueue hfresh, fun call hcall => ?_, fun call hcall id' hid => ?_⟩
    · exact (h.working call hcall).enqueue (fun hlisted => hfresh (h.drawn call hcall id hlisted)) rfl
    · rw [List.map_append]
      exact List.mem_append_left _ (h.drawn call hcall id' hid)
  unfold OfflineQueue.enqueue
  dsimp only
  split
  · exact hbase.sync
  · exact hbase

/-- An answer is settled: what has been executed, or is taken for it, leaves the queue, and a failed attempt is
counted. -/
theorem settle_spec (h : s.Consistent) {call : SyncCall} (hcall : s.call = some call)
    (herrors : reply.ok = true → reply.errors = true → 4 ≤ call.current.retries) :
    Sound (s.settle call reply).1 s.storage s.enqueued (.settled call.current.id reply :: s.log) ∧
      Working (s.settle call reply).1 call.toSync (s.settle call reply).2 call.rest := by
  have hworking := h.working call hcall
  have hnodup := h.sound.nodup_queue
  have hc := hworking.current_mem
  unfold OfflineQueue.settle
  split
  · next hok =>
    refine ⟨h.sound.settled hc (List.filter_sublist.map _) (fun m hm => ?_) (fun m hm hne => ?_) ?_,
      hworking.removed hnodup⟩
    · obtain ⟨hm, hne⟩ := List.mem_filter.1 hm
      exact .inl ⟨hm, by simpa using hne⟩
    · exact List.mem_map_of_mem (List.mem_filter.2 ⟨hm, by simpa using hne⟩)
    · cases herr : reply.errors with
      | true => exact .inr (.inr (herrors hok herr))
      | false => exact .inl (by rw [Reply.succeeded, hok, herr]; rfl)
  · next hok =>
    have hfailed : reply.succeeded = false := by
      rw [Reply.succeeded, Bool.eq_false_iff.2 hok]
      rfl
    have hids := ids_changed call.current.retried s.queue
    refine ⟨h.sound.settled hc (hids ▸ .refl _) (fun m hm => ?_) (fun m hm _ => ?_) (.inr (.inl ?_)),
      hworking.counted hnodup⟩
    · exact (mem_changed.1 hm).imp_right fun hm => ⟨hm.1, hfailed⟩
    · rw [hids]
      exact List.mem_map_of_mem hm
    · rw [hids]
      exact List.mem_map_of_mem hc

theorem settle_ids (s : OfflineQueue) (call : SyncCall) (reply : Reply) :
    ((s.settle call reply).1.map (·.id)).Sublist (s.queue.map (·.id)) := by
  unfold settle
  split
  · exact List.filter_sublist.map _
  · exact ids_changed call.current.retried s.queue ▸ .refl _

theorem Consistent.resume (h : s.Consistent) {call : SyncCall} (hcall : s.call = some call) {accepted : Bool}
    (hsafe : s.Safe (.answer reply accepted)) : (s.resume call reply accepted).Consistent := by
  obtain ⟨herrors, hlast, -⟩ := hsafe call hcall
  obtain ⟨hsound, hworking⟩ := settle_spec h hcall herrors
  have hids := settle_ids s call reply
  unfold OfflineQueue.resume
  generalize s.settle call reply = settled at hsound hworking hids ⊢
  obtain ⟨queue, failed⟩ := settled
  dsimp only at hsound hworking hids ⊢
  split
  · next next rest hrest =>
    rw [hrest] at hworking
    refine ⟨hsound.sent hworking.current_mem _, fun call' hcall' => ?_, fun call' hcall' => ?_⟩
    · cases hcall'
      exact hworking
    · cases hcall'
      exact h.drawn call hcall
  · next hrest =>
    rw [hrest] at hworking
    have hall : ∀ m ∈ queue, m.id ∈ call.toSync := by
      intro m hm
      obtain ⟨q, hq, hid⟩ := List.mem_map.1 (hids.subset (List.mem_map_of_mem hm))
      exact hid ▸ hlast hrest q hq
    have hfinish := hsound.finish hworking hall accepted
    unfold saveToStorage
    cases accepted with
    | true => exact ⟨hfinish, nofun, nofun⟩
    | false => exact ⟨hfinish, nofun, nofun⟩

/-! ## When a step loses nothing -/

/-- A step keeps what is claimed if it meets none of what the code leaves open. -/
theorem Consistent.step (h : s.Consistent) {a : Act} (hstep : s.step a = some s') (hsafe : s.Safe a) :
    s'.Consistent := by
  cases a with
  | setAuthToken token =>
    cases hstep
    exact ⟨h.sound, h.working, h.drawn⟩
  | connectivity online =>
    cases hstep
    exact ⟨h.sound, h.working, h.drawn⟩
  | sync =>
    cases hstep
    exact h.sync
  | enqueue id model operation data accepted =>
    unfold OfflineQueue.step at hstep
    dsimp only at hstep
    split_ifs at hstep with hfresh
    cases hstep
    obtain rfl : accepted = true := hsafe
    exact h.enqueue hfresh
  | answer reply accepted =>
    obtain ⟨call, hcall, rfl⟩ := Option.map_eq_some_iff.1 hstep
    exact h.resume hcall hsafe

/-- The order that the objects of the queue show is that of the mutations as they have been enqueued. -/
theorem inOrder_iff (h : s.Consistent) {call : SyncCall} (hcall : s.call = some call) :
    (∀ m ∈ s.enqueued, Before (s.enqueued.map (·.id)) m.id call.current.id → m.SameRecord call.current →
      m.id ∈ s.queue.map (·.id) → s.failures m = 0) ↔
    ∀ m ∈ s.queue, Before (s.queue.map (·.id)) m.id call.current.id → m.SameRecord call.current → m.retries = 0 := by
  constructor
  · intro horder m hm hbefore hsame
    obtain ⟨e, he, heq⟩ := h.sound.counted m hm
    have hid : m.id = e.id := by rw [heq]
    have hsame' : e.SameRecord call.current := by
      rw [heq] at hsame
      exact hsame
    have hzero := horder e he (hid ▸ hbefore.mono h.sound.order) hsame' (hid ▸ List.mem_map_of_mem hm)
    rw [h.sound.retries_eq he hm hid]
    exact hzero
  · intro horder e he hbefore hsame hmem
    obtain ⟨m, hm, hid⟩ := List.mem_map.1 hmem
    obtain ⟨e', he', heq⟩ := h.sound.counted m hm
    obtain rfl : e' = e := h.sound.eq_of_id he' he (by rw [← hid, heq])
    have hcurrent := List.mem_map_of_mem (f := QueuedMutation.id) (h.working call hcall).current_mem
    have hbefore' := hbefore.of_sublist h.sound.order h.sound.nodup hmem hcurrent
    have hsame' : m.SameRecord call.current := by
      rw [heq]
      exact hsame
    have hzero := horder m hm (hid ▸ hbefore') hsame'
    rw [h.sound.retries_eq he hm hid] at hzero
    exact hzero

theorem accounted_resume {call : SyncCall} {accepted : Bool} (h : (s.resume call reply accepted).Accounted)
    {e : QueuedMutation} (he : e ∈ s.enqueued) :
    Succeeded (.settled call.current.id reply :: s.log) e.id ∨
      e.id ∈ (if call.rest = [] then (s.settle call reply).2 else (s.settle call reply).1).map (·.id) ∨
      5 ≤ e.retries + failedAttempts (.settled call.current.id reply :: s.log) e.id := by
  unfold OfflineQueue.resume at h
  cases hrest : call.rest with
  | nil =>
    rw [hrest] at h
    unfold saveToStorage at h
    cases accepted with
    | true => exact (h e he).imp_right (.imp_left And.left)
    | false => exact (h e he).imp_right (.imp_left And.left)
  | cons next rest =>
    rw [hrest] at h
    have haccounted := h e he
    unfold executeMutation failures at haccounted
    simp only [succeeded_sent, failedAttempts_sent] at haccounted
    exact haccounted.imp_right (.imp_left And.left)

theorem settle_failed_listed {call : SyncCall} {toSync : List String}
    (h : Working s.queue toSync call.failed (call.current :: call.rest)) (hm : m ∈ (s.settle call reply).2) :
    m.id ∈ toSync := by
  unfold settle at hm
  have hfailed : m ∈ call.failed ∨ m = call.current.retried := by
    split at hm
    · exact .inl hm
    · dsimp only at hm
      split at hm
      · exact (List.mem_append.1 hm).imp_right List.mem_singleton.1
      · exact .inl hm
  rcases hfailed with hm | rfl
  · exact h.listed m (List.mem_append_left _ hm)
  · exact h.listed call.current (List.mem_append_right _ (List.mem_cons_self ..))

/-- If the accounts are right after an answer, then it has met neither of what loses a mutation. -/
theorem safe_of_accounted (h : s.Consistent) {call : SyncCall} (hcall : s.call = some call) {accepted : Bool}
    (haccounted : (s.resume call reply accepted).Accounted) :
    (reply.ok = true → reply.errors = true → 4 ≤ call.current.retries) ∧
      (call.rest = [] → ∀ m ∈ s.queue, m.id ∈ call.toSync) := by
  have hworking := h.working call hcall
  refine ⟨fun hok herrors => ?_, fun hrest m hm => ?_⟩
  · have hc := hworking.current_mem
    obtain ⟨e, he, heq⟩ := h.sound.counted _ hc
    have hid : call.current.id = e.id := by rw [heq]
    have hfailed : reply.succeeded = false := by
      rw [Reply.succeeded, hok, herrors]
      rfl
    have hsettle : s.settle call reply = (s.queue.filter (·.id ≠ call.current.id), call.failed) := if_pos hok
    have hlost := accounted_resume haccounted he
    rw [succeeded_settled, hid, failedAttempts_settled_self hfailed, hsettle] at hlost
    rcases hlost with (⟨-, hreply⟩ | hsucceeded) | hmem | hattempts
    · rw [hfailed] at hreply
      cases hreply
    · exact absurd (hid ▸ hsucceeded) (h.sound.pending _ hc)
    · obtain ⟨q, hq, hqid⟩ := List.mem_map.1 hmem
      rw [← hid] at hqid
      split at hq
      · exact absurd hqid (hworking.ne h.sound.nodup_queue (List.mem_append_left _ hq))
      · exact absurd hqid (by simpa using (List.mem_filter.1 hq).2)
    · have hretries := h.sound.retries_eq he hc hid
      omega
  · by_contra hunlisted
    obtain ⟨e, he, heq⟩ := h.sound.counted m hm
    have hid : m.id = e.id := by rw [heq]
    have hcurrent : call.current.id ∈ call.toSync :=
      hworking.listed call.current (List.mem_append_right _ (List.mem_cons_self ..))
    have hne : e.id ≠ call.current.id := fun heid => hunlisted (by rw [hid, heid]; exact hcurrent)
    have hlost := accounted_resume haccounted he
    rw [succeeded_settled, failedAttempts_settled_ne hne, if_pos hrest] at hlost
    rcases hlost with (⟨heid, -⟩ | hsucceeded) | hmem | hattempts
    · exact hne heid
    · exact h.sound.pending m hm (hid ▸ hsucceeded)
    · obtain ⟨q, hq, hqid⟩ := List.mem_map.1 hmem
      have hlisted := settle_failed_listed hworking hq
      rw [hqid, ← hid] at hlisted
      exact hunlisted hlisted
    · have hretries := h.sound.retries_eq he hm hid
      have hfresh := hworking.fresh m hm hunlisted
      omega

/-- The start of a sync settles nothing. -/
theorem accounted_sync : s.sync.Accounted ↔ s.Accounted := by
  unfold OfflineQueue.sync
  split
  · rfl
  · split
    · rfl
    · unfold Accounted executeMutation failures
      simp only [succeeded_sent, failedAttempts_sent]

/-- A mutation that the storage has refused is in the queue only. -/
theorem accepted_of_accounted (h : s.Consistent) {id model : String} {operation : Operation} {data : Json}
    {accepted : Bool} (hfresh : id ∉ s.enqueued.map (·.id))
    (haccounted : (s.enqueue id model operation data accepted).Accounted) : accepted = true := by
  cases accepted with
  | true => rfl
  | false =>
    have hbase : Accounted
        { s with
          queue := s.queue ++ [⟨id, model, operation, data, 0⟩]
          enqueued := s.enqueued ++ [⟨id, model, operation, data, 0⟩] } := by
      unfold OfflineQueue.enqueue at haccounted
      dsimp only at haccounted
      split at haccounted
      · exact accounted_sync.1 haccounted
      · exact haccounted
    have hnone := h.sound.failedAttempts_fresh hfresh
    rcases hbase ⟨id, model, operation, data, 0⟩ (List.mem_append_right _ (List.mem_singleton_self _)) with
      hsucceeded | ⟨-, hstored⟩ | hattempts
    · exact absurd hsucceeded (h.sound.not_succeeded_fresh hfresh)
    · exact absurd (h.sound.known id hstored) hfresh
    · unfold failures at hattempts
      dsimp only at hattempts
      omega

/-- A step keeps what is claimed exactly if it meets none of what the code leaves open. -/
theorem keeps_iff_safe (h : s.Consistent) {a : Act} (hstep : s.step a = some s') :
    (s'.Accounted ∧ SentOnce s'.log ∧ s.InOrder a) ↔ s.Safe a := by
  constructor
  · rintro ⟨haccounted, -, horder⟩
    cases a with
    | enqueue id model operation data accepted =>
      unfold OfflineQueue.step at hstep
      dsimp only at hstep
      split_ifs at hstep with hfresh
      cases hstep
      exact accepted_of_accounted h hfresh haccounted
    | answer reply accepted =>
      obtain ⟨call, hcall, rfl⟩ := Option.map_eq_some_iff.1 hstep
      intro call' hcall'
      obtain rfl : call = call' := Option.some.inj (hcall.symm.trans hcall')
      obtain ⟨herrors, hlast⟩ := safe_of_accounted h hcall haccounted
      exact ⟨herrors, hlast, fun hreply => (inOrder_iff h hcall).1 (horder hreply call hcall)⟩
    | _ => trivial
  · intro hsafe
    have hnext := h.step hstep hsafe
    refine ⟨hnext.sound.accounted, hnext.sound.once, ?_⟩
    cases a with
    | answer reply accepted =>
      intro hreply call hcall
      exact (inOrder_iff h hcall).2 ((hsafe call hcall).2.2 hreply)
    | _ => trivial

/-- The accounts are right at the start, and nothing has been sent. -/
theorem consistent_init {s₀ : OfflineQueue} (h₀ : system.init s₀) : s₀.Consistent := by
  obtain ⟨endpoint, storage, online, hnodup, rfl⟩ := h₀
  refine ⟨⟨hnodup, .refl _, fun m hm => ⟨m, hm, rfl⟩, fun m hm => ?_, fun m hm => List.mem_map_of_mem hm,
    fun id hid => hid, nofun, fun m hm => .inr (.inl ⟨List.mem_map_of_mem hm, List.mem_map_of_mem hm⟩), .nil⟩,
    nofun, nofun⟩
  rintro ⟨reply, hmem, -⟩
  cases hmem

theorem step_unique {a : Act} {t t' : OfflineQueue} (h : system.step s a t) (h' : system.step s a t') : t = t' :=
  Option.some.inj (h.symm.trans h')

end OfflineQueue

end

/-! ## One edit during a sync -/

namespace OfflineQueue

def contact (name : String) : Json :=
  .object [("firstName", .string name)]

def emptyQueue : OfflineQueue :=
  load "http://localhost:3000" [] true

def retried : List Act :=
  [.enqueue "m1" "Contact" .create (contact "Ada") true, .answer (.response 503 false) true,
    .enqueue "m2" "Contact" .create (contact "Bo") true, .answer (.response 200 false) true, .answer .rejected true]

/-- The queue while a contact is being sent, and another has just been entered. -/
def edited : OfflineQueue :=
  (emptyQueue.enqueue "m1" "Contact" .create (contact "Ada") true).enqueue "m2" "Contact" .create (contact "Bo") true

end OfflineQueue

end Atomo.Sdk
