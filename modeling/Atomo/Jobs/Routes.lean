import Atomo.Jobs.Fencing
import Mathlib.Data.List.Induction

/-!
# The application routes of the job queue

`POST /jobs` and `GET /jobs/{id}` of `job_routes.rs`, for users of any tenants. The index
`jobs_idempotency` is on `(queue, idempotency_key)` and leaves the tenant out, so a tenant is on its own
exactly as far as nobody else has used its keys before it (`isolated_iff`). No job is ever removed, so that
the two statements of an `enqueue` find the same row, and a request is served as a whole.
-/

namespace Atomo.Jobs

/-- What the routes read of `AuthUser`. -/
structure AuthUser where
  tenantId : Option String
  deriving DecidableEq

/-- `EnqueueReq` with its defaults. -/
structure EnqueueReq where
  queue : String
  kind : String
  payload : Json := .null
  idempotencyKey : Option String := none
  maxAttempts : Int := 5
  priority : Int := 0

/-- `JobView`. -/
structure JobView where
  id : String
  queue : String
  kind : String
  status : Status
  attempts : Int
  maxAttempts : Int
  result : Option Json
  error : Option String
  tenantId : Option String

inductive Response where
  | unauthorized
  | badRequest
  | created (id : String)
  | found (view : JobView)
  | notFound
  | serverError

inductive AppRequest where
  | enqueue (req : EnqueueReq)
  | getJob (id : String)

/-- A request with the user of its session, if it has one. -/
structure Arrival where
  user : Option AuthUser
  request : AppRequest

/-- What a request leads to; `created` tells whether an `enqueue` has inserted a row. -/
structure Served where
  store : Store
  response : Response
  created : Option Bool := none

/-- `JobStore::get`. -/
def get (s : Store) (id : String) : Option JobView :=
  (Table.find Job.id id s.rows).map fun j =>
    { id := j.id, queue := j.queue, kind := j.kind, status := j.status, attempts := j.attempts
      maxAttempts := j.maxAttempts, result := j.result, error := j.error, tenantId := j.tenantId }

/-- `get_job`. -/
def getJob (s : Store) (user : Option AuthUser) (id : String) : Response :=
  match user with
  | none => .unauthorized
  | some user =>
    match get s id with
    | none => .notFound
    | some view => if view.tenantId.any fun tenant => user.tenantId ≠ some tenant then .notFound else .found view

/-- The payload of a request; null stands for the empty object. -/
def EnqueueReq.content (req : EnqueueReq) : Json :=
  match req.payload with
  | .null => .object []
  | payload => payload

/-- The arguments that the route calls `enqueue` with. -/
def EnqueueReq.job (req : EnqueueReq) (user : AuthUser) (newId : String) : NewJob where
  newId
  queue := req.queue
  kind := req.kind
  payload := req.content
  idempotencyKey := req.idempotencyKey
  maxAttempts := max 1 (min req.maxAttempts 1000)
  priority := req.priority
  tenantId := user.tenantId

/-- The call of `enqueue`, with the id that it draws. -/
def serveJob (u : Uuids) (s : Store) (user : AuthUser) (req : EnqueueReq) : Served :=
  let done := enqueue s (req.job user (u.draw s.drawn))
  let store := { done.store with drawn := s.drawn + 1 }
  match done.reply with
  | .enqueued id created => ⟨store, .created id, some created⟩
  | _ => ⟨store, .serverError, none⟩

/-- The route `enqueue`. -/
def enqueueRoute (u : Uuids) (s : Store) (user : Option AuthUser) (req : EnqueueReq) : Served :=
  match user with
  | none => ⟨s, .unauthorized, none⟩
  | some user => if req.queue = "" ∨ req.kind = "" then ⟨s, .badRequest, none⟩ else serveJob u s user req

def serve (u : Uuids) (s : Store) (a : Arrival) : Served :=
  match a.request with
  | .enqueue req => enqueueRoute u s a.user req
  | .getJob id => ⟨s, getJob s a.user id, none⟩

/-- The store after some requests. -/
def storeAfter (u : Uuids) (s : Store) (arrivals : List Arrival) : Store :=
  arrivals.foldl (fun s a => (serve u s a).store) s

/-! ## The view of a tenant -/

/-- The user and the request of an `enqueue` that gets as far as the store. -/
def Arrival.accepted? (a : Arrival) : Option (AuthUser × EnqueueReq) :=
  match a.user, a.request with
  | some user, .enqueue req => if req.queue = "" ∨ req.kind = "" then none else some (user, req)
  | _, _ => none

/-- The use of a key on a queue by a tenant, or by a user who has none. -/
structure Use where
  queue : String
  key : String
  tenant : Option String
  deriving DecidableEq

def Arrival.use? (a : Arrival) : Option Use :=
  a.accepted?.bind fun (user, req) => req.idempotencyKey.map fun key => ⟨req.queue, key, user.tenantId⟩

def Arrival.ofTenant (tenant : Option String) (a : Arrival) : Bool :=
  a.user.any fun user => user.tenantId = tenant

/-- The uses of a key on a queue, in order. -/
def uses (arrivals : List Arrival) (queue key : String) : List Use :=
  (arrivals.filterMap Arrival.use?).filter fun use => use.queue = queue ∧ use.key = key

/-- The tenant itself has used the key of a request on its queue before. -/
def ownUse (tenant : Option String) (before : List Arrival) (req : EnqueueReq) : Bool :=
  req.idempotencyKey.any fun key => (uses before req.queue key).any fun use => use.tenant = tenant

/-- What a tenant is told of its own requests to enqueue: whether a job was created. -/
def results (u : Uuids) (tenant : Option String) : Store → List Arrival → List (Option Bool)
  | _, [] => []
  | s, a :: arrivals =>
    let served := serve u s a
    if a.accepted?.any fun (user, _) => user.tenantId = tenant then
      served.created :: results u tenant served.store arrivals
    else results u tenant served.store arrivals

/-- How a request of a tenant to enqueue is served, between others before it and after it. -/
structure ServedWell (u : Uuids) (now : Int) (user : AuthUser) (req : EnqueueReq) (before : List Arrival) (a : Arrival)
    (after : List Arrival) : Prop where
  created : ownUse user.tenantId before req = false →
    (serve u (storeAfter u (emptyStore now) before) a).created = some true ∧
    ∃ job ∈ (storeAfter u (emptyStore now) (before ++ [a])).rows,
      (serve u (storeAfter u (emptyStore now) before) a).response = .created job.id ∧
      job.payload = req.content ∧ job.tenantId = user.tenantId
  duplicate : ownUse user.tenantId before req = true →
    (serve u (storeAfter u (emptyStore now) before) a).created = some false
  polled : ∃ id, (serve u (storeAfter u (emptyStore now) before) a).response = .created id ∧
    ∃ view, getJob (storeAfter u (emptyStore now) (before ++ a :: after)) (some user) id = .found view ∧ view.id = id

/-- A tenant is served as if it were alone. -/
structure Isolated (u : Uuids) (now : Int) (tenant : Option String) (arrivals : List Arrival) : Prop where
  well : ∀ before a after, arrivals = before ++ a :: after → ∀ user req, a.accepted? = some (user, req) →
    user.tenantId = tenant → ServedWell u now user req before a after
  alone : results u tenant (emptyStore now) arrivals =
    results u tenant (emptyStore now) (arrivals.filter (·.ofTenant tenant))

/-- Whenever the tenant uses a key on a queue for the first time, nobody has used it there before. -/
def Unclaimed (tenant : Option String) (arrivals : List Arrival) : Prop :=
  ∀ before a after, arrivals = before ++ a :: after → ∀ user req key, a.accepted? = some (user, req) →
    user.tenantId = tenant → req.idempotencyKey = some key → ownUse tenant before req = false →
    uses before req.queue key = []

variable {u : Uuids} {s : Store} {now : Int} {tenant : Option String} {arrivals before after : List Arrival} {a : Arrival}
  {user : AuthUser} {req : EnqueueReq}

/-! ## One request -/

theorem serve_accepted (u : Uuids) (s : Store) (h : a.accepted? = some (user, req)) : serve u s a = serveJob u s user req := by
  obtain ⟨sender, request⟩ := a
  cases sender with
  | none => cases h
  | some sender =>
    cases request with
    | getJob id => cases h
    | enqueue sent =>
      unfold Arrival.accepted? at h
      unfold serve enqueueRoute
      dsimp only at h ⊢
      split at h
      · cases h
      · rename_i hempty
        cases h
        rw [if_neg hempty]

theorem serve_other (u : Uuids) (s : Store) (h : a.accepted? = none) :
    (serve u s a).store = s ∧ (serve u s a).created = none := by
  obtain ⟨sender, request⟩ := a
  unfold serve
  cases request with
  | getJob id => exact ⟨rfl, rfl⟩
  | enqueue sent =>
    unfold enqueueRoute
    cases sender with
    | none => exact ⟨rfl, rfl⟩
    | some sender =>
      unfold Arrival.accepted? at h
      dsimp only at h ⊢
      split at h
      · rename_i hempty
        rw [if_pos hempty]
        exact ⟨rfl, rfl⟩
      · cases h

/-- An `enqueue` that meets a job with its key. -/
theorem serveJob_duplicate {existing : Job} (h : s.rows.find? (sameKey req.queue req.idempotencyKey) = some existing) :
    serveJob u s user req = ⟨{ s with drawn := s.drawn + 1 }, .created existing.id, some false⟩ := by
  have htx : enqueueTx s (req.job user (u.draw s.drawn)) = ⟨s, .enqueued existing.id false, []⟩ := by
    unfold enqueueTx
    rw [show s.rows.find? (sameKey (req.job user (u.draw s.drawn)).queue (req.job user (u.draw s.drawn)).idempotencyKey) =
      some existing from h]
  have henqueue : enqueue s (req.job user (u.draw s.drawn)) = ⟨s, .enqueued existing.id false, []⟩ := by
    unfold enqueue
    rw [htx]
  unfold serveJob
  rw [henqueue]

/-- An `enqueue` that meets none. -/
theorem serveJob_new (h : s.rows.find? (sameKey req.queue req.idempotencyKey) = none)
    (hfresh : u.draw s.drawn ∉ s.rows.map Job.id) :
    (serveJob u s user req).created = some true ∧ (serveJob u s user req).response = .created (u.draw s.drawn) ∧
      (serveJob u s user req).store.rows = s.rows ++ [(req.job user (u.draw s.drawn)).row s.now] ∧
      (serveJob u s user req).store.drawn = s.drawn + 1 := by
  have htx : enqueueTx s (req.job user (u.draw s.drawn)) =
      ⟨s.insert ((req.job user (u.draw s.drawn)).row s.now) hfresh, .enqueued (u.draw s.drawn) true, []⟩ := by
    unfold enqueueTx
    rw [show s.rows.find? (sameKey (req.job user (u.draw s.drawn)).queue (req.job user (u.draw s.drawn)).idempotencyKey) =
      none from h]
    exact dif_pos hfresh
  have henqueue : ∃ events, enqueue s (req.job user (u.draw s.drawn)) =
      ⟨s.insert ((req.job user (u.draw s.drawn)).row s.now) hfresh, .enqueued (u.draw s.drawn) true, events⟩ := by
    unfold enqueue
    rw [htx]
    exact ⟨_, rfl⟩
  obtain ⟨events, henqueue⟩ := henqueue
  unfold serveJob
  rw [henqueue]
  exact ⟨rfl, rfl, rfl, rfl⟩

/-! ## The table and the requests so far -/

/-- The job with a key is that of its first use, and the ids are drawn ones. -/
structure Reflects (u : Uuids) (before : List Arrival) (s : Store) : Prop where
  holder : ∀ queue key, (s.rows.find? (sameKey queue (some key))).map Job.tenantId =
    (uses before queue key).head?.map Use.tenant
  ids : ∀ j ∈ s.rows, ∃ i, i < s.drawn ∧ j.id = u.draw i

theorem Reflects.fresh (h : Reflects u before s) : u.draw s.drawn ∉ s.rows.map Job.id := by
  intro hin
  obtain ⟨j, hj, hid⟩ := List.mem_map.1 hin
  obtain ⟨i, hi, hdraw⟩ := h.ids j hj
  have heq := u.injective (hid.symm.trans hdraw)
  omega

theorem uses_append (before after : List Arrival) (queue key : String) :
    uses (before ++ after) queue key = uses before queue key ++ uses after queue key := by
  unfold uses
  rw [List.filterMap_append, List.filter_append]

theorem uses_single (h : a.accepted? = some (user, req)) (queue key : String) :
    uses [a] queue key =
      if req.queue = queue ∧ req.idempotencyKey = some key then [⟨queue, key, user.tenantId⟩] else [] := by
  have huse : a.use? = req.idempotencyKey.map fun key => ⟨req.queue, key, user.tenantId⟩ := by
    unfold Arrival.use?
    rw [h]
    rfl
  unfold uses
  rw [List.filterMap_cons, huse, List.filterMap_nil]
  cases hkey : req.idempotencyKey with
  | none => simp
  | some used =>
    by_cases hsame : req.queue = queue ∧ used = key
    · obtain ⟨rfl, rfl⟩ := hsame
      simp
    · rw [if_neg (by simpa using hsame)]
      simpa using hsame

theorem uses_other (h : a.accepted? = none) (queue key : String) : uses [a] queue key = [] := by
  have huse : a.use? = none := by
    unfold Arrival.use?
    rw [h]
    rfl
  unfold uses
  rw [List.filterMap_cons, huse]
  rfl

theorem sameKey_row (user : AuthUser) (req : EnqueueReq) (newId : String) (now : Int) (queue key : String) :
    sameKey queue (some key) ((req.job user newId).row now) = true ↔ req.queue = queue ∧ req.idempotencyKey = some key := by
  unfold sameKey
  simp [EnqueueReq.job, NewJob.row]

theorem Reflects.head (h : Reflects u before s) {queue key : String} :
    uses before queue key = [] ↔ s.rows.find? (sameKey queue (some key)) = none := by
  have hholder := h.holder queue key
  cases huses : uses before queue key with
  | nil =>
    rw [huses, List.head?_nil, Option.map_none, Option.map_eq_none_iff] at hholder
    exact ⟨fun _ => hholder, fun _ => rfl⟩
  | cons use rest =>
    constructor
    · intro hnil
      cases hnil
    · intro hnone
      rw [huses, hnone] at hholder
      cases hholder

theorem Reflects.init (u : Uuids) (now : Int) : Reflects u [] (emptyStore now) where
  holder _ _ := rfl
  ids _ hj := absurd hj List.not_mem_nil

theorem Reflects.step (h : Reflects u before s) (a : Arrival) : Reflects u (before ++ [a]) (serve u s a).store := by
  cases haccepted : a.accepted? with
  | none =>
    obtain ⟨hstore, -⟩ := serve_other u s haccepted
    rw [hstore]
    refine ⟨fun queue key => ?_, h.ids⟩
    rw [uses_append, uses_other haccepted, List.append_nil]
    exact h.holder queue key
  | some sent =>
    obtain ⟨user, req⟩ := sent
    rw [serve_accepted u s haccepted]
    cases hfind : s.rows.find? (sameKey req.queue req.idempotencyKey) with
    | some existing =>
      rw [serveJob_duplicate hfind]
      refine ⟨fun queue key => ?_, fun j hj => ?_⟩
      · rw [uses_append, uses_single haccepted]
        split
        · rename_i hsame
          obtain ⟨rfl, hkey⟩ := hsame
          have hused : uses before req.queue key ≠ [] := by
            rw [Ne, h.head, ← hkey, hfind]
            exact Option.some_ne_none existing
          rw [List.head?_append_of_ne_nil _ hused]
          exact h.holder req.queue key
        · rw [List.append_nil]
          exact h.holder queue key
      · obtain ⟨i, hi, hid⟩ := h.ids j hj
        exact ⟨i, Nat.lt_succ_of_lt hi, hid⟩
    | none =>
      obtain ⟨-, -, hrows, hdrawn⟩ := serveJob_new  hfind h.fresh
      refine ⟨fun queue key => ?_, fun j hj => ?_⟩
      · rw [hrows, List.find?_append, uses_append, uses_single haccepted]
        split
        · rename_i hsame
          have hrow := (sameKey_row user req (u.draw s.drawn) s.now queue key).2 hsame
          obtain ⟨rfl, hkey⟩ := hsame
          rw [hkey] at hfind
          rw [hfind, h.head.2 hfind, List.find?_cons_of_pos hrow]
          rfl
        · rename_i hother
          have hrow : ¬sameKey queue (some key) ((req.job user (u.draw s.drawn)).row s.now) = true :=
            fun hsame => hother ((sameKey_row user req _ _ queue key).1 hsame)
          rw [List.find?_cons_of_neg hrow, List.find?_nil, Option.or_none, List.append_nil]
          exact h.holder queue key
      · rw [hdrawn]
        rw [hrows] at hj
        rcases List.mem_append.1 hj with hold | hnew
        · obtain ⟨i, hi, hid⟩ := h.ids j hold
          exact ⟨i, Nat.lt_succ_of_lt hi, hid⟩
        · rw [List.mem_singleton.1 hnew]
          exact ⟨s.drawn, Nat.lt_succ_self _, rfl⟩

theorem Reflects.steps (h : Reflects u before s) (arrivals : List Arrival) :
    Reflects u (before ++ arrivals) (storeAfter u s arrivals) := by
  induction arrivals generalizing before s with
  | nil => rwa [List.append_nil]
  | cons a arrivals ih =>
    have hrest := ih (h.step a)
    rwa [List.append_assoc] at hrest

theorem reflects (u : Uuids) (now : Int) (arrivals : List Arrival) :
    Reflects u arrivals (storeAfter u (emptyStore now) arrivals) :=
  (Reflects.init u now).steps arrivals

theorem storeAfter_append (u : Uuids) (s : Store) (before after : List Arrival) :
    storeAfter u s (before ++ after) = storeAfter u (storeAfter u s before) after :=
  List.foldl_append

/-- No row is ever changed or removed. -/
theorem rows_subset (h : Reflects u before s) (arrivals : List Arrival) :
    s.rows ⊆ (storeAfter u s arrivals).rows := by
  induction arrivals generalizing before s with
  | nil => exact List.Subset.refl _
  | cons a arrivals ih =>
    refine List.Subset.trans ?_ (ih (h.step a))
    show s.rows ⊆ (serve u s a).store.rows
    cases haccepted : a.accepted? with
    | none =>
      rw [(serve_other u s haccepted).1]
      exact List.Subset.refl _
    | some sent =>
      obtain ⟨user, req⟩ := sent
      rw [serve_accepted u s haccepted]
      cases hfind : s.rows.find? (sameKey req.queue req.idempotencyKey) with
      | some existing =>
        rw [serveJob_duplicate hfind]
        exact List.Subset.refl _
      | none =>
        rw [(serveJob_new hfind h.fresh).2.2.1]
        exact List.subset_append_left _ _

/-- A job is shown to the users of its tenant. -/
theorem getJob_found {job : Job} (hjob : job ∈ s.rows) (htenant : job.tenantId = user.tenantId) :
    ∃ view, getJob s (some user) job.id = .found view ∧ view.id = job.id := by
  have hfind : Table.find Job.id job.id s.rows = some job := by
    cases hfound : Table.find Job.id job.id s.rows with
    | none =>
      have hmiss := List.find?_eq_none.1 hfound job hjob
      exact absurd (decide_eq_true rfl) hmiss
    | some found =>
      rw [Table.eq_of_key s.primaryKey (Table.mem_of_find hfound) hjob (Table.key_of_find hfound)]
  unfold getJob get
  rw [hfind, Option.map_some]
  dsimp only
  cases htenantId : job.tenantId with
  | none => exact ⟨_, rfl, rfl⟩
  | some own =>
    rw [htenantId] at htenant
    rw [← htenant]
    refine ⟨_, if_neg ?_, rfl⟩
    simp

/-! ## Isolation -/

theorem ownUse_eq (tenant : Option String) (before : List Arrival) {key : String} (h : req.idempotencyKey = some key) :
    ownUse tenant before req = (uses before req.queue key).any fun use => use.tenant = tenant := by
  unfold ownUse
  rw [h]
  rfl

/-- Where a tenant's first uses meet no other, the first use of each of its keys is its own. -/
theorem Unclaimed.own (h : Unclaimed tenant arrivals) (hsplit : arrivals = before ++ after) {queue key : String}
    (hown : (uses before queue key).any (fun use => use.tenant = tenant) = true) :
    (uses before queue key).head?.map Use.tenant = some tenant := by
  induction before using List.reverseRecOn generalizing after with
  | nil => cases hown
  | append_singleton before a ih =>
    rw [List.append_assoc, List.singleton_append] at hsplit
    rw [uses_append] at hown ⊢
    by_cases hbefore : (uses before queue key).any (fun use => use.tenant = tenant) = true
    · have hhead := ih hsplit hbefore
      cases huses : uses before queue key with
      | nil =>
        rw [huses] at hbefore
        cases hbefore
      | cons use rest =>
        rw [huses] at hhead
        exact hhead
    · rw [List.any_append, Bool.eq_false_iff.2 hbefore, Bool.false_or] at hown
      cases haccepted : a.accepted? with
      | none =>
        rw [uses_other haccepted] at hown
        cases hown
      | some sent =>
        obtain ⟨user, req⟩ := sent
        rw [uses_single haccepted] at hown ⊢
        split at hown
        · rename_i hsame
          obtain ⟨rfl, hkey⟩ := hsame
          have htenant : user.tenantId = tenant := by simpa using hown
          have hfree := h before a after hsplit user req key haccepted htenant hkey (by
            rw [ownUse_eq tenant before hkey]
            exact Bool.eq_false_iff.2 hbefore)
          rw [hfree, if_pos ⟨rfl, hkey⟩, htenant]
          rfl
        · cases hown

/-- What a request of the tenant meets in the table. -/
theorem Unclaimed.meets (h : Unclaimed tenant arrivals) (hsplit : arrivals = before ++ a :: after)
    (haccepted : a.accepted? = some (user, req)) (htenant : user.tenantId = tenant) (hreflects : Reflects u before s) :
    (ownUse tenant before req = false ∧ s.rows.find? (sameKey req.queue req.idempotencyKey) = none) ∨
    (ownUse tenant before req = true ∧ ∃ existing, s.rows.find? (sameKey req.queue req.idempotencyKey) = some existing ∧
      existing.tenantId = tenant) := by
  cases hkey : req.idempotencyKey with
  | none =>
    left
    unfold ownUse
    rw [hkey]
    refine ⟨rfl, List.find?_eq_none.2 fun j _ => ?_⟩
    simp [sameKey]
  | some key =>
    cases hown : ownUse tenant before req with
    | false =>
      have hfree := h before a after hsplit user req key haccepted htenant hkey hown
      exact .inl ⟨rfl, hreflects.head.1 hfree⟩
    | true =>
      rw [ownUse_eq tenant before hkey] at hown
      have hhead := h.own hsplit hown
      rw [← hreflects.holder, Option.map_eq_some_iff] at hhead
      exact .inr ⟨rfl, hhead⟩

theorem Unclaimed.servedWell (h : Unclaimed tenant arrivals) (hsplit : arrivals = before ++ a :: after)
    (haccepted : a.accepted? = some (user, req)) (htenant : user.tenantId = tenant) :
    ServedWell u now user req before a after := by
  have hreflects := reflects u now before
  have hserve := serve_accepted u (storeAfter u (emptyStore now) before) haccepted
  have hstore : storeAfter u (emptyStore now) (before ++ [a]) =
      (serve u (storeAfter u (emptyStore now) before) a).store := by
    rw [storeAfter_append]
    rfl
  have hlater : (storeAfter u (emptyStore now) (before ++ [a])).rows ⊆
      (storeAfter u (emptyStore now) (before ++ a :: after)).rows := by
    have hrows := rows_subset (reflects u now (before ++ [a])) after
    rwa [← storeAfter_append, List.append_assoc, List.singleton_append] at hrows
  rcases h.meets hsplit haccepted htenant hreflects with ⟨hown, hnone⟩ | ⟨hown, existing, hfind, hexisting⟩
  · obtain ⟨hcreated, hresponse, hrows, -⟩ := serveJob_new  hnone hreflects.fresh
    rw [← hserve] at hcreated hresponse hrows
    rw [← hstore] at hrows
    have hjob : (req.job user (u.draw (storeAfter u (emptyStore now) before).drawn)).row
        (storeAfter u (emptyStore now) before).now ∈ (storeAfter u (emptyStore now) (before ++ [a])).rows := by
      rw [hrows]
      exact List.mem_append_right _ (List.mem_singleton_self _)
    refine ⟨fun _ => ⟨hcreated, _, hjob, hresponse, rfl, rfl⟩, fun hagain => ?_, _, hresponse, ?_⟩
    · rw [htenant, hown] at hagain
      cases hagain
    · exact getJob_found (hlater hjob) rfl
  · rw [serveJob_duplicate hfind] at hserve
    have hjob : existing ∈ (storeAfter u (emptyStore now) (before ++ [a])).rows := by
      rw [hstore, hserve]
      exact List.mem_of_find?_eq_some hfind
    refine ⟨fun hagain => ?_, fun _ => by rw [hserve], existing.id, by rw [hserve], ?_⟩
    · rw [htenant, hown] at hagain
      cases hagain
    · exact getJob_found (hlater hjob) (hexisting.trans htenant.symm)

/-- What a tenant is told by its own requests alone. -/
def expected (tenant : Option String) : List Arrival → List Arrival → List (Option Bool)
  | _, [] => []
  | before, a :: arrivals =>
    match a.accepted? with
    | some (user, req) =>
      if user.tenantId = tenant then some (!ownUse tenant before req) :: expected tenant (before ++ [a]) arrivals
      else expected tenant (before ++ [a]) arrivals
    | none => expected tenant (before ++ [a]) arrivals

theorem Unclaimed.results (h : Unclaimed tenant arrivals) (hsplit : arrivals = before ++ after)
    (hreflects : Reflects u before s) : results u tenant s after = expected tenant before after := by
  induction after generalizing before s with
  | nil => rfl
  | cons a after ih =>
    have hrest := ih (hsplit.trans (by rw [List.append_assoc, List.singleton_append])) (hreflects.step a)
    unfold Jobs.results expected
    cases haccepted : a.accepted? with
    | none => exact hrest
    | some sent =>
      obtain ⟨user, req⟩ := sent
      dsimp only [Option.any_some]
      by_cases htenant : user.tenantId = tenant
      · rw [if_pos (decide_eq_true htenant), if_pos htenant, hrest, serve_accepted u s haccepted]
        rcases h.meets hsplit haccepted htenant hreflects with ⟨hown, hnone⟩ | ⟨hown, existing, hfind, -⟩
        · rw [hown, (serveJob_new hnone hreflects.fresh).1]
          rfl
        · rw [hown, serveJob_duplicate hfind]
          rfl
      · rw [if_neg (by simpa using htenant), if_neg htenant, hrest]

theorem ofTenant_of_accepted (h : a.accepted? = some (user, req)) :
    a.ofTenant tenant = true ↔ user.tenantId = tenant := by
  obtain ⟨sender, request⟩ := a
  cases sender with
  | none => cases h
  | some sender =>
    cases request with
    | getJob id => cases h
    | enqueue sent =>
      unfold Arrival.accepted? at h
      dsimp only at h
      split at h
      · cases h
      · cases h
        exact decide_eq_true_iff

theorem uses_filter (before : List Arrival) (queue key : String) :
    ((uses (before.filter (·.ofTenant tenant)) queue key)) =
      (uses before queue key).filter fun use => use.tenant = tenant := by
  induction before with
  | nil => rfl
  | cons a before ih =>
    rw [← List.singleton_append, List.filter_append, uses_append, uses_append, List.filter_append, ih]
    congr 1
    cases haccepted : a.accepted? with
    | none =>
      rw [uses_other haccepted, List.filter_cons]
      split
      · exact uses_other haccepted queue key
      · rfl
    | some sent =>
      obtain ⟨user, req⟩ := sent
      by_cases htenant : user.tenantId = tenant
      · rw [List.filter_cons_of_pos ((ofTenant_of_accepted haccepted).2 htenant), List.filter_nil, uses_single haccepted]
        split
        · simp [htenant]
        · rfl
      · rw [List.filter_cons_of_neg fun hof => htenant ((ofTenant_of_accepted haccepted).1 hof), List.filter_nil,
          uses_single haccepted]
        split
        · simp [htenant, uses]
        · rfl

theorem ownUse_filter (tenant : Option String) (before : List Arrival) (req : EnqueueReq) :
    ownUse tenant (before.filter (·.ofTenant tenant)) req = ownUse tenant before req := by
  unfold ownUse
  congr 1
  funext key
  rw [uses_filter, List.any_filter]
  simp

/-- What a tenant is told by its own requests does not depend on those of others. -/
theorem expected_filter (tenant : Option String) (before after : List Arrival) :
    expected tenant (before.filter (·.ofTenant tenant)) (after.filter (·.ofTenant tenant)) =
      expected tenant before after := by
  induction after generalizing before with
  | nil => rfl
  | cons a after ih =>
    have hrest := ih (before ++ [a])
    rw [List.filter_append] at hrest
    by_cases hof : a.ofTenant tenant = true
    · rw [List.filter_cons_of_pos hof, List.filter_nil] at hrest
      rw [List.filter_cons_of_pos hof]
      unfold expected
      cases haccepted : a.accepted? with
      | none => exact hrest
      | some sent =>
        obtain ⟨user, req⟩ := sent
        dsimp only
        have htenant := (ofTenant_of_accepted haccepted).1 hof
        rw [if_pos htenant, if_pos htenant, ownUse_filter, hrest]
    · rw [List.filter_cons_of_neg hof, List.filter_nil, List.append_nil] at hrest
      rw [List.filter_cons_of_neg hof, hrest]
      conv_rhs => unfold expected
      cases haccepted : a.accepted? with
      | none => rfl
      | some sent =>
        obtain ⟨user, req⟩ := sent
        dsimp only
        rw [if_neg fun htenant => hof ((ofTenant_of_accepted haccepted).2 htenant)]

/-- A tenant alone meets nobody. -/
theorem unclaimed_filter (tenant : Option String) (arrivals : List Arrival) :
    Unclaimed tenant (arrivals.filter (·.ofTenant tenant)) := by
  intro before a after hsplit user req key haccepted htenant hkey hown
  have hbefore : before.filter (·.ofTenant tenant) = before := by
    apply List.filter_eq_self.2
    intro b hb
    have hin : b ∈ arrivals.filter (·.ofTenant tenant) := by
      rw [hsplit]
      exact List.mem_append_left _ hb
    exact (List.mem_filter.1 hin).2
  rw [ownUse_eq tenant before hkey] at hown
  rw [← hbefore, uses_filter, List.filter_eq_nil_iff]
  intro use huse
  have hnot := List.any_eq_false.1 hown use huse
  simpa using hnot

theorem Isolated.unclaimed (h : Isolated u now tenant arrivals) : Unclaimed tenant arrivals := by
  intro before a after hsplit user req key haccepted htenant hkey hown
  have hreflects := reflects u now before
  rw [hreflects.head, ← hkey]
  cases hfind : (storeAfter u (emptyStore now) before).rows.find? (sameKey req.queue req.idempotencyKey) with
  | none => rfl
  | some existing =>
    have hwell := h.well before a after hsplit user req haccepted htenant
    have hcreated := (hwell.created (by rw [htenant]; exact hown)).1
    rw [serve_accepted u _ haccepted, serveJob_duplicate hfind] at hcreated
    cases hcreated

/-- A tenant enqueues as if it were alone exactly when nobody has used its keys before it; and then two runs that
differ in the requests of others tell it the same. -/
theorem isolated_iff (u : Uuids) (now : Int) (tenant : Option String) (arrivals : List Arrival) :
    (Isolated u now tenant arrivals ↔ Unclaimed tenant arrivals) ∧
    (Unclaimed tenant arrivals → ∀ arrivals', Unclaimed tenant arrivals' →
      arrivals'.filter (·.ofTenant tenant) = arrivals.filter (·.ofTenant tenant) →
      results u tenant (emptyStore now) arrivals' = results u tenant (emptyStore now) arrivals) := by
  have hresults (arrivals : List Arrival) (h : Unclaimed tenant arrivals) :
      results u tenant (emptyStore now) arrivals = expected tenant [] (arrivals.filter (·.ofTenant tenant)) :=
    (h.results (List.nil_append _).symm (Reflects.init u now)).trans (expected_filter tenant [] arrivals).symm
  have halone := hresults _ (unclaimed_filter tenant arrivals)
  rw [List.filter_filter] at halone
  simp only [Bool.and_self] at halone
  refine ⟨⟨Isolated.unclaimed, fun h => ⟨?_, ?_⟩⟩, ?_⟩
  · intro before a after hsplit user req haccepted htenant
    exact h.servedWell hsplit haccepted htenant
  · rw [halone, hresults arrivals h]
  · intro h arrivals' h' hsame
    rw [hresults arrivals' h', hresults arrivals h, hsame]

/-! ## A key that another tenant has used -/

def mailRequest (tenant text : String) : Arrival where
  user := some ⟨some tenant⟩
  request := .enqueue { queue := "mail", kind := "send", payload := .string text, idempotencyKey := some "welcome" }

/-- The second tenant is told the job of the first one. -/
theorem claimed_unisolated :
    ¬∀ (u : Uuids) (now : Int) (tenant : Option String) (arrivals : List Arrival), Isolated u now tenant arrivals := by
  intro h
  have hisolated := h default 0 (some "B") [mailRequest "A" "to a", mailRequest "B" "to b"]
  have halone := hisolated.alone
  revert halone
  decide

end Atomo.Jobs
