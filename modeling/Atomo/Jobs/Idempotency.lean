import Atomo.Jobs.Store

/-!
# Enqueueing under concurrent transactions

`Jobs.Store` runs `enqueue_tx` as one step. Here each of its statements is a step, in transactions that are open
at the same time and may roll back: the `INSERT` waits for another transaction that has inserted the same
`(queue, idempotency_key)`, and the `SELECT` that follows a conflict is a statement of its own. Of the calls
with one key, at most one creates a row, and all are told its id (`enqueued_once`).
-/

namespace Atomo.Jobs

/-- A row of `jobs` with the open transaction that has inserted it. -/
structure Tuple where
  row : Job
  insertedBy : Option Nat
  deriving DecidableEq

/-- The return of `enqueue_tx`; none where the `SELECT` finds no row. -/
structure Returned where
  args : NewJob
  reply : Option (String × Bool)
  deriving DecidableEq

def Returned.created (r : Returned) : Bool :=
  (r.reply.map Prod.snd).getD false

def Returned.replyId (r : Returned) : Option String :=
  r.reply.map Prod.fst

/-- `emit_enqueued`, as its docstring asks for it. -/
def Returned.event (r : Returned) : ModelEvent :=
  emitEnqueued (r.replyId.getD "") r.args.queue r.args.kind

/-- A transaction with what `enqueue_tx` has returned in it so far, or an `enqueue` between its statements; a call
whose `INSERT` has met a conflict has its `SELECT` to run. -/
inductive Session where
  | tx (startedAt : Int) (returned : List Returned) (selecting : Option NewJob)
  | auto (selecting : NewJob)

/-- The table, the open transactions, the returns of the calls that are committed, those whose event is still to be
sent, and the events sent. -/
structure Enqueues where
  rows : List Tuple
  drawn : Nat
  sessions : Nat → Option Session
  returned : List Returned
  toEmit : List Returned
  events : List ModelEvent

inductive EnqueueAct where
  | begin (i : Nat) (now : Int)
  | insert (i : Nat) (a : NewJob)
  | select (i : Nat)
  | commit (i : Nat)
  | rollback (i : Nat)
  | fail (i : Nat)
  | enqueue (i : Nat) (now : Int) (a : NewJob)
  | emit (r : Returned)

namespace Enqueues

variable (u : Uuids) (s : Enqueues)

def setSession (i : Nat) (x : Option Session) : Enqueues :=
  { s with sessions := Function.update s.sessions i x }

/-- `Uuid::new_v4`. -/
def fresh (a : NewJob) : NewJob :=
  { a with newId := u.draw s.drawn }

def conflict (a : NewJob) : Option Tuple :=
  s.rows.find? fun t => sameKey a.queue a.idempotencyKey t.row

def visible (i : Nat) (t : Tuple) : Bool :=
  t.insertedBy = none ∨ t.insertedBy = some i

/-- `SELECT id FROM jobs WHERE queue = $1 AND idempotency_key = $2`. -/
def existing (i : Nat) (a : NewJob) : Returned where
  args := a
  reply := (s.rows.find? fun t => visible i t && sameKey a.queue a.idempotencyKey t.row).map fun t => (t.row.id, false)

def insertedBy (i : Nat) (t : Tuple) : Bool :=
  t.insertedBy = some i

def committed (t : Tuple) : Tuple :=
  { t with insertedBy := none }

/-- `INSERT … ON CONFLICT DO NOTHING` in an open transaction. -/
def insert (i : Nat) (startedAt : Int) (returned : List Returned) (a : NewJob) : Option Enqueues :=
  let s' := { s with drawn := s.drawn + 1 }
  match s.conflict a with
  | none =>
    some { s'.setSession i (some (.tx startedAt (returned ++ [⟨a, some (a.newId, true)⟩]) none)) with
      rows := s.rows ++ [⟨a.row startedAt, some i⟩] }
  | some t => if visible i t then some (s'.setSession i (some (.tx startedAt returned (some a)))) else none

/-- The `INSERT` of `enqueue`, committed with the statement. -/
def enqueue (i : Nat) (now : Int) (a : NewJob) : Option Enqueues :=
  let s' := { s with drawn := s.drawn + 1 }
  match s.conflict a with
  | none =>
    some { s' with
      rows := s.rows ++ [⟨a.row now, none⟩]
      returned := s.returned ++ [⟨a, some (a.newId, true)⟩]
      toEmit := s.toEmit ++ [⟨a, some (a.newId, true)⟩] }
  | some t => if visible i t then some (s'.setSession i (some (.auto a))) else none

def commit (i : Nat) (returned : List Returned) : Enqueues :=
  { s.setSession i none with
    rows := Table.update (insertedBy i) committed s.rows
    returned := s.returned ++ returned
    toEmit := s.toEmit ++ returned.filter Returned.created }

def rollback (i : Nat) : Enqueues :=
  { s.setSession i none with rows := s.rows.filter fun t => !insertedBy i t }

def step : EnqueueAct → Option Enqueues
  | .begin i now => if (s.sessions i).isNone then some (s.setSession i (some (.tx now [] none))) else none
  | .insert i a =>
    match s.sessions i with
    | some (.tx startedAt returned none) => s.insert i startedAt returned (s.fresh u a)
    | _ => none
  | .select i =>
    match s.sessions i with
    | some (.tx startedAt returned (some a)) =>
      some (s.setSession i (some (.tx startedAt (returned ++ [s.existing i a]) none)))
    | some (.auto a) => some { s.setSession i none with returned := s.returned ++ [s.existing i a] }
    | _ => none
  | .commit i =>
    match s.sessions i with
    | some (.tx _ returned none) => some (s.commit i returned)
    | _ => none
  | .rollback i =>
    match s.sessions i with
    | some (.tx _ _ _) => some (s.rollback i)
    | _ => none
  | .fail i =>
    match s.sessions i with
    | some (.auto _) => some (s.setSession i none)
    | _ => none
  | .enqueue i now a => if (s.sessions i).isNone then s.enqueue i now (s.fresh u a) else none
  | .emit r =>
    if r ∈ s.toEmit then some { s with toEmit := s.toEmit.erase r, events := s.events ++ [r.event] } else none

end Enqueues

/-- Calls of `enqueue` and `enqueue_tx` from the empty table on. -/
def enqueues (u : Uuids) : LabelledSystem Enqueues EnqueueAct where
  init s := s.rows = [] ∧ s.returned = [] ∧ s.toEmit = [] ∧ s.events = [] ∧ ∀ i, s.sessions i = none
  step s a t := s.step u a = some t

/-! ## What the calls keep -/

/-- A return is backed by a row with its key: one of its own transaction when it created it, else one that its
transaction sees. -/
structure BackedBy (t : Tuple) (owner : Option Nat) (r : Returned) : Prop where
  owner : t.insertedBy = owner ∨ t.insertedBy = none ∧ r.created = false
  reply : r.reply = some (t.row.id, r.created)
  queue : t.row.queue = r.args.queue
  key : t.row.idempotencyKey = r.args.idempotencyKey
  keyed : r.created = false → r.args.idempotencyKey.isSome

def Backed (rows : List Tuple) (owner : Option Nat) (r : Returned) : Prop :=
  ∃ t ∈ rows, BackedBy t owner r

def createdIds (returned : List Returned) : List (Option String) :=
  (returned.filter Returned.created).map Returned.replyId

/-- The row that a `SELECT` is about to read. -/
def HasKey (rows : List Tuple) (i : Nat) (a : NewJob) : Prop :=
  ∃ t ∈ rows, Enqueues.visible i t = true ∧ sameKey a.queue a.idempotencyKey t.row = true

def Session.Sound (rows : List Tuple) (i : Nat) : Session → Prop
  | .tx _ returned selecting => (∀ r ∈ returned, Backed rows (some i) r) ∧ (createdIds returned).Nodup ∧
      ∀ a, selecting = some a → HasKey rows i a
  | .auto a => HasKey rows i a

def Session.isTx : Session → Prop
  | .tx _ _ _ => True
  | .auto _ => False

/-- The primary key and the index `jobs_idempotency`, over the committed rows and the others. -/
structure RowsSound (u : Uuids) (drawn : Nat) (rows : List Tuple) : Prop where
  ids : (rows.map (·.row.id)).Nodup
  drawn : ∀ t ∈ rows, ∃ k < drawn, t.row.id = u.draw k
  keys : ∀ t ∈ rows, ∀ t' ∈ rows, sameKey t.row.queue t.row.idempotencyKey t'.row = true → t = t'

structure Enqueues.Sound (u : Uuids) (s : Enqueues) : Prop where
  rows : RowsSound u s.drawn s.rows
  owned : ∀ t ∈ s.rows, ∀ i, t.insertedBy = some i → ∃ x, s.sessions i = some x ∧ x.isTx
  sessions : ∀ i x, s.sessions i = some x → x.Sound s.rows i
  returned : ∀ r ∈ s.returned, Backed s.rows none r
  once : (createdIds s.returned).Nodup
  emitted : (s.events ++ s.toEmit.map Returned.event).Perm ((s.returned.filter Returned.created).map Returned.event)

section

variable {u : Uuids} {s : Enqueues} {rows rows' : List Tuple} {drawn i j : Nat} {owner : Option Nat} {r : Returned}
  {a : NewJob} {x : Session}

theorem sameKey_iff {queue : String} {key : Option String} {row : Job} :
    sameKey queue key row = true ↔ row.queue = queue ∧ key.isSome ∧ row.idempotencyKey = key := by
  unfold sameKey
  rw [decide_eq_true_iff]

theorem visible_iff {t : Tuple} : Enqueues.visible i t = true ↔ t.insertedBy = none ∨ t.insertedBy = some i := by
  unfold Enqueues.visible
  rw [decide_eq_true_iff]

theorem insertedBy_iff {t : Tuple} : Enqueues.insertedBy i t = true ↔ t.insertedBy = some i := by
  unfold Enqueues.insertedBy
  rw [decide_eq_true_iff]

/-! ### Rows that stay -/

/-- The rows that another transaction, or none, has inserted stay. -/
def Keeps (i : Nat) (rows rows' : List Tuple) : Prop :=
  ∀ t ∈ rows, t.insertedBy ≠ some i → t ∈ rows'

theorem Backed.kept (h : Backed rows owner r) (hkeeps : Keeps i rows rows') (howner : owner ≠ some i) :
    Backed rows' owner r := by
  obtain ⟨t, ht, hbacked⟩ := h
  refine ⟨t, hkeeps t ht ?_, hbacked⟩
  intro hmine
  cases hbacked.owner with
  | inl hown => exact howner (hown.symm.trans hmine)
  | inr hnone =>
    rw [hnone.1] at hmine
    cases hmine

theorem HasKey.of_conflict {t : Tuple} (h : s.conflict a = some t) (hvisible : Enqueues.visible i t = true) :
    HasKey s.rows i a := by
  refine ⟨t, List.mem_of_find?_eq_some h, hvisible, ?_⟩
  have hkey := List.find?_some h
  exact hkey

theorem HasKey.kept (h : HasKey rows j a) (hkeeps : Keeps i rows rows') (hne : j ≠ i) : HasKey rows' j a := by
  obtain ⟨t, ht, hvisible, hkey⟩ := h
  refine ⟨t, hkeeps t ht ?_, hvisible, hkey⟩
  intro hmine
  cases visible_iff.1 hvisible with
  | inl hnone =>
    rw [hnone] at hmine
    cases hmine
  | inr hown =>
    rw [hown] at hmine
    exact hne (Option.some.inj hmine)

theorem Session.Sound.kept (h : x.Sound rows j) (hkeeps : Keeps i rows rows') (hne : j ≠ i) : x.Sound rows' j := by
  cases x with
  | tx startedAt returned selecting =>
    obtain ⟨hbacked, hnodup, hselecting⟩ := h
    refine ⟨fun r hr => (hbacked r hr).kept hkeeps ?_, hnodup, fun a ha => (hselecting a ha).kept hkeeps hne⟩
    exact fun hcase => hne (Option.some.inj hcase)
  | auto a => exact HasKey.kept h hkeeps hne

theorem Keeps.append (i : Nat) (rows new : List Tuple) : Keeps i rows (rows ++ new) :=
  fun _ ht _ => List.mem_append_left _ ht

theorem Keeps.commit (i : Nat) (rows : List Tuple) :
    Keeps i rows (Table.update (Enqueues.insertedBy i) Enqueues.committed rows) := by
  intro t ht hne
  refine Table.mem_update_of_not ht ?_
  cases hcase : Enqueues.insertedBy i t with
  | false => rfl
  | true => exact absurd (insertedBy_iff.1 hcase) hne

theorem Keeps.rollback (i : Nat) (rows : List Tuple) : Keeps i rows (rows.filter fun t => !Enqueues.insertedBy i t) := by
  intro t ht hne
  refine List.mem_filter.2 ⟨ht, ?_⟩
  cases hcase : Enqueues.insertedBy i t with
  | false => rfl
  | true => exact absurd (insertedBy_iff.1 hcase) hne

/-! ### The indexes -/

theorem RowsSound.succ (h : RowsSound u drawn rows) : RowsSound u (drawn + 1) rows := by
  refine ⟨h.ids, fun t ht => ?_, h.keys⟩
  obtain ⟨k, hk, hid⟩ := h.drawn t ht
  exact ⟨k, by omega, hid⟩

theorem RowsSound.sublist (h : RowsSound u drawn rows) (hsub : rows'.Sublist rows) : RowsSound u drawn rows' :=
  ⟨h.ids.sublist (hsub.map _), fun t ht => h.drawn t (hsub.subset ht),
    fun t ht t' ht' => h.keys t (hsub.subset ht) t' (hsub.subset ht')⟩

theorem RowsSound.commit (h : RowsSound u drawn rows) (p : Tuple → Bool) :
    RowsSound u drawn (Table.update p Enqueues.committed rows) := by
  refine ⟨?_, fun t ht => ?_, fun t ht t' ht' hkey => ?_⟩
  · rw [Table.map_update (f := Enqueues.committed) fun _ => rfl]
    exact h.ids
  · obtain ⟨t₀, h₀, rfl⟩ := Table.mem_update.1 ht
    split
    · exact h.drawn t₀ h₀
    · exact h.drawn t₀ h₀
  · obtain ⟨t₀, h₀, rfl⟩ := Table.mem_update.1 ht
    obtain ⟨t₁, h₁, rfl⟩ := Table.mem_update.1 ht'
    have hrow : ∀ t : Tuple, (if p t then Enqueues.committed t else t).row = t.row := by
      intro t
      split
      · rfl
      · rfl
    rw [hrow, hrow] at hkey
    rw [h.keys t₀ h₀ t₁ h₁ hkey]

/-- A row inserted without conflict has an identifier of its own and, where it has a key, is alone with it. -/
theorem RowsSound.insert (h : RowsSound u drawn rows) (hid : a.newId = u.draw drawn)
    (hfree : rows.find? (fun t => sameKey a.queue a.idempotencyKey t.row) = none) (now : Int) :
    RowsSound u (drawn + 1) (rows ++ [⟨a.row now, owner⟩]) := by
  have hnone : ∀ t ∈ rows, ¬sameKey a.queue a.idempotencyKey t.row = true := List.find?_eq_none.1 hfree
  refine ⟨?_, fun t ht => ?_, fun t ht t' ht' hkey => ?_⟩
  · rw [List.map_append, List.map_singleton, List.nodup_append]
    refine ⟨h.ids, List.nodup_singleton _, fun d hd d' hd' hsame => ?_⟩
    obtain ⟨t, ht, rfl⟩ := List.mem_map.1 hd
    obtain ⟨k, hk, hdrawn⟩ := h.drawn t ht
    rw [List.mem_singleton.1 hd', hdrawn] at hsame
    have hcase := u.injective (hsame.trans hid)
    omega
  · cases List.mem_append.1 ht with
    | inl hold =>
      obtain ⟨k, hk, hdrawn⟩ := h.drawn t hold
      exact ⟨k, by omega, hdrawn⟩
    | inr hnew =>
      rw [List.mem_singleton.1 hnew]
      exact ⟨drawn, by omega, hid⟩
  · cases List.mem_append.1 ht with
    | inl hold =>
      cases List.mem_append.1 ht' with
      | inl hold' => exact h.keys t hold t' hold' hkey
      | inr hnew' =>
        rw [List.mem_singleton.1 hnew'] at hkey
        obtain ⟨hqueue, hsome, hsame⟩ := sameKey_iff.1 hkey
        refine absurd (sameKey_iff.2 ⟨hqueue.symm, ?_, hsame.symm⟩) (hnone t hold)
        change a.idempotencyKey = t.row.idempotencyKey at hsame
        change a.idempotencyKey.isSome = true
        rw [hsame]
        exact hsome
    | inr hnew =>
      rw [List.mem_singleton.1 hnew] at hkey ⊢
      cases List.mem_append.1 ht' with
      | inl hold' => exact absurd hkey (hnone t' hold')
      | inr hnew' => rw [List.mem_singleton.1 hnew']

/-! ### The sessions -/

theorem Enqueues.Sound.setSession (h : s.Sound u) {x : Option Session} (hown : (∃ t ∈ s.rows, t.insertedBy = some i) →
    ∃ y, x = some y ∧ y.isTx) (hx : ∀ y, x = some y → y.Sound s.rows i) : (s.setSession i x).Sound u := by
  refine ⟨h.rows, fun t ht j hj => ?_, fun j y hy => ?_, h.returned, h.once, h.emitted⟩
  · dsimp only [Enqueues.setSession]
    by_cases hji : j = i
    · subst hji
      rw [Function.update_self]
      exact hown ⟨t, ht, hj⟩
    · rw [Function.update_of_ne hji]
      exact h.owned t ht j hj
  · dsimp only [Enqueues.setSession] at hy
    by_cases hji : j = i
    · subst hji
      rw [Function.update_self] at hy
      exact hx y hy
    · rw [Function.update_of_ne hji] at hy
      exact h.sessions j y hy

theorem Enqueues.Sound.draw (h : s.Sound u) : ({ s with drawn := s.drawn + 1 } : Enqueues).Sound u :=
  ⟨h.rows.succ, h.owned, h.sessions, h.returned, h.once, h.emitted⟩

/-- Only a transaction has rows of its own. -/
theorem Enqueues.Sound.not_inserted (h : s.Sound u) (hi : ∀ x, s.sessions i = some x → ¬x.isTx) {t : Tuple}
    (ht : t ∈ s.rows) : t.insertedBy ≠ some i := by
  intro hmine
  obtain ⟨x, hx, htx⟩ := h.owned t ht i hmine
  exact hi x hx htx

/-- What the `SELECT` after a conflict returns. -/
theorem existing_backed (owner : Option Nat) (h : HasKey s.rows i a)
    (howner : ∀ t ∈ s.rows, t.insertedBy = some i → owner = some i) :
    Backed s.rows owner (s.existing i a) ∧ (s.existing i a).created = false := by
  obtain ⟨t, ht, hvisible, hkey⟩ := h
  obtain ⟨found, hfound⟩ := Option.isSome_iff_exists.1 (List.find?_isSome (p := fun t =>
    Enqueues.visible i t && sameKey a.queue a.idempotencyKey t.row).2 ⟨t, ht, by rw [hvisible, hkey]; rfl⟩)
  have hmem := List.mem_of_find?_eq_some hfound
  have hmatch := List.find?_some hfound
  rw [Bool.and_eq_true] at hmatch
  obtain ⟨hqueue, hsome, hsame⟩ := sameKey_iff.1 hmatch.2
  have hcreated : (s.existing i a).created = false := by
    unfold Enqueues.existing Returned.created
    rw [hfound]
    rfl
  refine ⟨⟨found, hmem, ?_, ?_, hqueue, hsame, fun _ => hsome⟩, hcreated⟩
  · cases visible_iff.1 hmatch.1 with
    | inl hnone => exact .inr ⟨hnone, hcreated⟩
    | inr hmine => exact .inl (hmine.trans (howner found hmem hmine).symm)
  · rw [hcreated]
    unfold Enqueues.existing
    rw [hfound]
    rfl

theorem createdIds_append (l l' : List Returned) : createdIds (l ++ l') = createdIds l ++ createdIds l' := by
  unfold createdIds
  rw [List.filter_append, List.map_append]

theorem createdIds_eq_nil {r : Returned} (h : r.created = false) : createdIds [r] = [] := by
  unfold createdIds
  rw [List.filter_cons_of_neg (by rw [h]; exact Bool.false_ne_true)]
  rfl

theorem nodup_createdIds_append {l l' : List Returned} (h : (createdIds l).Nodup) (h' : (createdIds l').Nodup)
    (hdiffer : ∀ r ∈ l, r.created = true → ∀ r' ∈ l', r'.created = true → r.replyId ≠ r'.replyId) :
    (createdIds (l ++ l')).Nodup := by
  rw [createdIds_append, List.nodup_append]
  refine ⟨h, h', fun d hd d' hd' hsame => ?_⟩
  obtain ⟨r, hr, rfl⟩ := List.mem_map.1 hd
  obtain ⟨r', hr', rfl⟩ := List.mem_map.1 hd'
  obtain ⟨hmem, hcreated⟩ := List.mem_filter.1 hr
  obtain ⟨hmem', hcreated'⟩ := List.mem_filter.1 hr'
  exact hdiffer r hmem hcreated r' hmem' hcreated' hsame

/-- The return of an `INSERT` that has met no conflict. -/
theorem inserted_backed (a : NewJob) (now : Int) (owner : Option Nat) :
    BackedBy ⟨a.row now, owner⟩ owner ⟨a, some (a.newId, true)⟩ :=
  ⟨.inl rfl, rfl, rfl, rfl, fun hcase => Bool.noConfusion hcase⟩

/-- A row created before is not the one with a new identifier. -/
theorem Backed.replyId_ne (h : Backed rows owner r) (hrows : RowsSound u drawn rows) (hid : a.newId = u.draw drawn) :
    r.replyId ≠ some a.newId := by
  obtain ⟨t, ht, hbacked⟩ := h
  obtain ⟨k, hk, hdrawn⟩ := hrows.drawn t ht
  intro hsame
  rw [Returned.replyId, hbacked.reply, hid] at hsame
  have hcase := u.injective (hdrawn.symm.trans (Option.some.inj hsame))
  omega

theorem Enqueues.Sound.insert (h : s.Sound u) {startedAt : Int} {returned : List Returned}
    (hi : s.sessions i = some (.tx startedAt returned none)) (hid : a.newId = u.draw s.drawn) {s' : Enqueues}
    (hstep : s.insert i startedAt returned a = some s') : s'.Sound u := by
  obtain ⟨hbacked, hnodup, -⟩ := h.sessions i _ hi
  unfold Enqueues.insert at hstep
  dsimp only at hstep
  split at hstep
  · rename_i hfree
    cases hstep
    have hrows : RowsSound u (s.drawn + 1) (s.rows ++ [⟨a.row startedAt, some i⟩]) :=
      h.rows.insert hid hfree startedAt
    have hkeeps := Keeps.append i s.rows [⟨a.row startedAt, some i⟩]
    refine ⟨hrows, fun t ht j hj => ?_, fun j y hy => ?_, fun r hr => ?_, h.once, h.emitted⟩
    · dsimp only [Enqueues.setSession]
      by_cases hji : j = i
      · subst hji
        rw [Function.update_self]
        exact ⟨_, rfl, trivial⟩
      · rw [Function.update_of_ne hji]
        cases List.mem_append.1 ht with
        | inl hold => exact h.owned t hold j hj
        | inr hnew =>
          rw [List.mem_singleton.1 hnew] at hj
          exact absurd (Option.some.inj hj).symm hji
    · dsimp only [Enqueues.setSession] at hy
      by_cases hji : j = i
      · subst hji
        rw [Function.update_self] at hy
        rw [← Option.some.inj hy]
        have hnew : createdIds [(⟨a, some (a.newId, true)⟩ : Returned)] = [some a.newId] := rfl
        refine ⟨fun r hr => ?_, nodup_createdIds_append hnodup ?_ ?_, fun a ha => by cases ha⟩
        · cases List.mem_append.1 hr with
          | inl hold =>
            obtain ⟨t, ht, hby⟩ := hbacked r hold
            exact ⟨t, List.mem_append_left _ ht, hby⟩
          | inr hlast =>
            rw [List.mem_singleton.1 hlast]
            exact ⟨_, List.mem_append_right _ (List.mem_singleton_self _), inserted_backed a startedAt (some j)⟩
        · rw [hnew]
          exact List.nodup_singleton _
        · intro r hr _ r' hr' _
          rw [List.mem_singleton.1 hr']
          exact (hbacked r hr).replyId_ne h.rows hid
      · rw [Function.update_of_ne hji] at hy
        exact (h.sessions j y hy).kept hkeeps hji
    · exact (h.returned r hr).kept hkeeps fun hcase => by cases hcase
  · rename_i t hfound
    split_ifs at hstep with hvisible
    cases hstep
    refine h.draw.setSession (fun _ => ⟨_, rfl, trivial⟩) fun y hy => ?_
    rw [← Option.some.inj hy]
    refine ⟨hbacked, hnodup, fun a' ha' => ?_⟩
    rw [← Option.some.inj ha']
    exact HasKey.of_conflict hfound hvisible

theorem Enqueues.Sound.select (h : s.Sound u) {startedAt : Int} {returned : List Returned}
    (hi : s.sessions i = some (.tx startedAt returned (some a))) :
    (s.setSession i (some (.tx startedAt (returned ++ [s.existing i a]) none))).Sound u := by
  obtain ⟨hbacked, hnodup, hselecting⟩ := h.sessions i _ hi
  obtain ⟨hexisting, hcreated⟩ := existing_backed (some i) (hselecting a rfl) fun _ _ _ => rfl
  refine h.setSession (fun _ => ⟨_, rfl, trivial⟩) fun y hy => ?_
  rw [← Option.some.inj hy]
  refine ⟨fun r hr => ?_, ?_, fun a ha => by cases ha⟩
  · cases List.mem_append.1 hr with
    | inl hold => exact hbacked r hold
    | inr hlast =>
      rw [List.mem_singleton.1 hlast]
      exact hexisting
  · rw [createdIds_append, createdIds_eq_nil hcreated, List.append_nil]
    exact hnodup

theorem Enqueues.Sound.selectAuto (h : s.Sound u) (hi : s.sessions i = some (.auto a)) :
    ({ s.setSession i none with returned := s.returned ++ [s.existing i a] } : Enqueues).Sound u := by
  have hnone : ∀ t ∈ s.rows, t.insertedBy ≠ some i := by
    intro t ht
    refine h.not_inserted (fun x hx htx => ?_) ht
    rw [hi] at hx
    rw [← Option.some.inj hx] at htx
    exact htx
  have hkey : HasKey s.rows i a := h.sessions i _ hi
  obtain ⟨hexisting, hcreated⟩ := existing_backed none hkey fun t ht hmine => absurd hmine (hnone t ht)
  have hended : (s.setSession i none).Sound u := by
    refine h.setSession ?_ fun y hy => by cases hy
    rintro ⟨t, ht, hmine⟩
    exact absurd hmine (hnone t ht)
  refine ⟨hended.rows, hended.owned, hended.sessions, fun r hr => ?_, ?_, ?_⟩
  · cases List.mem_append.1 hr with
    | inl hold => exact h.returned r hold
    | inr hlast =>
      rw [List.mem_singleton.1 hlast]
      exact hexisting
  · dsimp only
    rw [createdIds_append, createdIds_eq_nil hcreated, List.append_nil]
    exact h.once
  · dsimp only
    rw [List.filter_append, List.filter_cons_of_neg (by rw [hcreated]; exact Bool.false_ne_true), List.filter_nil,
      List.append_nil]
    exact h.emitted

theorem Enqueues.Sound.commit (h : s.Sound u) {startedAt : Int} {returned : List Returned}
    (hi : s.sessions i = some (.tx startedAt returned none)) : (s.commit i returned).Sound u := by
  obtain ⟨hbacked, hnodup, -⟩ := h.sessions i _ hi
  have hkeeps := Keeps.commit i s.rows
  have hcommitted : ∀ t ∈ Table.update (Enqueues.insertedBy i) Enqueues.committed s.rows,
      t.insertedBy ≠ some i ∧ (t.insertedBy ≠ none → t ∈ s.rows) := by
    intro t ht
    cases Table.mem_update_cases ht with
    | inl hmissed =>
      refine ⟨fun hmine => ?_, fun _ => hmissed.1⟩
      rw [insertedBy_iff.2 hmine] at hmissed
      cases hmissed.2
    | inr hhit =>
      obtain ⟨t₀, -, -, rfl⟩ := hhit
      exact ⟨fun hmine => (by cases hmine), fun hsome => absurd rfl hsome⟩
  refine ⟨h.rows.commit _, fun t ht j hj => ?_, fun j y hy => ?_, fun r hr => ?_, ?_, ?_⟩
  · obtain ⟨hother, hold⟩ := hcommitted t ht
    have hji : j ≠ i := fun hcase => hother (hcase ▸ hj)
    dsimp only [Enqueues.commit, Enqueues.setSession]
    rw [Function.update_of_ne hji]
    exact h.owned t (hold (by rw [hj]; exact Option.some_ne_none j)) j hj
  · dsimp only [Enqueues.commit, Enqueues.setSession] at hy
    by_cases hji : j = i
    · subst hji
      rw [Function.update_self] at hy
      cases hy
    · rw [Function.update_of_ne hji] at hy
      exact (h.sessions j y hy).kept hkeeps hji
  · cases List.mem_append.1 hr with
    | inl hold => exact (h.returned r hold).kept hkeeps fun hcase => by cases hcase
    | inr hnew =>
      obtain ⟨t, ht, hby⟩ := hbacked r hnew
      cases hcase : Enqueues.insertedBy i t with
      | true => exact ⟨_, Table.mem_update_of ht hcase, ⟨.inl rfl, hby.reply, hby.queue, hby.key, hby.keyed⟩⟩
      | false =>
        refine ⟨t, Table.mem_update_of_not ht hcase, ⟨.inl ?_, hby.reply, hby.queue, hby.key, hby.keyed⟩⟩
        cases hby.owner with
        | inl hmine =>
          rw [insertedBy_iff.2 hmine] at hcase
          cases hcase
        | inr hnone => exact hnone.1
  · -- the rows of this transaction are not those that were committed before
    refine nodup_createdIds_append h.once hnodup fun r hr hcreated r' hr' hcreated' hsame => ?_
    obtain ⟨t, ht, hby⟩ := h.returned r hr
    obtain ⟨t', ht', hby'⟩ := hbacked r' hr'
    rw [Returned.replyId, Returned.replyId, hby.reply, hby'.reply] at hsame
    have heq := Table.eq_of_key h.rows.ids ht ht' (Option.some.inj hsame)
    have hnone : t.insertedBy = none := hby.owner.elim id (·.1)
    have hmine : t'.insertedBy = some i := by
      cases hby'.owner with
      | inl hmine => exact hmine
      | inr hcase =>
        rw [hcreated'] at hcase
        cases hcase.2
    rw [← heq, hnone] at hmine
    cases hmine
  · dsimp only [Enqueues.commit]
    rw [List.filter_append, List.map_append, List.map_append, ← List.append_assoc]
    exact h.emitted.append_right _

theorem Enqueues.Sound.rollback (h : s.Sound u) (i : Nat) : (s.rollback i).Sound u := by
  have hkeeps := Keeps.rollback i s.rows
  have hother : ∀ t ∈ s.rows.filter (fun t => !Enqueues.insertedBy i t), t ∈ s.rows ∧ t.insertedBy ≠ some i := by
    intro t ht
    refine ⟨(List.mem_filter.1 ht).1, fun hmine => ?_⟩
    have hpass := (List.mem_filter.1 ht).2
    rw [insertedBy_iff.2 hmine] at hpass
    cases hpass
  refine ⟨h.rows.sublist List.filter_sublist, fun t ht j hj => ?_, fun j y hy => ?_, fun r hr => ?_, h.once, h.emitted⟩
  · obtain ⟨hmem, hne⟩ := hother t ht
    have hji : j ≠ i := fun hcase => hne (hcase ▸ hj)
    dsimp only [Enqueues.rollback, Enqueues.setSession]
    rw [Function.update_of_ne hji]
    exact h.owned t hmem j hj
  · dsimp only [Enqueues.rollback, Enqueues.setSession] at hy
    by_cases hji : j = i
    · subst hji
      rw [Function.update_self] at hy
      cases hy
    · rw [Function.update_of_ne hji] at hy
      exact (h.sessions j y hy).kept hkeeps hji
  · exact (h.returned r hr).kept hkeeps fun hcase => by cases hcase

theorem Enqueues.Sound.enqueue (h : s.Sound u) (hi : s.sessions i = none) (hid : a.newId = u.draw s.drawn) {now : Int}
    {s' : Enqueues} (hstep : s.enqueue i now a = some s') : s'.Sound u := by
  unfold Enqueues.enqueue at hstep
  dsimp only at hstep
  split at hstep
  · rename_i hfree
    cases hstep
    have hnew : createdIds [(⟨a, some (a.newId, true)⟩ : Returned)] = [some a.newId] := rfl
    refine ⟨h.rows.insert hid hfree now, fun t ht j hj => ?_, fun j y hy => ?_, fun r hr => ?_, ?_, ?_⟩
    · cases List.mem_append.1 ht with
      | inl hold => exact h.owned t hold j hj
      | inr hlast =>
        rw [List.mem_singleton.1 hlast] at hj
        cases hj
    · have hji : j ≠ i := by
        intro hcase
        rw [hcase, hi] at hy
        cases hy
      exact (h.sessions j y hy).kept (Keeps.append i s.rows _) hji
    · cases List.mem_append.1 hr with
      | inl hold => exact (h.returned r hold).kept (Keeps.append i s.rows _) fun hcase => by cases hcase
      | inr hlast =>
        rw [List.mem_singleton.1 hlast]
        exact ⟨_, List.mem_append_right _ (List.mem_singleton_self _), inserted_backed a now none⟩
    · refine nodup_createdIds_append h.once (by rw [hnew]; exact List.nodup_singleton _) fun r hr _ r' hr' _ => ?_
      rw [List.mem_singleton.1 hr']
      exact (h.returned r hr).replyId_ne h.rows hid
    · dsimp only
      rw [List.filter_append, List.map_append, List.map_append, ← List.append_assoc]
      exact h.emitted.append_right _
  · rename_i t hfound
    split_ifs at hstep with hvisible
    cases hstep
    have hnone : ∀ t ∈ s.rows, t.insertedBy ≠ some i := by
      intro t ht
      refine h.not_inserted (fun x hx => ?_) ht
      rw [hi] at hx
      cases hx
    refine h.draw.setSession ?_ fun y hy => ?_
    · rintro ⟨t, ht, hmine⟩
      exact absurd hmine (hnone t ht)
    · rw [← Option.some.inj hy]
      exact HasKey.of_conflict hfound hvisible

theorem Enqueues.Sound.emit (h : s.Sound u) (hr : r ∈ s.toEmit) :
    ({ s with toEmit := s.toEmit.erase r, events := s.events ++ [r.event] } : Enqueues).Sound u := by
  refine ⟨h.rows, h.owned, h.sessions, h.returned, h.once, ?_⟩
  have hperm : (s.toEmit.map Returned.event).Perm (r.event :: (s.toEmit.erase r).map Returned.event) :=
    (List.perm_cons_erase hr).map Returned.event
  refine List.Perm.trans ?_ h.emitted
  dsimp only
  rw [List.append_assoc]
  exact (hperm.symm).append_left s.events

theorem sound_enqueues (u : Uuids) : (enqueues u).Inductive (Enqueues.Sound u) where
  init s hs := by
    obtain ⟨hrows, hreturned, htoEmit, hevents, hsessions⟩ := hs
    constructor
    · constructor
      · rw [hrows]
        exact List.nodup_nil
      · intro t ht
        rw [hrows] at ht
        cases ht
      · intro t ht
        rw [hrows] at ht
        cases ht
    · intro t ht
      rw [hrows] at ht
      cases ht
    · intro i x hx
      rw [hsessions i] at hx
      cases hx
    · intro r hr
      rw [hreturned] at hr
      cases hr
    · rw [hreturned]
      exact List.nodup_nil
    · rw [hevents, htoEmit, hreturned]
      exact List.Perm.refl _
  step s a s' h hstep := by
    change s.step u a = some s' at hstep
    unfold Enqueues.step at hstep
    cases a with
    | begin i now =>
      dsimp only at hstep
      split_ifs at hstep with hnone
      cases hstep
      refine h.setSession (fun _ => ⟨_, rfl, trivial⟩) fun y hy => ?_
      rw [← Option.some.inj hy]
      exact ⟨fun r hr => (by cases hr), List.nodup_nil, fun a ha => (by cases ha)⟩
    | insert i a =>
      dsimp only at hstep
      split at hstep
      · rename_i hi
        exact h.insert hi rfl hstep
      · cases hstep
    | select i =>
      dsimp only at hstep
      split at hstep
      · rename_i hi
        cases hstep
        exact h.select hi
      · rename_i hi
        cases hstep
        exact h.selectAuto hi
      · cases hstep
    | commit i =>
      dsimp only at hstep
      split at hstep
      · rename_i hi
        cases hstep
        exact h.commit hi
      · cases hstep
    | rollback i =>
      dsimp only at hstep
      split at hstep
      · cases hstep
        exact h.rollback i
      · cases hstep
    | fail i =>
      dsimp only at hstep
      split at hstep
      · rename_i a hi
        cases hstep
        refine h.setSession ?_ fun y hy => by cases hy
        rintro ⟨t, ht, hmine⟩
        refine absurd hmine (h.not_inserted (fun x hx htx => ?_) ht)
        rw [hi] at hx
        rw [← Option.some.inj hx] at htx
        exact htx
      · cases hstep
    | enqueue i now a =>
      dsimp only at hstep
      split_ifs at hstep with hnone
      exact h.enqueue (Option.isNone_iff_eq_none.1 hnone) rfl hstep
    | emit r =>
      dsimp only at hstep
      split_ifs at hstep with hr
      cases hstep
      exact h.emit hr

/-! ## What the callers can rely on -/

/-- A list whose entries have distinct keys, all of them one, is not longer than one entry. -/
theorem length_le_one_of_key {α κ : Type} {key : α → κ} {l : List α} (hnodup : (l.map key).Nodup)
    (hsame : ∀ a ∈ l, ∀ b ∈ l, key a = key b) : l.length ≤ 1 := by
  cases l with
  | nil => exact Nat.zero_le 1
  | cons a l =>
    cases l with
    | nil => exact Nat.le_refl 1
    | cons b l =>
      have hfirst := (List.nodup_cons.1 hnodup).1
      rw [List.map_cons] at hfirst
      refine absurd ?_ hfirst
      rw [hsame a List.mem_cons_self b (List.mem_cons_of_mem _ List.mem_cons_self)]
      exact List.mem_cons_self

/-- Every call is over, and its event is sent. -/
def Enqueues.Done (s : Enqueues) : Prop :=
  (∀ i, s.sessions i = none) ∧ s.toEmit = []

def Returned.forKey (queue : String) (key : Option String) (r : Returned) : Bool :=
  r.args.queue = queue ∧ r.args.idempotencyKey = key

theorem Enqueues.Sound.rows_le_one (h : s.Sound u) (queue key : String) :
    (s.rows.filter fun t => sameKey queue (some key) t.row).length ≤ 1 := by
  have hids := h.rows.ids.sublist
    ((List.filter_sublist (p := fun t : Tuple => sameKey queue (some key) t.row)).map (·.row.id))
  refine length_le_one_of_key hids fun t ht t' ht' => ?_
  obtain ⟨hmem, hkey⟩ := List.mem_filter.1 ht
  obtain ⟨hmem', hkey'⟩ := List.mem_filter.1 ht'
  obtain ⟨hqueue, -, hsame⟩ := sameKey_iff.1 hkey
  have heq := h.rows.keys t hmem t' hmem' (by rw [hqueue, hsame]; exact hkey')
  rw [heq]

theorem Enqueues.Sound.row_of_returned (h : s.Sound u) (hr : r ∈ s.returned) {queue key : String}
    (hkey : r.forKey queue (some key) = true) :
    ∃ t ∈ s.rows, sameKey queue (some key) t.row = true ∧ r.reply = some (t.row.id, r.created) := by
  obtain ⟨t, ht, hby⟩ := h.returned r hr
  unfold Returned.forKey at hkey
  rw [decide_eq_true_iff] at hkey
  refine ⟨t, ht, sameKey_iff.2 ⟨hby.queue.trans hkey.1, rfl, hby.key.trans hkey.2⟩, hby.reply⟩

theorem Enqueues.Sound.created_le_one (h : s.Sound u) (queue key : String) :
    (s.returned.filter fun r => r.created && r.forKey queue (some key)).length ≤ 1 := by
  have hsub : (s.returned.filter fun r => r.created && r.forKey queue (some key)).Sublist
      (s.returned.filter Returned.created) := by
    refine List.monotone_filter_right _ fun r hr => ?_
    exact (Bool.and_eq_true _ _ ▸ hr).1
  refine length_le_one_of_key (h.once.sublist (hsub.map _)) fun r hr r' hr' => ?_
  obtain ⟨hmem, hcase⟩ := List.mem_filter.1 hr
  obtain ⟨hmem', hcase'⟩ := List.mem_filter.1 hr'
  rw [Bool.and_eq_true] at hcase hcase'
  obtain ⟨t, ht, hkey, hreply⟩ := h.row_of_returned hmem hcase.2
  obtain ⟨t', ht', hkey', hreply'⟩ := h.row_of_returned hmem' hcase'.2
  obtain ⟨hqueue, -, hsame⟩ := sameKey_iff.1 hkey
  have heq := h.rows.keys t ht t' ht' (by rw [hqueue, hsame]; exact hkey')
  rw [Returned.replyId, Returned.replyId, hreply, hreply', heq]
  rfl

theorem Enqueues.Sound.created_of_keyless (h : s.Sound u) (hr : r ∈ s.returned)
    (hkey : r.args.idempotencyKey = none) : r.created = true ∧ ∃ t ∈ s.rows, r.reply = some (t.row.id, true) := by
  obtain ⟨t, ht, hby⟩ := h.returned r hr
  have hcreated : r.created = true := by
    by_contra hcase
    have hsome := hby.keyed (Bool.not_eq_true _ ▸ hcase)
    rw [hkey] at hsome
    cases hsome
  refine ⟨hcreated, t, ht, ?_⟩
  rw [hby.reply, hcreated]

theorem Enqueues.Sound.keyless_nodup (h : s.Sound u) :
    ((s.returned.filter fun r => r.args.idempotencyKey = none).map Returned.replyId).Nodup := by
  have hsub : (s.returned.filter fun r => r.args.idempotencyKey = none).Sublist
      (s.returned.filter Returned.created) := by
    have hboth : s.returned.filter (fun r => r.args.idempotencyKey = none) =
        (s.returned.filter Returned.created).filter fun r => r.args.idempotencyKey = none := by
      rw [List.filter_filter]
      refine List.filter_congr fun r hr => ?_
      cases hkey : decide (r.args.idempotencyKey = none) with
      | false => rfl
      | true => rw [(h.created_of_keyless hr (of_decide_eq_true hkey)).1]; rfl
    rw [hboth]
    exact List.filter_sublist
  exact h.once.sublist (hsub.map _)

/-- When every call is over, a key has at most one row, whose id every committed call with the key was told, and at
most one of them created it; an event was sent for each call that created a row and for no other; and the calls
without a key created rows of their own. -/
theorem enqueued_once (u : Uuids) (s : Enqueues) (hs : (enqueues u).Reachable s) (hdone : s.Done) :
    (∀ queue key, (s.rows.filter fun t => sameKey queue (some key) t.row).length ≤ 1 ∧
      (∀ r ∈ s.returned, r.forKey queue (some key) = true →
        ∃ t ∈ s.rows, sameKey queue (some key) t.row = true ∧ r.reply = some (t.row.id, r.created)) ∧
      (s.returned.filter fun r => r.created && r.forKey queue (some key)).length ≤ 1) ∧
    s.events.Perm ((s.returned.filter Returned.created).map Returned.event) ∧
    (∀ r ∈ s.returned, r.args.idempotencyKey = none → r.created = true ∧
      ∃ t ∈ s.rows, r.reply = some (t.row.id, true)) ∧
    ((s.returned.filter fun r => r.args.idempotencyKey = none).map Returned.replyId).Nodup := by
  have h := (sound_enqueues u).reachable hs
  refine ⟨fun queue key => ⟨h.rows_le_one queue key, fun r hr => h.row_of_returned hr, h.created_le_one queue key⟩,
    ?_, fun r hr => h.created_of_keyless hr, h.keyless_nodup⟩
  have hemitted := h.emitted
  rw [hdone.2, List.map_nil, List.append_nil] at hemitted
  exact hemitted

/-- Two calls with one key. -/
def mailJob : NewJob :=
  ⟨"", "mail", "send", .null, some "welcome", 5, 0, none⟩

theorem enqueued_once_mail : ∃ s : Enqueues, s.returned.length = 2 ∧ s.Done ∧
    (s.rows.filter fun t => sameKey "mail" (some "welcome") t.row).length ≤ 1 := by
  let created : Returned := ⟨{ mailJob with newId := (default : Uuids).draw 0 }, some ((default : Uuids).draw 0, true)⟩
  have hs : (enqueues default).Reachable _ :=
    ⟨⟨[], 0, fun _ => none, [], [], []⟩, [.enqueue 0 0 mailJob, .enqueue 1 0 mailJob, .emit created, .select 1],
      ⟨rfl, rfl, rfl, rfl, fun _ => rfl⟩, .cons rfl (.cons rfl (.cons rfl (.single rfl)))⟩
  refine ⟨_, rfl, ?_, ((enqueued_once default _ hs ?_).1 "mail" "welcome").1⟩
  all_goals
    refine ⟨fun i => ?_, rfl⟩
    match i with
    | 0 => rfl
    | 1 => rfl
    | _ + 2 => rfl

end

end Atomo.Jobs
