import Atomo.Jobs.Store

/-!
# Expiring tokens

`ExpiringTokenStore`: `mint` and `purge_expired` are statements of their own, `consume` runs in the
transaction of its caller. A transaction that has updated or deleted a row holds its lock to the end, and the
others wait for it. Every token is consumed at most once (`consumed_at_most_once`).
-/

namespace Atomo.Metered

open Jobs (nowPlus)

/-- A row of `expiring_tokens` with the open transaction that has updated or deleted it; `created_at` is left
out. -/
structure Token where
  tokenSha256 : String
  purpose : String
  subject : String
  payload : Json
  expiresAt : Int
  consumedAt : Option Int := none
  lockedBy : Option Nat := none
  deriving DecidableEq

namespace Token

/-- The `WHERE` of `consume`. -/
def consumable (digest purpose subject : String) (now : Int) (r : Token) : Bool :=
  r.tokenSha256 = digest ∧ r.purpose = purpose ∧ r.subject = subject ∧ r.consumedAt = none ∧ now < r.expiresAt

def lock (i : Nat) (r : Token) : Token :=
  { r with lockedBy := some i }

def unlock (r : Token) : Token :=
  { r with lockedBy := none }

/-- `SET consumed_at = NOW()`, seen by the others when the transaction commits. -/
def consume (now : Int) (r : Token) : Token :=
  { r with consumedAt := some now, lockedBy := none }

def isLockedBy (i : Nat) (r : Token) : Bool :=
  r.lockedBy = some i

/-- What `mint` has written. -/
def core (r : Token) : Token :=
  { r with consumedAt := none, lockedBy := none }

end Token

/-- The source of the tokens and their hash. -/
structure Minter where
  uuid : Nat → String
  sha256Hex : String → String
  distinct : Function.Injective fun k => sha256Hex ("tok_" ++ uuid (2 * k) ++ uuid (2 * k + 1))

def Minter.token (m : Minter) (k : Nat) : String :=
  "tok_" ++ m.uuid (2 * k) ++ m.uuid (2 * k + 1)

instance : Inhabited Minter where
  default :=
    { uuid := fun k => String.ofList (List.replicate k 'x')
      sha256Hex := id
      distinct := fun k l h => by
        have h := congrArg String.toList h
        simp only [id, String.toList_append, String.toList_ofList] at h
        have h := congrArg List.length h
        simp only [List.length_append, List.length_replicate] at h
        omega }

/-- What a caller of `mint` asked for and was given. -/
structure Minted where
  token : String
  purpose : String
  subject : String
  payload : Json
  expiresAt : Int

def Minted.row (m : Minter) (t : Minted) : Token where
  tokenSha256 := m.sha256Hex t.token
  purpose := t.purpose
  subject := t.subject
  payload := t.payload
  expiresAt := t.expiresAt

/-- A `consume` that returned a payload. -/
structure Answer where
  token : String
  purpose : String
  subject : String
  payload : Json
  startedAt : Int

/-- An open transaction: a caller of `consume` with its answers so far, or a purge with the rows that it has
still to visit. -/
inductive TokenTx where
  | consumer (startedAt : Int) (answers : List Answer)
  | purge (startedAt : Int) (rest : List String)

/-- The table, the open transactions, and what the callers of `mint` and the committed callers of `consume` were
told. -/
structure TokenStore where
  rows : List Token
  drawn : Nat
  txs : Nat → Option TokenTx
  minted : List Minted
  answered : List Answer

inductive TokenAct where
  | mint (now : Int) (purpose subject : String) (payload : Json) (ttlSecs : Int)
  | begin (tx : Nat) (now : Int)
  | consume (tx : Nat) (purpose subject token : String)
  | purge (tx : Nat) (now : Int)
  | visit (tx : Nat) (digest : String)
  | commit (tx : Nat)
  | rollback (tx : Nat)

namespace TokenStore

variable (m : Minter) (s : TokenStore)

def setTx (i : Nat) (tx : Option TokenTx) : TokenStore :=
  { s with txs := Function.update s.txs i tx }

/-- The `INSERT` fails where the expiry is out of range. -/
def mint (now : Int) (purpose subject : String) (payload : Json) (ttlSecs : Int) : TokenStore :=
  let token := m.token s.drawn
  match nowPlus now ttlSecs with
  | none => { s with drawn := s.drawn + 1 }
  | some expiresAt =>
    let minted : Minted := { token, purpose, subject, payload, expiresAt }
    if m.sha256Hex token ∈ s.rows.map Token.tokenSha256 then { s with drawn := s.drawn + 1 }
    else { s with drawn := s.drawn + 1, rows := s.rows ++ [minted.row m], minted := s.minted ++ [minted] }

/-- None where the transaction waits for another one; an update of its own makes the row consumed for it. -/
def consume (i : Nat) (startedAt : Int) (answers : List Answer) (purpose subject token : String) :
    Option TokenStore :=
  match s.rows.find? (Token.consumable (m.sha256Hex token) purpose subject startedAt) with
  | none => some s
  | some r =>
    match r.lockedBy with
    | none =>
      some { s.setTx i (some (.consumer startedAt
          (answers ++ [{ token, purpose, subject, payload := r.payload, startedAt }]))) with
        rows := Table.update (·.tokenSha256 = r.tokenSha256) (Token.lock i) s.rows }
    | some j => if j = i then some s else none

/-- `DELETE FROM expiring_tokens WHERE expires_at < NOW()` meets one of the rows that it saw at its start. -/
def visit (i : Nat) (startedAt : Int) (rest : List String) (digest : String) : Option TokenStore :=
  if digest ∈ rest then
    let s' := s.setTx i (some (.purge startedAt (rest.erase digest)))
    match Table.find Token.tokenSha256 digest s.rows with
    | none => some s'
    | some r =>
      match r.lockedBy with
      | none =>
        if r.expiresAt < startedAt then
          some { s' with rows := Table.update (·.tokenSha256 = digest) (Token.lock i) s.rows }
        else some s'
      | some j => if j = i then some s' else none
  else none

def commit (i : Nat) : TokenTx → Option TokenStore
  | .consumer startedAt answers =>
    some { s.setTx i none with
      rows := Table.update (Token.isLockedBy i) (Token.consume startedAt) s.rows
      answered := s.answered ++ answers }
  | .purge _ rest =>
    if rest = [] then some { s.setTx i none with rows := s.rows.filter fun r => !r.isLockedBy i } else none

def rollback (i : Nat) : TokenStore :=
  { s.setTx i none with rows := Table.update (Token.isLockedBy i) Token.unlock s.rows }

def step : TokenAct → Option TokenStore
  | .mint now purpose subject payload ttlSecs => some (s.mint m now purpose subject payload ttlSecs)
  | .begin i now => if (s.txs i).isNone then some (s.setTx i (some (.consumer now []))) else none
  | .consume i purpose subject token =>
    match s.txs i with
    | some (.consumer startedAt answers) => s.consume m i startedAt answers purpose subject token
    | _ => none
  | .purge i now =>
    if (s.txs i).isNone then
      some (s.setTx i (some (.purge now ((s.rows.filter fun r => r.expiresAt < now).map Token.tokenSha256))))
    else none
  | .visit i digest =>
    match s.txs i with
    | some (.purge startedAt rest) => s.visit i startedAt rest digest
    | _ => none
  | .commit i => (s.txs i).bind (s.commit i)
  | .rollback i => if (s.txs i).isSome then some (s.rollback i) else none

end TokenStore

/-- Minting, consuming and purging from the empty table on. -/
def tokens (m : Minter) : LabelledSystem TokenStore TokenAct where
  init s := s.rows = [] ∧ s.minted = [] ∧ s.answered = [] ∧ s.drawn = 0 ∧ ∀ i, s.txs i = none
  step s a t := s.step m a = some t

/-! ## What the transactions keep -/

/-- A consume that has an answer named what the token was minted for, before it expired, and was given what was
minted. -/
structure Answers (m : Minter) (a : Answer) (t : Minted) : Prop where
  digest : m.sha256Hex a.token = m.sha256Hex t.token
  purpose : a.purpose = t.purpose
  subject : a.subject = t.subject
  payload : a.payload = t.payload
  beforeExpiry : a.startedAt < t.expiresAt

def digestOf (m : Minter) (a : Answer) : String :=
  m.sha256Hex a.token

/-- An answer is backed by the row that it has locked, unconsumed for all others. -/
def Backed (m : Minter) (rows : List Token) (i : Nat) (a : Answer) : Prop :=
  ∃ r ∈ rows, r.lockedBy = some i ∧ r.payload = a.payload ∧
    r.consumable (digestOf m a) a.purpose a.subject a.startedAt = true

def TokenTx.Sound (m : Minter) (rows : List Token) (i : Nat) : TokenTx → Prop
  | .consumer startedAt answers => (answers.map (digestOf m)).Nodup ∧
      ∀ a ∈ answers, a.startedAt = startedAt ∧ Backed m rows i a
  | .purge startedAt _ => ∀ r ∈ rows, r.lockedBy = some i → r.expiresAt < startedAt

structure TokenStore.Sound (m : Minter) (s : TokenStore) : Prop where
  keys : (s.rows.map Token.tokenSha256).Nodup
  drawn : (s.minted.map (·.token)).Sublist ((List.range s.drawn).map m.token)
  made : ∀ r ∈ s.rows, ∃ t ∈ s.minted, r.core = t.row m
  owned : ∀ r ∈ s.rows, ∀ i, r.lockedBy = some i → s.txs i ≠ none
  txs : ∀ i tx, s.txs i = some tx → tx.Sound m s.rows i
  once : (s.answered.map (digestOf m)).Nodup
  answered : ∀ a ∈ s.answered, ∃ t ∈ s.minted, Answers m a t ∧
    ∀ r ∈ s.rows, r.tokenSha256 = digestOf m a → r.consumedAt ≠ none

/-- What a transaction does to the table leaves alone the rows that others have locked, and what was minted. -/
structure Touches (i : Nat) (rows rows' : List Token) : Prop where
  keys : (rows'.map Token.tokenSha256).Sublist (rows.map Token.tokenSha256)
  image : ∀ r ∈ rows', ∃ r₀ ∈ rows, r.core = r₀.core ∧ (r₀.consumedAt ≠ none → r.consumedAt ≠ none) ∧
    ∀ j, r.lockedBy = some j → j ≠ i → r₀ = r
  kept : ∀ r ∈ rows, ∀ j, r.lockedBy = some j → j ≠ i → r ∈ rows'

namespace Touches

variable {i : Nat} {rows : List Token}

theorem refl (i : Nat) (rows : List Token) : Touches i rows rows where
  keys := List.Sublist.refl _
  image r hr := ⟨r, hr, rfl, id, fun _ _ _ => rfl⟩
  kept _ hr _ _ _ := hr

theorem update {p : Token → Bool} {f : Token → Token} (hcore : ∀ r, (f r).core = r.core)
    (hconsumed : ∀ r, r.consumedAt ≠ none → (f r).consumedAt ≠ none)
    (hlock : ∀ r j, (f r).lockedBy = some j → j = i)
    (hfree : ∀ r ∈ rows, p r = true → ∀ j, r.lockedBy = some j → j = i) :
    Touches i rows (Table.update p f rows) := by
  have hkey : ∀ r, (f r).tokenSha256 = r.tokenSha256 := by
    intro r
    have hboth := congrArg Token.tokenSha256 (hcore r)
    exact hboth
  refine ⟨by rw [Table.map_update hkey], fun r hr => ?_, fun r hr j hj hne => ?_⟩
  · cases Table.mem_update_cases hr with
    | inl hmissed => exact ⟨r, hmissed.1, rfl, id, fun _ _ _ => rfl⟩
    | inr hhit =>
      obtain ⟨r₀, h₀, _, rfl⟩ := hhit
      exact ⟨r₀, h₀, hcore r₀, hconsumed r₀, fun j hj hne => absurd (hlock r₀ j hj) hne⟩
  · cases hp : p r with
    | true => exact absurd (hfree r hr hp j hj) hne
    | false => exact Table.mem_update_of_not hr hp

theorem filter {p : Token → Bool} (hp : ∀ r ∈ rows, p r = false → r.lockedBy = some i) :
    Touches i rows (rows.filter p) where
  keys := List.filter_sublist.map _
  image r hr := ⟨r, (List.mem_filter.1 hr).1, rfl, id, fun _ _ _ => rfl⟩
  kept r hr j hj hne := by
    refine List.mem_filter.2 ⟨hr, ?_⟩
    cases hcase : p r with
    | true => rfl
    | false =>
      rw [hp r hr hcase] at hj
      exact absurd (Option.some.inj hj).symm hne

end Touches

section

variable {m : Minter} {s : TokenStore} {i : Nat} {tx : TokenTx} {rows rows' : List Token}

theorem Token.key_of_core {r : Token} {t : Minted} (h : r.core = t.row m) : r.tokenSha256 = m.sha256Hex t.token := by
  have hkey := congrArg Token.tokenSha256 h
  exact hkey

theorem TokenTx.Sound.touches {j : Nat} (h : tx.Sound m rows j) (hne : j ≠ i) (ht : Touches i rows rows') :
    tx.Sound m rows' j := by
  cases tx with
  | consumer startedAt answers =>
    refine ⟨h.1, fun a ha => ?_⟩
    obtain ⟨hstarted, r, hr, hlocked, hrow⟩ := h.2 a ha
    exact ⟨hstarted, r, ht.kept r hr j hlocked hne, hlocked, hrow⟩
  | purge startedAt rest =>
    intro r hr hlocked
    obtain ⟨r₀, h₀, -, -, hsame⟩ := ht.image r hr
    have heq := hsame j hlocked hne
    subst heq
    exact h r₀ h₀ hlocked

/-- A transaction goes on, or ends without an answer. -/
theorem TokenStore.Sound.touch (h : s.Sound m) {tx' : Option TokenTx} (ht : Touches i s.rows rows')
    (hown : (∃ r ∈ rows', r.lockedBy = some i) → tx' ≠ none) (htx : ∀ tx, tx' = some tx → tx.Sound m rows' i) :
    ({ s.setTx i tx' with rows := rows' } : TokenStore).Sound m := by
  refine ⟨h.keys.sublist ht.keys, h.drawn, fun r hr => ?_, fun r hr j hj => ?_, fun j tx hj => ?_, h.once, fun a ha => ?_⟩
  · obtain ⟨r₀, h₀, hcore, -, -⟩ := ht.image r hr
    rw [hcore]
    exact h.made r₀ h₀
  · dsimp only [TokenStore.setTx]
    by_cases hji : j = i
    · subst hji
      rw [Function.update_self]
      exact hown ⟨r, hr, hj⟩
    · rw [Function.update_of_ne hji]
      obtain ⟨r₀, h₀, -, -, hsame⟩ := ht.image r hr
      have heq := hsame j hj hji
      subst heq
      exact h.owned r₀ h₀ j hj
  · dsimp only [TokenStore.setTx] at hj ⊢
    by_cases hji : j = i
    · subst hji
      rw [Function.update_self] at hj
      exact htx tx hj
    · rw [Function.update_of_ne hji] at hj
      exact (h.txs j tx hj).touches hji ht
  · obtain ⟨t, htm, hanswers, hconsumed⟩ := h.answered a ha
    refine ⟨t, htm, hanswers, fun r hr hkey => ?_⟩
    obtain ⟨r₀, h₀, hcore, hmono, -⟩ := ht.image r hr
    have hkey₀ : r₀.tokenSha256 = r.tokenSha256 := (congrArg Token.tokenSha256 hcore).symm
    exact hmono (hconsumed r₀ h₀ (hkey₀.trans hkey))

/-- Nobody's rows are locked by a transaction that has not begun. -/
theorem TokenStore.Sound.begin (h : s.Sound m) (hi : s.txs i = none) {tx : TokenTx}
    (htx : (∀ r ∈ s.rows, r.lockedBy ≠ some i) → tx.Sound m s.rows i) : (s.setTx i (some tx)).Sound m := by
  have hfree : ∀ r ∈ s.rows, r.lockedBy ≠ some i := fun r hr hlocked => h.owned r hr i hlocked hi
  refine h.touch (.refl i s.rows) (fun _ => Option.some_ne_none tx) fun tx' heq => ?_
  rw [← Option.some.inj heq]
  exact htx hfree

theorem Token.consumable_iff {digest purpose subject : String} {now : Int} {r : Token} :
    r.consumable digest purpose subject now = true ↔ r.tokenSha256 = digest ∧ r.purpose = purpose ∧
      r.subject = subject ∧ r.consumedAt = none ∧ now < r.expiresAt := by
  unfold Token.consumable
  rw [decide_eq_true_iff]

/-- The rows with the digest of a row are that row. -/
theorem lock_touches (hkeys : (s.rows.map Token.tokenSha256).Nodup) {r : Token} (hr : r ∈ s.rows)
    (hfree : r.lockedBy = none) :
    Touches i s.rows (Table.update (·.tokenSha256 = r.tokenSha256) (Token.lock i) s.rows) := by
  refine .update (fun _ => rfl) (fun _ h => h) (fun _ j hj => (Option.some.inj hj).symm) fun r' hr' hp j hj => ?_
  have heq := Table.eq_of_key hkeys hr' hr (of_decide_eq_true hp)
  rw [heq, hfree] at hj
  cases hj

theorem TokenStore.Sound.consume (h : s.Sound m) {startedAt : Int} {answers : List Answer}
    (hi : s.txs i = some (.consumer startedAt answers)) {purpose subject token : String} {s' : TokenStore}
    (hstep : s.consume m i startedAt answers purpose subject token = some s') : s'.Sound m := by
  unfold TokenStore.consume at hstep
  split at hstep
  · cases hstep
    exact h
  · rename_i r hfound
    have hr : r ∈ s.rows := List.mem_of_find?_eq_some hfound
    have hmatch := List.find?_some hfound
    have hdigest := (Token.consumable_iff.1 hmatch).1
    split at hstep
    · rename_i hfree
      cases hstep
      obtain ⟨hnodup, hbacked⟩ := h.txs i _ hi
      have ht := lock_touches (i := i) h.keys hr hfree
      refine h.touch ht (fun _ => Option.some_ne_none _) fun tx heq => ?_
      rw [← Option.some.inj heq]
      constructor
      · rw [List.map_append, List.map_singleton, List.nodup_append]
        refine ⟨hnodup, List.nodup_singleton _, fun d hd d' hd' hsame => ?_⟩
        -- an earlier answer for this digest would have locked the row
        obtain ⟨a, ha, rfl⟩ := List.mem_map.1 hd
        rw [List.mem_singleton.1 hd'] at hsame
        obtain ⟨-, r₀, h₀, hlocked, -, hrow⟩ := hbacked a ha
        have hkey := (Token.consumable_iff.1 hrow).1
        have heq := Table.eq_of_key h.keys h₀ hr (hkey.trans (hsame.trans hdigest.symm))
        rw [heq, hfree] at hlocked
        cases hlocked
      · intro a ha
        cases List.mem_append.1 ha with
        | inl hold =>
          obtain ⟨hstarted, r₀, h₀, hlocked, hpayload, hrow⟩ := hbacked a hold
          refine ⟨hstarted, r₀, Table.mem_update_of_not h₀ ?_, hlocked, hpayload, hrow⟩
          refine decide_eq_false fun hsame => ?_
          rw [Table.eq_of_key h.keys h₀ hr hsame, hfree] at hlocked
          cases hlocked
        | inr hnew =>
          rw [List.mem_singleton.1 hnew]
          exact ⟨rfl, r.lock i, Table.mem_update_of hr (decide_eq_true rfl), rfl, rfl, hmatch⟩
    · rename_i j hlocked
      split_ifs at hstep
      cases hstep
      exact h

/-! ## Minting -/

theorem tokens_nodup (m : Minter) (n : Nat) : (((List.range n).map m.token).map m.sha256Hex).Nodup := by
  rw [List.map_map]
  exact (List.nodup_map_iff m.distinct).2 List.nodup_range

theorem TokenStore.Sound.minted_nodup (h : s.Sound m) : ((s.minted.map (·.token)).map m.sha256Hex).Nodup :=
  (tokens_nodup m s.drawn).sublist (h.drawn.map _)

/-- A minted token is told from the others by its digest. -/
theorem TokenStore.Sound.eq_of_digest (h : s.Sound m) {t t' : Minted} (ht : t ∈ s.minted) (ht' : t' ∈ s.minted)
    (hdigest : m.sha256Hex t.token = m.sha256Hex t'.token) : t = t' := by
  have hnodup := h.minted_nodup
  rw [List.map_map] at hnodup
  exact List.inj_on_of_nodup_map hnodup ht ht' hdigest

theorem drawn_succ {tokens : List String} {n : Nat} (h : tokens.Sublist ((List.range n).map m.token)) :
    (tokens ++ [m.token n]).Sublist ((List.range (n + 1)).map m.token) := by
  rw [List.range_succ, List.map_append, List.map_singleton]
  exact h.append (List.Sublist.refl _)

/-- A `mint` that fails has used up its identifiers. -/
theorem TokenStore.Sound.drop (h : s.Sound m) : ({ s with drawn := s.drawn + 1 } : TokenStore).Sound m :=
  ⟨h.keys, (List.sublist_append_left _ _).trans (drawn_succ h.drawn), h.made, h.owned, h.txs, h.once, h.answered⟩

theorem TokenStore.Sound.mint (h : s.Sound m) (now : Int) (purpose subject : String) (payload : Json)
    (ttlSecs : Int) : (s.mint m now purpose subject payload ttlSecs).Sound m := by
  unfold TokenStore.mint
  dsimp only
  split
  · exact h.drop
  · rename_i expiresAt _
    split_ifs with htaken
    · exact h.drop
    · set t : Minted := { token := m.token s.drawn, purpose, subject, payload, expiresAt } with htoken
      have hdrawn := drawn_succ h.drawn
      have hnew : ∀ t' ∈ s.minted, m.sha256Hex t'.token ≠ m.sha256Hex t.token := by
        intro t' ht' hsame
        have hnodup := (tokens_nodup m (s.drawn + 1)).sublist (hdrawn.map _)
        rw [List.map_append, List.map_singleton, List.nodup_append] at hnodup
        exact hnodup.2.2 _ (List.mem_map_of_mem (List.mem_map_of_mem ht')) _ (List.mem_singleton_self _) hsame
      refine ⟨?_, ?_, fun r hr => ?_, fun r hr j hj => ?_, fun j tx hj => ?_, h.once, fun a ha => ?_⟩
      · rw [List.map_append, List.map_singleton, List.nodup_append]
        refine ⟨h.keys, List.nodup_singleton _, fun d hd d' hd' hsame => ?_⟩
        rw [List.mem_singleton.1 hd'] at hsame
        rw [hsame] at hd
        exact htaken hd
      · rw [List.map_append, List.map_singleton]
        exact hdrawn
      · cases List.mem_append.1 hr with
        | inl hold =>
          obtain ⟨t', ht', hcore⟩ := h.made r hold
          exact ⟨t', List.mem_append_left _ ht', hcore⟩
        | inr hrow =>
          rw [List.mem_singleton.1 hrow]
          exact ⟨t, List.mem_append_right _ (List.mem_singleton_self t), rfl⟩
      · cases List.mem_append.1 hr with
        | inl hold => exact h.owned r hold j hj
        | inr hrow =>
          rw [List.mem_singleton.1 hrow] at hj
          cases hj
      · have hsound := h.txs j tx hj
        cases tx with
        | consumer startedAt answers =>
          refine ⟨hsound.1, fun a ha => ?_⟩
          obtain ⟨hstarted, r, hr, hrest⟩ := hsound.2 a ha
          exact ⟨hstarted, r, List.mem_append_left _ hr, hrest⟩
        | purge startedAt rest =>
          intro r hr hlocked
          cases List.mem_append.1 hr with
          | inl hold => exact hsound r hold hlocked
          | inr hrow =>
            rw [List.mem_singleton.1 hrow] at hlocked
            cases hlocked
      · obtain ⟨t', ht', hanswers, hconsumed⟩ := h.answered a ha
        refine ⟨t', List.mem_append_left _ ht', hanswers, fun r hr hkey => ?_⟩
        cases List.mem_append.1 hr with
        | inl hold => exact hconsumed r hold hkey
        | inr hrow =>
          rw [List.mem_singleton.1 hrow] at hkey
          exact absurd (hanswers.digest.symm.trans hkey.symm) (hnew t' ht')

/-! ## Purging and the end of a transaction -/

theorem TokenStore.Sound.visit (h : s.Sound m) {startedAt : Int} {rest : List String}
    (hi : s.txs i = some (.purge startedAt rest)) {digest : String} {s' : TokenStore}
    (hstep : s.visit i startedAt rest digest = some s') : s'.Sound m := by
  have hpurge : ∀ r ∈ s.rows, r.lockedBy = some i → r.expiresAt < startedAt := h.txs i _ hi
  have hskip : (s.setTx i (some (.purge startedAt (rest.erase digest)))).Sound m := by
    refine h.touch (.refl i s.rows) (fun _ => Option.some_ne_none _) fun tx heq => ?_
    rw [← Option.some.inj heq]
    exact hpurge
  unfold TokenStore.visit at hstep
  split_ifs at hstep
  dsimp only at hstep
  split at hstep
  · cases hstep
    exact hskip
  · rename_i r hfound
    have hr := Table.mem_of_find hfound
    have hkey := Table.key_of_find hfound
    split at hstep
    · rename_i hfree
      split_ifs at hstep with hexpired
      · cases hstep
        subst hkey
        refine h.touch (lock_touches h.keys hr hfree) (fun _ => Option.some_ne_none _) fun tx heq => ?_
        rw [← Option.some.inj heq]
        intro r' hr' hlocked
        cases Table.mem_update_cases hr' with
        | inl hmissed => exact hpurge r' hmissed.1 hlocked
        | inr hhit =>
          obtain ⟨r₀, h₀, hp, rfl⟩ := hhit
          rw [Table.eq_of_key h.keys h₀ hr (of_decide_eq_true hp)]
          exact hexpired
      · cases hstep
        exact hskip
    · split_ifs at hstep
      cases hstep
      exact hskip

theorem isLockedBy_iff {r : Token} : r.isLockedBy i = true ↔ r.lockedBy = some i := by
  unfold Token.isLockedBy
  rw [decide_eq_true_iff]

/-- Nobody's rows are locked by a transaction that has ended. -/
theorem not_locked_of_update {f : Token → Token} (hf : ∀ r, (f r).lockedBy = none) {r : Token}
    (hr : r ∈ Table.update (Token.isLockedBy i) f rows) : r.lockedBy ≠ some i := by
  intro hlocked
  cases Table.mem_update_cases hr with
  | inl hmissed =>
    rw [isLockedBy_iff.2 hlocked] at hmissed
    cases hmissed.2
  | inr hhit =>
    obtain ⟨r₀, -, -, rfl⟩ := hhit
    rw [hf] at hlocked
    cases hlocked

theorem end_touches {f : Token → Token} (hcore : ∀ r, (f r).core = r.core)
    (hconsumed : ∀ r, r.consumedAt ≠ none → (f r).consumedAt ≠ none) (hf : ∀ r, (f r).lockedBy = none) :
    Touches i rows (Table.update (Token.isLockedBy i) f rows) := by
  refine .update hcore hconsumed (fun r j hj => ?_) fun r _ hp j hj => ?_
  · rw [hf] at hj
    cases hj
  · rw [isLockedBy_iff.1 hp] at hj
    exact (Option.some.inj hj).symm

theorem TokenStore.Sound.rollback (h : s.Sound m) (i : Nat) : (s.rollback i).Sound m := by
  refine h.touch (end_touches (fun _ => rfl) (fun _ hr => hr) fun _ => rfl) ?_ fun tx heq => ?_
  · rintro ⟨r, hr, hlocked⟩
    exact absurd hlocked (not_locked_of_update (fun _ => rfl) hr)
  · cases heq

/-- A committed consumer leaves the rows of its answers consumed, and no answer was given for them before. -/
theorem TokenStore.Sound.commitConsumer (h : s.Sound m) {startedAt : Int} {answers : List Answer}
    (hi : s.txs i = some (.consumer startedAt answers)) {s' : TokenStore}
    (hstep : s.commit i (.consumer startedAt answers) = some s') : s'.Sound m := by
  cases hstep
  obtain ⟨hnodup, hbacked⟩ := h.txs i _ hi
  have htouch : ({ s.setTx i none with
      rows := Table.update (Token.isLockedBy i) (Token.consume startedAt) s.rows } : TokenStore).Sound m := by
    refine h.touch (end_touches (fun _ => rfl) (fun _ _ => Option.some_ne_none _) fun _ => rfl) ?_ fun tx heq => ?_
    · rintro ⟨r, hr, hlocked⟩
      exact absurd hlocked (not_locked_of_update (fun _ => rfl) hr)
    · cases heq
  refine ⟨htouch.keys, htouch.drawn, htouch.made, htouch.owned, htouch.txs, ?_, fun a ha => ?_⟩
  · dsimp only
    rw [List.map_append, List.nodup_append]
    refine ⟨h.once, hnodup, fun d hd d' hd' hsame => ?_⟩
    obtain ⟨a, ha, rfl⟩ := List.mem_map.1 hd
    obtain ⟨a', ha', rfl⟩ := List.mem_map.1 hd'
    obtain ⟨t, -, -, hconsumed⟩ := h.answered a ha
    obtain ⟨-, r, hr, -, -, hrow⟩ := hbacked a' ha'
    obtain ⟨hkey, -, -, hunconsumed, -⟩ := Token.consumable_iff.1 hrow
    exact hconsumed r hr (hkey.trans hsame.symm) hunconsumed
  · cases List.mem_append.1 ha with
    | inl hold => exact htouch.answered a hold
    | inr hnew =>
      obtain ⟨hstarted, r, hr, hlocked, hpayload, hrow⟩ := hbacked a hnew
      obtain ⟨hkey, hpurpose, hsubject, -, hexpiry⟩ := Token.consumable_iff.1 hrow
      obtain ⟨t, ht, hcore⟩ := h.made r hr
      have hfields : r.purpose = t.purpose ∧ r.subject = t.subject ∧ r.payload = t.payload ∧ r.expiresAt = t.expiresAt := by
        refine ⟨?_, ?_, ?_, ?_⟩
        · have hfield := congrArg Token.purpose hcore
          exact hfield
        · have hfield := congrArg Token.subject hcore
          exact hfield
        · have hfield := congrArg Token.payload hcore
          exact hfield
        · have hfield := congrArg Token.expiresAt hcore
          exact hfield
      obtain ⟨hp, hs, hpay, hexp⟩ := hfields
      refine ⟨t, ht, ⟨hkey.symm.trans (Token.key_of_core hcore), hpurpose.symm.trans hp, hsubject.symm.trans hs,
        hpayload.symm.trans hpay, hexp ▸ hexpiry⟩, fun r' hr' hkey' => ?_⟩
      -- the only row with the digest of the answer is the one that the consumer has locked
      have hmem : r.consume startedAt ∈ Table.update (Token.isLockedBy i) (Token.consume startedAt) s.rows :=
        Table.mem_update_of hr (isLockedBy_iff.2 hlocked)
      have heq := Table.eq_of_key htouch.keys hr' hmem (hkey'.trans hkey.symm)
      rw [heq]
      exact Option.some_ne_none _

theorem TokenStore.Sound.commitPurge (h : s.Sound m) {startedAt : Int} {rest : List String} {s' : TokenStore}
    (hstep : s.commit i (.purge startedAt rest) = some s') : s'.Sound m := by
  unfold TokenStore.commit at hstep
  dsimp only at hstep
  split_ifs at hstep
  cases hstep
  have hpass : ∀ r ∈ s.rows, (!r.isLockedBy i) = false → r.lockedBy = some i := by
    intro r _ hcase
    rw [Bool.not_eq_false'] at hcase
    exact isLockedBy_iff.1 hcase
  refine h.touch (.filter hpass) ?_ fun tx heq => ?_
  · rintro ⟨r, hr, hlocked⟩
    have hkept := (List.mem_filter.1 hr).2
    rw [isLockedBy_iff.2 hlocked] at hkept
    cases hkept
  · cases heq

theorem sound_tokens (m : Minter) : (tokens m).Inductive (TokenStore.Sound m) where
  init s hs := by
    obtain ⟨hrows, hminted, hanswered, hdrawn, htxs⟩ := hs
    refine ⟨by rw [hrows]; exact List.nodup_nil, by rw [hminted]; exact List.nil_sublist _, ?_, ?_, ?_,
      by rw [hanswered]; exact List.nodup_nil, ?_⟩
    · intro r hr
      rw [hrows] at hr
      cases hr
    · intro r hr
      rw [hrows] at hr
      cases hr
    · intro i tx hi
      rw [htxs i] at hi
      cases hi
    · intro a ha
      rw [hanswered] at ha
      cases ha
  step s a s' h hstep := by
    change s.step m a = some s' at hstep
    unfold TokenStore.step at hstep
    cases a with
    | mint now purpose subject payload ttlSecs =>
      cases hstep
      exact h.mint now purpose subject payload ttlSecs
    | begin i now =>
      dsimp only at hstep
      split_ifs at hstep with hnone
      cases hstep
      refine h.begin (Option.isNone_iff_eq_none.1 hnone) fun _ => ⟨List.nodup_nil, fun a ha => ?_⟩
      cases ha
    | consume i purpose subject token =>
      dsimp only at hstep
      split at hstep
      · rename_i hi
        exact h.consume hi hstep
      · cases hstep
    | purge i now =>
      dsimp only at hstep
      split_ifs at hstep with hnone
      cases hstep
      exact h.begin (Option.isNone_iff_eq_none.1 hnone) fun hfree r hr hlocked => absurd hlocked (hfree r hr)
    | visit i digest =>
      dsimp only at hstep
      split at hstep
      · rename_i hi
        exact h.visit hi hstep
      · cases hstep
    | commit i =>
      obtain ⟨tx, hi, hcommit⟩ := Option.bind_eq_some_iff.1 hstep
      cases tx with
      | consumer startedAt answers => exact h.commitConsumer hi hcommit
      | purge startedAt rest => exact h.commitPurge hcommit
    | rollback i =>
      dsimp only at hstep
      split_ifs at hstep
      cases hstep
      exact h.rollback i

/-! ## What the callers can rely on -/

/-- The row of a token is in the table. -/
def Stored (m : Minter) (s : TokenStore) (t : Minted) : Prop :=
  t.row m ∈ s.rows.map Token.core

/-- Every transaction that started before the expiry of the token is answered when it consumes it. -/
def Usable (m : Minter) (s : TokenStore) (t : Minted) : Prop :=
  ∀ i startedAt answers, s.txs i = some (.consumer startedAt answers) → startedAt < t.expiresAt →
    ∃ s', s.step m (.consume i t.purpose t.subject t.token) = some s' ∧
      s'.txs i = some (.consumer startedAt (answers ++ [⟨t.token, t.purpose, t.subject, t.payload, startedAt⟩]))

theorem TokenStore.Sound.usable (h : s.Sound m) {t : Minted} {r : Token} (hr : r ∈ s.rows) (hrow : r = t.row m) :
    Usable m s t := by
  intro i startedAt answers hi hstarted
  have hmatch : r.consumable (m.sha256Hex t.token) t.purpose t.subject startedAt = true := by
    rw [hrow]
    exact Token.consumable_iff.2 ⟨rfl, rfl, rfl, rfl, hstarted⟩
  obtain ⟨found, hfound⟩ := Option.isSome_iff_exists.1 (List.find?_isSome.2 ⟨r, hr, hmatch⟩)
  have hkey := (Token.consumable_iff.1 (List.find?_some hfound)).1
  have hsame : found = r := by
    refine Table.eq_of_key h.keys (List.mem_of_find?_eq_some hfound) hr ?_
    rw [hkey, hrow]
    rfl
  have hfree : found.lockedBy = none := by
    rw [hsame, hrow]
    rfl
  have hpayload : found.payload = t.payload := by
    rw [hsame, hrow]
    rfl
  let tx : TokenTx := .consumer startedAt (answers ++ [⟨t.token, t.purpose, t.subject, t.payload, startedAt⟩])
  refine ⟨{ s.setTx i (some tx) with
    rows := Table.update (·.tokenSha256 = found.tokenSha256) (Token.lock i) s.rows }, ?_, ?_⟩
  · unfold TokenStore.step TokenStore.consume
    dsimp only
    rw [hi]
    dsimp only
    rw [hfound]
    dsimp only
    rw [hfree, hpayload]
  · exact Function.update_self i (some tx) s.txs

/-- A consume that is rolled back leaves the row as it was minted. -/
theorem TokenStore.Sound.usable_of_rollback (h : s.Sound m) {startedAt : Int} {answers : List Answer}
    (hi : s.txs i = some (.consumer startedAt answers)) {a : Answer} (ha : a ∈ answers) {t : Minted}
    (ht : t ∈ s.minted) (htoken : a.token = t.token) : Usable m (s.rollback i) t := by
  obtain ⟨-, r, hr, hlocked, -, hrow⟩ := (h.txs i _ hi).2 a ha
  obtain ⟨hkey, -, -, hunconsumed, -⟩ := Token.consumable_iff.1 hrow
  obtain ⟨t', ht', hcore⟩ := h.made r hr
  have hsame : t' = t := by
    refine h.eq_of_digest ht' ht ?_
    rw [← Token.key_of_core hcore, hkey, digestOf, htoken]
  have hunlocked : r.unlock = t.row m := by
    rw [← hsame, ← hcore, Token.unlock, Token.core, hunconsumed]
  exact (h.rollback i).usable (Table.mem_update_of hr (isLockedBy_iff.2 hlocked)) hunlocked

theorem cores_subset_update {p : Token → Bool} {f : Token → Token} (hcore : ∀ r, (f r).core = r.core) :
    rows.map Token.core ⊆ (Table.update p f rows).map Token.core := by
  rw [Table.map_update hcore]
  exact List.Subset.refl _

/-- The rows stay in the table, but for those that a purge has deleted. -/
theorem step_cores {a : TokenAct} {s' : TokenStore} (hstep : s.step m a = some s') :
    (∃ i startedAt, a = .commit i ∧ s.txs i = some (.purge startedAt []) ∧
      s'.rows = s.rows.filter fun r => !r.isLockedBy i) ∨
    s.rows.map Token.core ⊆ s'.rows.map Token.core := by
  unfold TokenStore.step at hstep
  cases a with
  | mint now purpose subject payload ttlSecs =>
    cases hstep
    right
    unfold TokenStore.mint
    dsimp only
    split
    · exact List.Subset.refl _
    · split_ifs
      · exact List.Subset.refl _
      · rw [List.map_append]
        exact List.subset_append_left _ _
  | begin i now =>
    dsimp only at hstep
    split_ifs at hstep
    cases hstep
    exact .inr (List.Subset.refl _)
  | consume i purpose subject token =>
    dsimp only at hstep
    split at hstep
    · unfold TokenStore.consume at hstep
      split at hstep
      · cases hstep
        exact .inr (List.Subset.refl _)
      · split at hstep
        · cases hstep
          exact .inr (cores_subset_update fun _ => rfl)
        · split_ifs at hstep
          cases hstep
          exact .inr (List.Subset.refl _)
    · cases hstep
  | purge i now =>
    dsimp only at hstep
    split_ifs at hstep
    cases hstep
    exact .inr (List.Subset.refl _)
  | visit i digest =>
    dsimp only at hstep
    split at hstep
    · unfold TokenStore.visit at hstep
      split_ifs at hstep
      dsimp only at hstep
      split at hstep
      · cases hstep
        exact .inr (List.Subset.refl _)
      · split at hstep
        · split_ifs at hstep
          · cases hstep
            exact .inr (cores_subset_update fun _ => rfl)
          · cases hstep
            exact .inr (List.Subset.refl _)
        · split_ifs at hstep
          cases hstep
          exact .inr (List.Subset.refl _)
    · cases hstep
  | commit i =>
    obtain ⟨tx, hi, hcommit⟩ := Option.bind_eq_some_iff.1 hstep
    cases tx with
    | consumer startedAt answers =>
      cases hcommit
      exact .inr (cores_subset_update fun _ => rfl)
    | purge startedAt rest =>
      unfold TokenStore.commit at hcommit
      dsimp only at hcommit
      split_ifs at hcommit with hdone
      cases hcommit
      subst hdone
      exact .inl ⟨i, startedAt, rfl, hi, rfl⟩
  | rollback i =>
    dsimp only at hstep
    split_ifs at hstep
    cases hstep
    exact .inr (cores_subset_update fun _ => rfl)

theorem TokenStore.Sound.expired_of_gone (h : s.Sound m) {a : TokenAct} {s' : TokenStore}
    (hstep : s.step m a = some s') {t : Minted} (hstored : Stored m s t) (hgone : ¬Stored m s' t) :
    ∃ i startedAt, a = .commit i ∧ s.txs i = some (.purge startedAt []) ∧ t.expiresAt < startedAt := by
  rcases step_cores hstep with ⟨i, startedAt, rfl, hi, hrows⟩ | hkept
  · refine ⟨i, startedAt, rfl, hi, ?_⟩
    obtain ⟨r, hr, hcore⟩ := List.mem_map.1 hstored
    have hexpiry : r.expiresAt = t.expiresAt := by
      have hfield := congrArg Token.expiresAt hcore
      exact hfield
    rw [← hexpiry]
    refine h.txs i _ hi r hr ?_
    by_contra hlocked
    refine hgone ?_
    unfold Stored
    rw [hrows, ← hcore]
    refine List.mem_map_of_mem (List.mem_filter.2 ⟨hr, ?_⟩)
    cases hcase : r.isLockedBy i with
    | false => rfl
    | true => exact absurd (isLockedBy_iff.1 hcase) hlocked
  · exact absurd (hkept hstored) hgone

/-- At most one committed consume of a token is answered, with what was minted and before its expiry. A consume
that is rolled back leaves the token usable, and a purge takes away only what has expired when it starts, so
nothing from a consumer that starts then or later. -/
theorem consumed_at_most_once (m : Minter) (s : TokenStore) (hs : (tokens m).Reachable s) :
    (∀ t ∈ s.minted, (s.answered.filter fun a => a.token = t.token).length ≤ 1 ∧
      ∀ a ∈ s.answered, a.token = t.token → Answers m a t) ∧
    (∀ i startedAt answers s', s.txs i = some (.consumer startedAt answers) →
      (tokens m).step s (.rollback i) s' →
      ∀ a ∈ answers, ∀ t ∈ s.minted, a.token = t.token → Usable m s' t) ∧
    ∀ a s' t, (tokens m).step s a s' → Stored m s t → ¬Stored m s' t →
      ∃ i startedAt, a = .commit i ∧ s.txs i = some (.purge startedAt []) ∧ t.expiresAt < startedAt ∧
        ∀ later, startedAt ≤ later → ¬later < t.expiresAt := by
  have h := (sound_tokens m).reachable hs
  refine ⟨fun t ht => ⟨?_, fun a ha htoken => ?_⟩, fun i startedAt answers s' hi hstep a ha t ht htoken => ?_,
    fun a s' t hstep hstored hgone => ?_⟩
  · have hnodup := h.once.sublist ((List.filter_sublist (p := fun a : Answer => a.token = t.token)).map (digestOf m))
    have hall : ∀ d ∈ (s.answered.filter fun a => a.token = t.token).map (digestOf m), d = m.sha256Hex t.token := by
      intro d hd
      obtain ⟨a, ha, rfl⟩ := List.mem_map.1 hd
      rw [digestOf, of_decide_eq_true (List.mem_filter.1 ha).2]
    have hlength := List.nodup_iff_count_le_one.1 hnodup (m.sha256Hex t.token)
    rw [List.count_eq_length.2 fun d hd => (hall d hd).symm, List.length_map] at hlength
    exact hlength
  · obtain ⟨t', ht', hanswers, -⟩ := h.answered a ha
    have hsame : t' = t := by
      refine h.eq_of_digest ht' ht ?_
      rw [← hanswers.digest, htoken]
    rw [← hsame]
    exact hanswers
  · have hrolled : s' = s.rollback i := by
      change (if (s.txs i).isSome then some (s.rollback i) else none) = some s' at hstep
      rw [hi] at hstep
      exact (Option.some.inj hstep).symm
    rw [hrolled]
    exact h.usable_of_rollback hi ha ht htoken
  · obtain ⟨i, startedAt, hact, hi, hexpired⟩ := h.expired_of_gone hstep hstored hgone
    exact ⟨i, startedAt, hact, hi, hexpired, fun later hlater => by omega⟩

end

/-- A token that is minted and consumed. -/
theorem consumed_once : ∃ s : TokenStore, s.answered.length = 1 ∧
    ∀ t ∈ s.minted, (s.answered.filter fun a => a.token = t.token).length ≤ 1 := by
  have hs : (tokens default).Reachable _ :=
    ⟨⟨[], 0, fun _ => none, [], []⟩,
      [.mint 0 "invite" "ann" .null 60, .begin 7 1000000, .consume 7 "invite" "ann" "tok_x", .commit 7],
      ⟨rfl, rfl, rfl, rfl, fun _ => rfl⟩, .cons rfl (.cons rfl (.cons rfl (.single rfl)))⟩
  exact ⟨_, rfl, fun t ht => ((consumed_at_most_once default _ hs).1 t ht).1⟩

end Atomo.Metered
