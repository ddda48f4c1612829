import Atomo.Jobs.Store
import Atomo.Lib.Filter
import Mathlib.Algebra.Order.BigOperators.Group.List

/-!
# The budget ledger

`BudgetLedger::try_reserve`, called on one scope by any number of transactions. Each statement is one step;
what a transaction has inserted is its own until it commits. The reservations of a window stay within the
limit exactly when the comparison cannot saturate at it (`bounded_iff`).
-/

namespace Atomo.Metered

open Jobs (minTimestamp endTimestamp)

def minInt64 : Int := -2 ^ 63
def maxInt64 : Int := 2 ^ 63 - 1

/-- `i64::saturating_add`. -/
def saturatingAdd (a b : Int64) : Int :=
  max minInt64 (min maxInt64 (a.toInt + b.toInt))

/-- `NOW() - (secs || ' seconds')::interval`; none where the interval or the difference is out of range. -/
def nowMinus (now secs : Int) : Option Int :=
  let micros := secs * 1000000
  if -2 ^ 63 ≤ micros ∧ micros < 2 ^ 63 ∧ minTimestamp ≤ now - micros ∧ now - micros < endTimestamp then
    some (now - micros)
  else none

/-- A row of `budget_ledger`; its id is left out. -/
structure Entry where
  scope : String
  amount : Int64
  createdAt : Int
  deriving DecidableEq

/-- The sum of the entries of a scope that were made after an instant. -/
def sumSince (scope : String) (cutoff : Int) (entries : List Entry) : Int :=
  ((entries.filter fun e => e.scope = scope ∧ cutoff < e.createdAt).map (·.amount.toInt)).sum

/-- `SELECT COALESCE(SUM(amount), 0)::bigint`; none where the statement fails. -/
def windowedSum (scope : String) (now windowSecs : Int) (entries : List Entry) : Option Int64 :=
  match nowMinus now windowSecs with
  | none => none
  | some cutoff =>
    let total := sumSince scope cutoff entries
    if minInt64 ≤ total ∧ total ≤ maxInt64 then some (.ofInt total) else none

/-- The scope that is called on, and the limit and window of the calls. -/
structure Budget where
  scope : String
  limit : Int64
  windowSecs : Int64

/-- Where a transaction stands in `try_reserve`. -/
inductive Phase where
  | idle
  | called (amount : Int64)
  | locked (amount : Int64)
  | summed (amount used : Int64)
  | failed
  deriving DecidableEq

structure Tx where
  startedAt : Int
  entries : List Entry := []
  phase : Phase := .idle
  deriving DecidableEq

/-- The committed entries, who holds the advisory lock of the scope, and the open transactions. -/
structure Ledger where
  entries : List Entry
  holder : Option Nat
  txs : Nat → Option Tx

inductive Act where
  | begin (tx : Nat) (now : Int)
  | call (tx : Nat) (amount : Int64)
  | lock (tx : Nat)
  | sum (tx : Nat)
  | finish (tx : Nat) (reserved : Bool)
  | fail (tx : Nat)
  | commit (tx : Nat)
  | rollback (tx : Nat)
  deriving DecidableEq

namespace Ledger

variable (b : Budget) (s : Ledger)

def setTx (i : Nat) (tx : Option Tx) : Ledger :=
  { s with txs := Function.update s.txs i tx }

/-- The lock is released at the end of its transaction. -/
def release (i : Nat) : Ledger :=
  { s with holder := if s.holder = some i then none else s.holder, txs := Function.update s.txs i none }

/-- One statement of the transaction `i`. -/
def advance (i : Nat) (tx : Tx) : Act → Option Ledger
  | .begin _ _ => none
  | .call _ amount =>
    if tx.phase = .idle then
      if amount.toInt ≤ 0 ∨ b.limit.toInt ≤ 0 then some s
      else some (s.setTx i (some { tx with phase := .called amount }))
    else none
  | .lock _ =>
    match tx.phase with
    | .called amount =>
      if s.holder = none ∨ s.holder = some i then
        some { s.setTx i (some { tx with phase := .locked amount }) with holder := some i }
      else none
    | _ => none
  | .sum _ =>
    match tx.phase with
    | .locked amount =>
      match windowedSum b.scope tx.startedAt b.windowSecs.toInt (s.entries ++ tx.entries) with
      | some used => some (s.setTx i (some { tx with phase := .summed amount used }))
      | none => some (s.setTx i (some { tx with phase := .failed }))
    | _ => none
  | .finish _ reserved =>
    match tx.phase with
    | .summed amount used =>
      if b.limit.toInt < saturatingAdd used amount then
        if reserved then none else some (s.setTx i (some { tx with phase := .idle }))
      else if reserved then
        some (s.setTx i (some { tx with
          phase := .idle, entries := tx.entries ++ [⟨b.scope, amount, tx.startedAt⟩] }))
      else none
    | _ => none
  | .fail _ => some (s.setTx i (some { tx with phase := .failed }))
  | .commit _ => if tx.phase = .idle then some { s.release i with entries := s.entries ++ tx.entries } else none
  | .rollback _ => some (s.release i)

end Ledger

def Act.tx : Act → Nat
  | .begin i _ | .call i _ | .lock i | .sum i | .finish i _ | .fail i | .commit i | .rollback i => i

def Ledger.step (b : Budget) (s : Ledger) (a : Act) : Option Ledger :=
  match s.txs a.tx, a with
  | none, .begin i now => some (s.setTx i (some { startedAt := now }))
  | none, _ => none
  | some tx, a => s.advance b a.tx tx a

/-- The transactions on a scope that nothing is reserved of. -/
def reservations (b : Budget) : LabelledSystem Ledger Act where
  init s := (∀ e ∈ s.entries, e.scope ≠ b.scope) ∧ s.holder = none ∧ ∀ i, s.txs i = none
  step s a t := s.step b a = some t

/-! ## The bound -/

/-- The entries of the scope stamped in the window that ends at an instant. -/
def stampedIn (b : Budget) (t : Int) (entries : List Entry) : List Entry :=
  entries.filter fun e => e.scope = b.scope ∧ t - b.windowSecs.toInt * 1000000 < e.createdAt ∧ e.createdAt ≤ t

def total (b : Budget) (t : Int) (entries : List Entry) : Int :=
  ((stampedIn b t entries).map (·.amount.toInt)).sum

/-- The answer `false` of `try_reserve`: the call does not get past its arguments, or past the comparison. -/
def Denied (s : Ledger) (a : Act) (t : Ledger) : Prop :=
  (∃ i amount, a = .call i amount ∧ t = s) ∨ ∃ i, a = .finish i false

/-- What is inserted, committed or not, is the same in two states. -/
def SameEntries (s t : Ledger) : Prop :=
  t.entries = s.entries ∧ ∀ i, (t.txs i).map (·.entries) = (s.txs i).map (·.entries)

/-- The comparison of `try_reserve` decides what it is meant to: the limit is not the largest number, or
nothing is ever compared with it. -/
def Decides (b : Budget) : Prop :=
  b.limit.toInt < maxInt64 ∨ b.windowSecs.toInt ≤ 0 ∨ 2 ^ 63 ≤ b.windowSecs.toInt * 1000000

instance : DecidablePred Decides := fun _ => inferInstanceAs (Decidable (_ ∨ _))

/-- In no window more is reserved than the limit, or anything at all if that is negative. -/
def Within (b : Budget) (entries : List Entry) : Prop :=
  ∀ t, total b t entries ≤ max b.limit.toInt 0

/-- The reservations of a scope are positive. -/
def Positive (b : Budget) (entries : List Entry) : Prop :=
  ∀ e ∈ entries, e.scope = b.scope → 0 < e.amount.toInt

theorem total_append (b : Budget) (t : Int) (l l' : List Entry) : total b t (l ++ l') = total b t l + total b t l' := by
  rw [total, stampedIn, List.filter_append, List.map_append, List.sum_append]
  rfl

theorem total_single_le (b : Budget) (t : Int) (e : Entry) (he : 0 < e.amount.toInt) :
    total b t [e] ≤ e.amount.toInt := by
  unfold total stampedIn
  by_cases h : e.scope = b.scope ∧ t - b.windowSecs.toInt * 1000000 < e.createdAt ∧ e.createdAt ≤ t
  · rw [List.filter_cons_of_pos (by simpa using h)]
    simp
  · rw [List.filter_cons_of_neg (by simpa using h)]
    simpa using he.le

theorem total_single_eq_zero {b : Budget} {t : Int} {e : Entry}
    (h : ¬(t - b.windowSecs.toInt * 1000000 < e.createdAt ∧ e.createdAt ≤ t)) : total b t [e] = 0 := by
  unfold total stampedIn
  rw [List.filter_cons_of_neg (by simp only [decide_eq_true_eq]; intro hcase; exact h hcase.2)]
  rfl

theorem total_eq_zero {b : Budget} {entries : List Entry} (h : ∀ e ∈ entries, e.scope ≠ b.scope) (t : Int) :
    total b t entries = 0 := by
  have hnone : stampedIn b t entries = [] := by
    refine List.filter_eq_nil_iff.2 fun e he => ?_
    simp [h e he]
  rw [total, hnone]
  rfl

/-- A window that ends no earlier than `now` starts no earlier than the one the sum is taken over. -/
theorem total_le_sumSince {b : Budget} {entries : List Entry} (h : Positive b entries) {t now : Int}
    (hnow : now ≤ t) :
    total b t entries ≤ sumSince b.scope (now - b.windowSecs.toInt * 1000000) entries := by
  refine List.sum_map_filter_le ?_ ?_
  · intro e _ he
    simp only [decide_eq_true_eq] at he ⊢
    refine ⟨he.1, ?_⟩
    omega
  · intro e hmem he
    simp only [decide_eq_true_eq] at he
    exact (h e hmem he.1).le

/-! ## What a transaction keeps -/

def Phase.Asks (b : Budget) : Phase → Prop
  | .called amount | .locked amount | .summed amount _ => 0 < amount.toInt ∧ 0 < b.limit.toInt
  | .idle | .failed => True

def Phase.Locks : Phase → Prop
  | .locked _ | .summed _ _ => True
  | .idle | .called _ | .failed => False

/-- The sum read is that of the window that ends with the start of the transaction. -/
def Phase.Reads (b : Budget) (startedAt : Int) (entries : List Entry) : Phase → Prop
  | .summed _ used => nowMinus startedAt b.windowSecs.toInt ≠ none ∧
      used.toInt = sumSince b.scope (startedAt - b.windowSecs.toInt * 1000000) entries
  | .idle | .called _ | .locked _ | .failed => True

/-- The transaction `i` beside the committed entries: what it inserted or read was under the lock. -/
structure TxSound (b : Budget) (entries : List Entry) (holder : Option Nat) (i : Nat) (tx : Tx) : Prop where
  held : tx.entries ≠ [] ∨ tx.phase.Locks → holder = some i
  positive : Positive b tx.entries
  within : Within b (entries ++ tx.entries)
  asks : tx.phase.Asks b
  reads : tx.phase.Reads b tx.startedAt (entries ++ tx.entries)

structure Sound (b : Budget) (s : Ledger) : Prop where
  positive : Positive b s.entries
  within : Within b s.entries
  txs : ∀ i tx, s.txs i = some tx → TxSound b s.entries s.holder i tx

variable {b : Budget} {s : Ledger} {i : Nat} {tx : Tx}

theorem Positive.append {l l' : List Entry} (h : Positive b l) (h' : Positive b l') : Positive b (l ++ l') := by
  intro e he
  cases List.mem_append.1 he with
  | inl hl => exact h e hl
  | inr hl => exact h' e hl

/-- Without the lock a transaction has inserted and read nothing, so it is sound beside any entries. -/
theorem TxSound.of_not_held {holder holder' : Option Nat} {entries entries' : List Entry}
    (h : TxSound b entries holder i tx) (hheld : holder ≠ some i) (hwithin : Within b entries') :
    TxSound b entries' holder' i tx := by
  have hnothing : tx.entries = [] := by
    by_contra hne
    exact hheld (h.held (.inl hne))
  have hunlocked : ¬tx.phase.Locks := fun hlocks => hheld (h.held (.inr hlocks))
  constructor
  · intro hcase
    cases hcase with
    | inl hne => exact absurd hnothing hne
    | inr hlocks => exact absurd hlocks hunlocked
  · exact h.positive
  · rw [hnothing, List.append_nil]
    exact hwithin
  · exact h.asks
  · cases hphase : tx.phase with
    | summed amount used =>
      rw [hphase] at hunlocked
      exact absurd trivial hunlocked
    | idle => trivial
    | called amount => trivial
    | locked amount => trivial
    | failed => trivial

theorem Sound.setTx (h : Sound b s) (htx : TxSound b s.entries s.holder i tx) : Sound b (s.setTx i (some tx)) := by
  refine ⟨h.positive, h.within, fun j other hj => ?_⟩
  by_cases hji : j = i
  · subst hji
    have hother : tx = other := by simpa [Ledger.setTx] using hj
    subst hother
    exact htx
  · have hs : s.txs j = some other := by simpa [Ledger.setTx, hji] using hj
    exact h.txs j other hs

/-- A change of phase that keeps the entries, to a phase that has read nothing. -/
theorem TxSound.phase {entries : List Entry} {holder : Option Nat} (h : TxSound b entries holder i tx) (phase : Phase)
    (hlocks : phase.Locks → holder = some i) (hasks : phase.Asks b)
    (hreads : phase.Reads b tx.startedAt (entries ++ tx.entries)) :
    TxSound b entries holder i { tx with phase } := by
  refine ⟨fun hcase => ?_, h.positive, h.within, hasks, hreads⟩
  cases hcase with
  | inl hne => exact h.held (.inl hne)
  | inr hlock => exact hlocks hlock

/-- The lock is taken when nobody else holds it. -/
theorem Sound.lock (h : Sound b s) (hi : s.txs i = some tx) {amount : Int64} (hphase : tx.phase = .called amount)
    (hfree : s.holder = none ∨ s.holder = some i) :
    Sound b { s.setTx i (some { tx with phase := .locked amount }) with holder := some i } := by
  have htx := h.txs i tx hi
  have hasks := htx.asks
  rw [hphase] at hasks
  refine ⟨h.positive, h.within, fun j other hj => ?_⟩
  by_cases hji : j = i
  · subst hji
    have hother : { tx with phase := .locked amount } = other := by simpa [Ledger.setTx] using hj
    subst hother
    exact ⟨fun _ => rfl, htx.positive, htx.within, hasks, trivial⟩
  · have hs : s.txs j = some other := by simpa [Ledger.setTx, hji] using hj
    refine (h.txs j other hs).of_not_held ?_ h.within
    intro hheld
    cases hfree with
    | inl hnone => rw [hnone] at hheld; cases hheld
    | inr hsome =>
      rw [hsome] at hheld
      exact hji (Option.some.inj hheld).symm

/-- The sum that `try_reserve` reads is that of the window, when the statement does not fail. -/
theorem windowedSum_eq {scope : String} {now secs : Int} {entries : List Entry} {used : Int64}
    (h : windowedSum scope now secs entries = some used) :
    nowMinus now secs ≠ none ∧ used.toInt = sumSince scope (now - secs * 1000000) entries := by
  unfold windowedSum at h
  split at h
  · cases h
  · rename_i cutoff hcutoff
    have hvalue : cutoff = now - secs * 1000000 := by
      unfold nowMinus at hcutoff
      dsimp only at hcutoff
      split at hcutoff
      · exact (Option.some.inj hcutoff).symm
      · cases hcutoff
    subst hvalue
    dsimp only at h
    split at h
    · rename_i hrange
      refine ⟨by rw [hcutoff]; exact Option.some_ne_none _, ?_⟩
      rw [← Option.some.inj h]
      refine Int64.toInt_ofInt_of_le ?_ ?_
      · exact hrange.1
      · have hmax := hrange.2
        unfold maxInt64 at hmax
        omega
    · cases h

/-- The comparison lets pass what fits in the limit, unless it saturates there. -/
theorem saturatingAdd_le {used amount : Int64} {limit : Int} (hamount : 0 < amount.toInt) (hused : 0 ≤ used.toInt)
    (hlimit : limit < maxInt64) (h : ¬limit < saturatingAdd used amount) : used.toInt + amount.toInt ≤ limit := by
  unfold saturatingAdd minInt64 at h
  unfold maxInt64 at h hlimit
  omega

theorem sumSince_nonneg {entries : List Entry} (h : Positive b entries) (cutoff : Int) :
    0 ≤ sumSince b.scope cutoff entries := by
  refine List.sum_nonneg ?_
  intro amount hmem
  obtain ⟨e, he, rfl⟩ := List.mem_map.1 hmem
  have hscope := (List.mem_filter.1 he).2
  simp only [decide_eq_true_eq] at hscope
  exact (h e (List.mem_filter.1 he).1 hscope.1).le

/-- A window of no length holds nothing, and a sum over one too long for an interval is never read. -/
theorem Decides.limit_lt (h : Decides b) {t now : Int} (hread : nowMinus now b.windowSecs.toInt ≠ none)
    (hin : t - b.windowSecs.toInt * 1000000 < now ∧ now ≤ t) : b.limit.toInt < maxInt64 := by
  rcases h with hlt | hshort | hlong
  · exact hlt
  · omega
  · refine absurd ?_ hread
    unfold nowMinus
    rw [if_neg (by omega)]

/-- A reservation that the comparison lets pass keeps every window within the limit. -/
theorem Within.reserve {entries : List Entry} {now : Int} {amount used : Int64} (hdecides : Decides b)
    (hwithin : Within b entries) (hpositive : Positive b entries) (hamount : 0 < amount.toInt)
    (hread : nowMinus now b.windowSecs.toInt ≠ none)
    (hused : used.toInt = sumSince b.scope (now - b.windowSecs.toInt * 1000000) entries)
    (hpass : ¬b.limit.toInt < saturatingAdd used amount) : Within b (entries ++ [⟨b.scope, amount, now⟩]) := by
  intro t
  rw [total_append]
  by_cases hin : t - b.windowSecs.toInt * 1000000 < now ∧ now ≤ t
  · have hlimit := hdecides.limit_lt hread hin
    have hnonneg : 0 ≤ used.toInt := by
      rw [hused]
      exact sumSince_nonneg hpositive _
    have hsum := saturatingAdd_le hamount hnonneg hlimit hpass
    have hbefore : total b t entries ≤ used.toInt := by
      rw [hused]
      exact total_le_sumSince hpositive hin.2
    have hnew := total_single_le b t ⟨b.scope, amount, now⟩ hamount
    dsimp only at hnew
    omega
  · rw [total_single_eq_zero hin, Int.add_zero]
    exact hwithin t

theorem Sound.reserve (hdecides : Decides b) (h : Sound b s) (hi : s.txs i = some tx) {amount used : Int64}
    (hphase : tx.phase = .summed amount used) (hpass : ¬b.limit.toInt < saturatingAdd used amount) :
    Sound b (s.setTx i (some { tx with
      phase := .idle, entries := tx.entries ++ [⟨b.scope, amount, tx.startedAt⟩] })) := by
  have htx := h.txs i tx hi
  have hasks := htx.asks
  have hreads := htx.reads
  have hheld := htx.held (.inr (by rw [hphase]; trivial))
  rw [hphase] at hasks hreads
  refine h.setTx ⟨fun _ => hheld, ?_, ?_, trivial, trivial⟩
  · refine htx.positive.append fun e he _ => ?_
    rw [List.mem_singleton.1 he]
    exact hasks.1
  · have hall := htx.within.reserve hdecides (h.positive.append htx.positive) hasks.1 hreads.1 hreads.2 hpass
    rwa [List.append_assoc] at hall

/-- The end of a transaction: what it inserted is committed, or dropped with it. -/
theorem Sound.release (h : Sound b s) (hi : s.txs i = some tx) (kept : List Entry)
    (hkept : kept = tx.entries ∨ kept = []) : Sound b { s.release i with entries := s.entries ++ kept } := by
  have htx := h.txs i tx hi
  have hwithin : Within b (s.entries ++ kept) := by
    cases hkept with
    | inl hall => rw [hall]; exact htx.within
    | inr hnone => rw [hnone, List.append_nil]; exact h.within
  refine ⟨h.positive.append ?_, hwithin, fun j other hj => ?_⟩
  · cases hkept with
    | inl hall => rw [hall]; exact htx.positive
    | inr hnone =>
      rw [hnone]
      intro e he
      cases he
  · have hji : j ≠ i := by
      intro hcase
      subst hcase
      simp [Ledger.release] at hj
    have hs : s.txs j = some other := by simpa [Ledger.release, hji] using hj
    have hother := h.txs j other hs
    by_cases hheld : s.holder = some j
    · -- only the holder of the lock has inserted anything, so nothing of `i` is kept
      have hnothing : kept = [] := by
        cases hkept with
        | inr hnone => exact hnone
        | inl hall =>
          rw [hall]
          by_contra hne
          have hholds := htx.held (.inl hne)
          rw [hheld] at hholds
          exact hji (Option.some.inj hholds)
      have hholder : (s.release i).holder = s.holder := by
        unfold Ledger.release
        dsimp only
        rw [if_neg]
        rw [hheld]
        intro hcase
        exact hji (Option.some.inj hcase)
      subst hnothing
      dsimp only
      rw [List.append_nil, hholder]
      exact hother
    · exact hother.of_not_held hheld hwithin

theorem Sound.advance {a : Act} {s' : Ledger} (hdecides : Decides b) (h : Sound b s) (hi : s.txs i = some tx)
    (hstep : s.advance b i tx a = some s') : Sound b s' := by
  have htx := h.txs i tx hi
  cases a with
  | begin _ _ => cases hstep
  | call _ amount =>
    simp only [Ledger.advance] at hstep
    split_ifs at hstep with hidle hrefused
    · cases hstep
      exact h
    · cases hstep
      have hasks : 0 < amount.toInt ∧ 0 < b.limit.toInt := by omega
      exact h.setTx (htx.phase (.called amount) (fun hlocks => hlocks.elim) hasks trivial)
  | lock _ =>
    simp only [Ledger.advance] at hstep
    split at hstep
    · rename_i amount hphase
      split_ifs at hstep with hfree
      cases hstep
      exact h.lock hi hphase hfree
    · cases hstep
  | sum _ =>
    simp only [Ledger.advance] at hstep
    split at hstep
    · rename_i amount hphase
      have hheld : s.holder = some i := htx.held (.inr (by rw [hphase]; trivial))
      have hasks := htx.asks
      rw [hphase] at hasks
      split at hstep
      · rename_i used hused
        cases hstep
        exact h.setTx (htx.phase (.summed amount used) (fun _ => hheld) hasks (windowedSum_eq hused))
      · cases hstep
        exact h.setTx (htx.phase .failed (fun hlocks => hlocks.elim) trivial trivial)
    · cases hstep
  | finish _ reserved =>
    simp only [Ledger.advance] at hstep
    split at hstep
    · rename_i amount used hphase
      split_ifs at hstep with hdenied hreserved hreserved
      · cases hstep
        exact h.setTx (htx.phase .idle (fun hlocks => hlocks.elim) trivial trivial)
      · cases hstep
        exact h.reserve hdecides hi hphase hdenied
    · cases hstep
  | fail _ =>
    cases hstep
    exact h.setTx (htx.phase .failed (fun hlocks => hlocks.elim) trivial trivial)
  | commit _ =>
    simp only [Ledger.advance] at hstep
    split_ifs at hstep with hidle
    cases hstep
    exact h.release hi tx.entries (.inl rfl)
  | rollback _ =>
    cases hstep
    have hrelease := h.release hi [] (.inr rfl)
    rwa [List.append_nil] at hrelease

theorem Sound.begin (h : Sound b s) (now : Int) : Sound b (s.setTx i (some { startedAt := now })) := by
  refine h.setTx ⟨fun hcase => ?_, ?_, ?_, trivial, trivial⟩
  · cases hcase with
    | inl hne => exact absurd rfl hne
    | inr hlocks => exact hlocks.elim
  · intro e he
    cases he
  · rw [List.append_nil]
    exact h.within

theorem sound_inductive (hdecides : Decides b) : (reservations b).Inductive (Sound b) where
  init s hs := by
    obtain ⟨hscope, -, hnone⟩ := hs
    refine ⟨fun e he hcase => absurd hcase (hscope e he), fun t => ?_, fun i tx hi => ?_⟩
    · rw [total_eq_zero hscope]
      exact le_max_right _ _
    · rw [hnone i] at hi
      cases hi
  step s a s' h hstep := by
    change s.step b a = some s' at hstep
    unfold Ledger.step at hstep
    split at hstep
    · cases hstep
      exact h.begin _
    · cases hstep
    · rename_i tx hi
      exact h.advance hdecides hi hstep

/-- A call that is denied inserts nothing. -/
theorem Denied.sameEntries {a : Act} {s' : Ledger} (h : Denied s a s') (hstep : s.step b a = some s') :
    SameEntries s s' := by
  rcases h with ⟨i, amount, -, rfl⟩ | ⟨i, rfl⟩
  · exact ⟨rfl, fun _ => rfl⟩
  · unfold Ledger.step at hstep
    split at hstep
    · rename_i hcase
      cases hcase
    · cases hstep
    · rename_i tx hi
      simp only [Ledger.advance, Act.tx, Bool.false_eq_true, if_false] at hstep hi
      split at hstep
      · split_ifs at hstep
        cases hstep
        refine ⟨rfl, fun j => ?_⟩
        by_cases hji : j = i
        · subst hji
          simp [Ledger.setTx, hi]
        · simp [Ledger.setTx, hji]
      · cases hstep

/-! ## Where the comparison saturates -/

/-- The ledger with no open transaction. -/
def closed (entries : List Entry) : Ledger :=
  ⟨entries, none, fun _ => none⟩

/-- The ledger with one open transaction. -/
def alone (entries : List Entry) (holder : Option Nat) (tx : Tx) : Ledger :=
  ⟨entries, holder, Function.update (fun _ => none) 0 (some tx)⟩

theorem alone_setTx (entries : List Entry) (holder : Option Nat) (tx tx' : Tx) :
    (alone entries holder tx).setTx 0 (some tx') = alone entries holder tx' := by
  unfold alone Ledger.setTx
  rw [Function.update_idem]

theorem alone_step (entries : List Entry) (holder : Option Nat) (tx : Tx) {a : Act} (ha : a.tx = 0) :
    (alone entries holder tx).step b a = (alone entries holder tx).advance b 0 tx a := by
  have htx : (alone entries holder tx).txs 0 = some tx := by simp [alone]
  unfold Ledger.step
  rw [ha, htx]
  dsimp only
  rw [ha]

theorem alone_commit (entries : List Entry) (holder : Option Nat) (hholder : holder = some 0) (tx : Tx)
    (hidle : tx.phase = .idle) : (alone entries holder tx).step b (.commit 0) = some (closed (entries ++ tx.entries)) := by
  refine (alone_step entries holder tx rfl).trans ?_
  subst hholder
  unfold Ledger.advance
  dsimp only
  rw [if_pos hidle]
  unfold alone Ledger.release closed
  dsimp only
  rw [if_pos rfl, Function.update_idem, Function.update_eq_self_iff.2 rfl]

/-- The steps of a transaction with one call that is not denied. -/
theorem closed_reserves {now : Int} {entries : List Entry} {amount used : Int64} (hamount : 0 < amount.toInt)
    (hlimit : 0 < b.limit.toInt) (hsum : windowedSum b.scope now b.windowSecs.toInt entries = some used)
    (hpass : ¬b.limit.toInt < saturatingAdd used amount) :
    (reservations b).Run (closed entries)
      [.begin 0 now, .call 0 amount, .lock 0, .sum 0, .finish 0 true, .commit 0]
      (closed (entries ++ [⟨b.scope, amount, now⟩])) := by
  have hasks : ¬(amount.toInt ≤ 0 ∨ b.limit.toInt ≤ 0) := by omega
  refine .cons (t := alone entries none ⟨now, [], .idle⟩) rfl <|
    .cons (t := alone entries none ⟨now, [], .called amount⟩) ?_ <|
    .cons (t := alone entries (some 0) ⟨now, [], .locked amount⟩) ?_ <|
    .cons (t := alone entries (some 0) ⟨now, [], .summed amount used⟩) ?_ <|
    .cons (t := alone entries (some 0) ⟨now, [⟨b.scope, amount, now⟩], .idle⟩) ?_ <|
    .single (alone_commit entries (some 0) rfl _ rfl)
  · refine (alone_step _ _ _ rfl).trans ?_
    unfold Ledger.advance
    dsimp only
    rw [if_pos rfl, if_neg hasks, alone_setTx]
  · refine (alone_step _ _ _ rfl).trans ?_
    have hfree : (alone entries none ⟨now, [], .called amount⟩).holder = none := rfl
    unfold Ledger.advance
    dsimp only
    rw [if_pos (.inl hfree), alone_setTx]
    rfl
  · refine (alone_step _ _ _ rfl).trans ?_
    have hentries : (alone entries (some 0) ⟨now, [], .locked amount⟩).entries ++ [] = entries := List.append_nil _
    unfold Ledger.advance
    dsimp only
    rw [hentries, hsum]
    dsimp only
    rw [alone_setTx]
  · refine (alone_step _ _ _ rfl).trans ?_
    unfold Ledger.advance
    dsimp only
    rw [if_neg hpass, if_pos rfl, alone_setTx]
    rfl

/-- The transactions start when the window of their calls starts with the first timestamp. -/
def Budget.firstStart (b : Budget) : Int :=
  minTimestamp + b.windowSecs.toInt * 1000000

def largest (b : Budget) : Entry :=
  ⟨b.scope, Int64.maxValue, b.firstStart⟩

def oneMore (b : Budget) : Entry :=
  ⟨b.scope, 1, b.firstStart⟩

theorem nowMinus_firstStart (hwindow : 0 < b.windowSecs.toInt) (hinterval : b.windowSecs.toInt * 1000000 < 2 ^ 63) :
    nowMinus b.firstStart b.windowSecs.toInt = some minTimestamp := by
  unfold nowMinus Budget.firstStart minTimestamp endTimestamp
  dsimp only
  rw [if_pos (by omega)]
  congr 1
  omega

/-- With the largest limit and a window that holds something, one transaction reserves the limit and the next
one unit more. -/
theorem exists_overspent (h : ¬Decides b) : ∃ s, (reservations b).Reachable s ∧ ∃ t, b.limit.toInt < total b t s.entries := by
  unfold Decides at h
  push Not at h
  obtain ⟨hmax, hwindow, hinterval⟩ := h
  have hlimit : b.limit.toInt = maxInt64 := by
    have hlt := Int64.toInt_lt b.limit
    unfold maxInt64 at *
    omega
  have hcutoff := nowMinus_firstStart hwindow hinterval
  have hlater : minTimestamp < b.firstStart := by
    unfold Budget.firstStart
    omega
  have hfirst : windowedSum b.scope b.firstStart b.windowSecs.toInt [] = some 0 := by
    unfold windowedSum
    rw [hcutoff]
    rfl
  have hsecond : windowedSum b.scope b.firstStart b.windowSecs.toInt [largest b] = some Int64.maxValue := by
    have hsum : sumSince b.scope minTimestamp [largest b] = maxInt64 := by
      unfold sumSince largest
      rw [List.filter_cons_of_pos (by simpa using hlater)]
      rfl
    unfold windowedSum
    rw [hcutoff]
    dsimp only
    rw [hsum]
    rfl
  have hpass : ∀ used amount, ¬b.limit.toInt < saturatingAdd used amount := by
    intro used amount
    unfold saturatingAdd minInt64
    rw [hlimit]
    unfold maxInt64
    omega
  have hpositive : 0 < b.limit.toInt := by
    rw [hlimit]
    decide
  have hone := closed_reserves (by decide) hpositive hfirst (hpass 0 Int64.maxValue)
  have htwo := closed_reserves (by decide) hpositive hsecond (hpass Int64.maxValue 1)
  refine ⟨closed [largest b, oneMore b], ⟨closed [], _, ⟨by simp [closed], rfl, fun _ => rfl⟩, hone.append htwo⟩,
    b.firstStart, ?_⟩
  have hwindowed : stampedIn b b.firstStart [largest b, oneMore b] = [largest b, oneMore b] := by
    refine List.filter_eq_self.2 fun e he => ?_
    have hentry : e.scope = b.scope ∧ e.createdAt = b.firstStart := by
      simp only [List.mem_cons, List.not_mem_nil, or_false] at he
      rcases he with rfl | rfl
      · exact ⟨rfl, rfl⟩
      · exact ⟨rfl, rfl⟩
    simp only [decide_eq_true_eq]
    exact ⟨hentry.1, by omega, by omega⟩
  rw [total, closed, hwindowed, hlimit]
  change maxInt64 < Int64.maxValue.toInt + ((1 : Int64).toInt + 0)
  decide

/-- In every window the committed reservations sum to at most the limit, and a denied call inserts nothing,
exactly when the limit is not negative and the comparison does not saturate at it. -/
theorem bounded_iff (b : Budget) :
    (∀ s, (reservations b).Reachable s →
      (∀ t, total b t s.entries ≤ b.limit.toInt) ∧ ∀ a s', (reservations b).step s a s' → Denied s a s' → SameEntries s s') ↔
    0 ≤ b.limit.toInt ∧ Decides b := by
  constructor
  · intro h
    constructor
    · have hinit : (reservations b).Reachable ⟨[], none, fun _ => none⟩ := .of_init ⟨by simp, rfl, fun _ => rfl⟩
      exact (h _ hinit).1 0
    · by_contra hsaturates
      obtain ⟨s, hs, t, hover⟩ := exists_overspent hsaturates
      exact absurd ((h s hs).1 t) (Int.not_le.2 hover)
  · rintro ⟨hlimit, hdecides⟩ s hs
    constructor
    · intro t
      have hwithin := ((sound_inductive hdecides).reachable hs).within t
      rwa [max_eq_left hlimit] at hwithin
    · intro a s' hstep hdenied
      exact hdenied.sameEntries hstep

/-- With the largest limit, two reservations pass it. -/
theorem largest_limit_overspent :
    ¬∀ s, (reservations ⟨"global:hourly", Int64.maxValue, 3600⟩).Reachable s →
      ∀ t, total ⟨"global:hourly", Int64.maxValue, 3600⟩ t s.entries ≤ Int64.maxValue.toInt := by
  intro h
  obtain ⟨s, hs, t, hover⟩ := exists_overspent (b := ⟨"global:hourly", Int64.maxValue, 3600⟩) (by decide)
  exact absurd (h s hs t) (Int.not_le.2 hover)

end Atomo.Metered
