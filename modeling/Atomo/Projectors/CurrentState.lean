import Atomo.Projectors.Projection
import Atomo.Lib.LabelledSystem

/-!
# Projections of the current state

`CurrentStateProjection`: a notification only names a row; the refresh reads the row as it is and projects it,
under a lock of its own for each row that is held to the end of the transaction. The synchronization at startup
keeps the writers out. Each statement sees what is committed when it starts.
-/

namespace Atomo.Projectors

open LabelledSystem

/-- A row of the source table: the texts of its columns, none being NULL. -/
structure SourceRow where
  deletedAt : Option String
  cells : String → Option String

/-- The columns of a row of the projection table that the projection names. -/
abbrev ProjectedRow := List (String × String)

structure CurrentStateProjection where
  projection : TableProjection
  sourceTable : String

namespace CurrentStateProjection

variable (projection : CurrentStateProjection)

/-- `COALESCE(b.column::text,'')` of each column. -/
def values (row : SourceRow) : ProjectedRow :=
  projection.projection.columns.map fun column => (column, (row.cells column).getD "")

/-- What is selected of a row `WHERE b.deleted_at IS NULL`. -/
def selected (row : Option SourceRow) : Option ProjectedRow :=
  (row.filter (·.deletedAt.isNone)).map projection.values

end CurrentStateProjection

/-- The row that `handle_event` refreshes. -/
def handleEvent (data : List (String × Json)) : Option String :=
  match data.lookup "id" with
  | some (.string id) => some id
  | _ => none

/-- Where a refresh stands: the number of commits when it `start`ed, and when its `INSERT … SELECT` has `seen` the row. -/
inductive Refresh where
  | idle
  | started (id : String) (start : Nat)
  | locked (id : String) (start : Nat)
  | upserted (id : String) (start seen : Nat) (row : ProjectedRow)
  | missing (id : String) (start seen : Nat)
  | removed (id : String) (start seen : Nat)
  | committed (id : String) (start : Nat)
  | failed

namespace Refresh

/-- The row whose lock is held. -/
def holding : Refresh → Option String
  | locked id _ | upserted id _ _ _ | missing id _ _ | removed id _ _ => some id
  | _ => none

/-- The projection table is locked for writing rows. -/
def touching : Refresh → Bool
  | upserted _ _ _ _ | missing _ _ _ | removed _ _ _ => true
  | _ => false

/-- A transaction is under way. -/
def isOpen : Refresh → Bool
  | started _ _ | locked _ _ | upserted _ _ _ _ | missing _ _ _ | removed _ _ _ => true
  | _ => false

end Refresh

/-- Where `initialize_and_sync` stands, of which there is one at a time. -/
inductive Sync where
  | idle
  | sourceLocked
  | targetLocked
  | upserted (seen : Nat) (rows : String → Option ProjectedRow)
  | pruned (seen : Nat) (rows : String → Option ProjectedRow)

namespace Sync

/-- The writers of the source table are kept out. -/
def locksSource : Sync → Bool
  | idle => false
  | _ => true

/-- The writers of the projection table are kept out. -/
def locksTarget : Sync → Bool
  | idle | sourceLocked => false
  | _ => true

end Sync

/-- What is committed. `versions` are the rows of the source table by the number of commits to it, and `asOf` is
the version that the projected content of a row was read of. -/
structure Projecting where
  versions : Nat → String → Option SourceRow
  commits : Nat
  projection : String → Option ProjectedRow
  asOf : String → Nat
  refreshes : Nat → Refresh
  sync : Sync

namespace Projecting

/-- The rows of the source table. -/
def base (s : Projecting) : String → Option SourceRow :=
  s.versions s.commits

def set (s : Projecting) (i : Nat) (refresh : Refresh) : Projecting :=
  { s with refreshes := Function.update s.refreshes i refresh }

/-- A writer commits. -/
def write (s : Projecting) (rows : String → Option SourceRow) : Projecting :=
  { s with versions := Function.update s.versions (s.commits + 1) rows, commits := s.commits + 1 }

/-- The content of one row is committed. -/
def project (s : Projecting) (id : String) (seen : Nat) (row : Option ProjectedRow) : Projecting :=
  { s with projection := Function.update s.projection id row, asOf := Function.update s.asOf id seen }

end Projecting

inductive Move where
  | write
  | notify (i : Nat) (data : List (String × Json))
  | lock (i : Nat)
  | upsert (i : Nat)
  | remove (i : Nat)
  | commit (i : Nat)
  | fault (i : Nat)
  | synchronize

/-- A statement, or the commit of a writer. -/
inductive ProjectStep (projection : CurrentStateProjection) : Projecting → Move → Projecting → Prop
  | write {s} (rows : String → Option SourceRow) (free : s.sync.locksSource = false) :
      ProjectStep projection s .write (s.write rows)
  | notify {s} (i : Nat) (data : List (String × Json)) (id : String) (named : handleEvent data = some id)
      (at_idle : s.refreshes i = .idle) :
      ProjectStep projection s (.notify i data) (s.set i (.started id s.commits))
  | lock {s} (i : Nat) (id : String) (start : Nat) (at_started : s.refreshes i = .started id start)
      (free : ∀ j, (s.refreshes j).holding ≠ some id) :
      ProjectStep projection s (.lock i) (s.set i (.locked id start))
  | upsert {s} (i : Nat) (id : String) (start : Nat) (row : ProjectedRow) (at_locked : s.refreshes i = .locked id start)
      (free : s.sync.locksTarget = false) (live : projection.selected (s.base id) = some row) :
      ProjectStep projection s (.upsert i) (s.set i (.upserted id start s.commits row))
  | miss {s} (i : Nat) (id : String) (start : Nat) (at_locked : s.refreshes i = .locked id start)
      (free : s.sync.locksTarget = false) (gone : projection.selected (s.base id) = none) :
      ProjectStep projection s (.upsert i) (s.set i (.missing id start s.commits))
  | remove {s} (i : Nat) (id : String) (start seen : Nat) (at_missing : s.refreshes i = .missing id start seen) :
      ProjectStep projection s (.remove i) (s.set i (.removed id start seen))
  | commitRow {s} (i : Nat) (id : String) (start seen : Nat) (row : ProjectedRow)
      (at_upserted : s.refreshes i = .upserted id start seen row) :
      ProjectStep projection s (.commit i) ((s.project id seen (some row)).set i (.committed id start))
  | commitRemoval {s} (i : Nat) (id : String) (start seen : Nat) (at_removed : s.refreshes i = .removed id start seen) :
      ProjectStep projection s (.commit i) ((s.project id seen none).set i (.committed id start))
  | fault {s} (i : Nat) (under_way : (s.refreshes i).isOpen = true) :
      ProjectStep projection s (.fault i) (s.set i .failed)
  | syncSource {s} (at_idle : s.sync = .idle) : ProjectStep projection s .synchronize { s with sync := .sourceLocked }
  | syncTarget {s} (at_source : s.sync = .sourceLocked) (free : ∀ i, (s.refreshes i).touching = false) :
      ProjectStep projection s .synchronize { s with sync := .targetLocked }
  | syncUpsert {s} (at_target : s.sync = .targetLocked) :
      ProjectStep projection s .synchronize
        { s with sync := .upserted s.commits fun id => (projection.selected (s.base id)).orElse fun _ => s.projection id }
  | syncPrune {s} (seen : Nat) (rows : String → Option ProjectedRow) (at_upserted : s.sync = .upserted seen rows) :
      ProjectStep projection s .synchronize
        { s with sync := .pruned seen fun id => if (projection.selected (s.base id)).isSome then rows id else none }
  | syncCommit {s} (seen : Nat) (rows : String → Option ProjectedRow) (at_pruned : s.sync = .pruned seen rows) :
      ProjectStep projection s .synchronize { s with projection := rows, asOf := fun _ => seen, sync := .idle }
  | syncFault {s} : ProjectStep projection s .synchronize { s with sync := .idle }

/-- The projection has been synchronized. -/
def projectSystem (projection : CurrentStateProjection) : LabelledSystem Projecting Move where
  init s :=
    s.commits = 0 ∧ (∀ id, s.asOf id = 0) ∧ (∀ id, s.projection id = projection.selected (s.versions 0 id)) ∧
      (∀ i, s.refreshes i = .idle) ∧ s.sync = .idle
  step := ProjectStep projection

/-! ## What is projected -/

variable {projection : CurrentStateProjection} {s s' : Projecting} {i : Nat} {id : String}

/-- What a refresh has seen, and that nothing newer is projected in its place. -/
def Refresh.Sound (projection : CurrentStateProjection) (s : Projecting) : Refresh → Prop
  | started _ start | locked _ start => start ≤ s.commits
  | upserted id start seen row =>
    start ≤ seen ∧ seen ≤ s.commits ∧ s.asOf id ≤ seen ∧ projection.selected (s.versions seen id) = some row
  | missing id start seen | removed id start seen =>
    start ≤ seen ∧ seen ≤ s.commits ∧ s.asOf id ≤ seen ∧ projection.selected (s.versions seen id) = none
  | committed id start => start ≤ s.asOf id
  | idle | failed => True

/-- What the synchronization has seen, which is what there is. -/
def Sync.Sound (projection : CurrentStateProjection) (s : Projecting) : Sync → Prop
  | upserted seen rows =>
    seen = s.commits ∧ ∀ id row, projection.selected (s.base id) = some row → rows id = some row
  | pruned seen rows => seen = s.commits ∧ ∀ id, rows id = projection.selected (s.base id)
  | _ => True

structure Sound (projection : CurrentStateProjection) (s : Projecting) : Prop where
  past : ∀ id, s.asOf id ≤ s.commits
  content : ∀ id, s.projection id = projection.selected (s.versions (s.asOf id) id)
  alone : ∀ i j id, (s.refreshes i).holding = some id → (s.refreshes j).holding = some id → i = j
  refresh : ∀ i, (s.refreshes i).Sound projection s
  exclusive : s.sync.locksTarget = true → ∀ i, (s.refreshes i).touching = false
  sync : s.sync.Sound projection s

@[simp] theorem set_self (s : Projecting) (i : Nat) (refresh : Refresh) : (s.set i refresh).refreshes i = refresh := by
  simp [Projecting.set]

theorem set_other (s : Projecting) {i j : Nat} (refresh : Refresh) (h : j ≠ i) :
    (s.set i refresh).refreshes j = s.refreshes j := by
  simp [Projecting.set, h]

/-- A refresh moves on, and changes nothing that is committed. -/
theorem Sound.set (h : Sound projection s) {refresh : Refresh} (hsound : refresh.Sound projection s)
    (hholding : ∀ id, refresh.holding = some id → ∀ j, (s.refreshes j).holding = some id → j = i)
    (htouching : refresh.touching = true → (s.refreshes i).touching = false → s.sync.locksTarget = false) :
    Sound projection (s.set i refresh) where
  past := h.past
  content := h.content
  alone j k id hj hk := by
    by_cases hji : j = i
    · by_cases hki : k = i
      · rw [hji, hki]
      · rw [hji, set_self] at hj
        rw [set_other s _ hki] at hk
        rw [hji, hholding id hj k hk]
    · rw [set_other s _ hji] at hj
      by_cases hki : k = i
      · rw [hki, set_self] at hk
        rw [hki, hholding id hk j hj]
      · rw [set_other s _ hki] at hk
        exact h.alone j k id hj hk
  refresh j := by
    by_cases hj : j = i
    · rw [hj, set_self]
      exact hsound
    · rw [set_other s _ hj]
      exact h.refresh j
  exclusive hlocked j := by
    by_cases hj : j = i
    · rw [hj, set_self]
      by_contra htouches
      have hfree := htouching (by simpa using htouches) (h.exclusive hlocked i)
      exact absurd (hfree.symm.trans hlocked) (by simp)
    · rw [set_other s _ hj]
      exact h.exclusive hlocked j
  sync := h.sync

theorem versions_write (s : Projecting) (rows : String → Option SourceRow) {n : Nat} (h : n ≤ s.commits) :
    (s.write rows).versions n = s.versions n := by
  have hne : n ≠ s.commits + 1 := by omega
  simp [Projecting.write, hne]

/-- What was seen of a row stays in the past, and what is projected no newer, when another version commits. -/
theorem seen_write {start seen : Nat} {row : Option ProjectedRow}
    (h : start ≤ seen ∧ seen ≤ s.commits ∧ s.asOf id ≤ seen ∧ projection.selected (s.versions seen id) = row)
    (rows : String → Option SourceRow) :
    start ≤ seen ∧ seen ≤ (s.write rows).commits ∧ (s.write rows).asOf id ≤ seen ∧
      projection.selected ((s.write rows).versions seen id) = row := by
  obtain ⟨hstart, hseen, hasOf, hrow⟩ := h
  refine ⟨hstart, Nat.le_succ_of_le hseen, hasOf, ?_⟩
  rw [versions_write s rows hseen]
  exact hrow

theorem Refresh.Sound.write {refresh : Refresh} (h : refresh.Sound projection s) (rows : String → Option SourceRow) :
    refresh.Sound projection (s.write rows) := by
  cases refresh with
  | started id start => exact Nat.le_succ_of_le h
  | locked id start => exact Nat.le_succ_of_le h
  | upserted id start seen row => exact seen_write h rows
  | missing id start seen => exact seen_write h rows
  | removed id start seen => exact seen_write h rows
  | committed id start => exact h
  | idle => trivial
  | failed => trivial

theorem Sound.write (h : Sound projection s) (rows : String → Option SourceRow) (hfree : s.sync.locksSource = false) :
    Sound projection (s.write rows) where
  past id := Nat.le_succ_of_le (h.past id)
  content id := by
    show s.projection id = projection.selected ((s.write rows).versions (s.asOf id) id)
    rw [versions_write s rows (h.past id)]
    exact h.content id
  alone := h.alone
  refresh i := (h.refresh i).write rows
  exclusive := h.exclusive
  sync := by
    show s.sync.Sound projection (s.write rows)
    cases hsync : s.sync with
    | idle => trivial
    | _ =>
      rw [hsync] at hfree
      cases hfree

/-- A synchronization that does not keep the writers of the projection out has seen nothing yet. -/
theorem Sync.sound_of_unlocked (h : s.sync.locksTarget = false) : s.sync.Sound projection s' := by
  cases hsync : s.sync with
  | idle => trivial
  | sourceLocked => trivial
  | targetLocked => trivial
  | upserted seen rows =>
    rw [hsync] at h
    cases h
  | pruned seen rows =>
    rw [hsync] at h
    cases h

/-- Another refresh when the content of a row is committed that it does not hold. -/
theorem Refresh.Sound.project {refresh : Refresh} (h : refresh.Sound projection s) (hother : refresh.holding ≠ some id)
    {seen : Nat} (hseen : s.asOf id ≤ seen) (row : Option ProjectedRow) :
    refresh.Sound projection (s.project id seen row) := by
  have hsame : ∀ other, other ≠ id → (s.project id seen row).asOf other = s.asOf other := by
    intro other hne
    simp [Projecting.project, hne]
  cases refresh with
  | started other start => exact h
  | locked other start => exact h
  | upserted other start seen' row' =>
    rw [Refresh.Sound, hsame other fun heq => hother (congrArg some heq)]
    exact h
  | missing other start seen' =>
    rw [Refresh.Sound, hsame other fun heq => hother (congrArg some heq)]
    exact h
  | removed other start seen' =>
    rw [Refresh.Sound, hsame other fun heq => hother (congrArg some heq)]
    exact h
  | committed other start =>
    have hle : start ≤ s.asOf other := h
    show start ≤ (s.project id seen row).asOf other
    by_cases heq : other = id
    · subst heq
      simp only [Projecting.project, Function.update_self]
      omega
    · rw [hsame other heq]
      exact hle
  | idle => trivial
  | failed => trivial

/-- The content that a refresh has seen is committed: nothing newer was there. -/
theorem Sound.project (h : Sound projection s) {start seen : Nat} {row : Option ProjectedRow}
    (hholding : (s.refreshes i).holding = some id) (htouching : (s.refreshes i).touching = true)
    (hstart : start ≤ seen) (hseen : seen ≤ s.commits) (hasOf : s.asOf id ≤ seen)
    (hrow : projection.selected (s.versions seen id) = row) :
    Sound projection ((s.project id seen row).set i (.committed id start)) := by
  have hunlocked : s.sync.locksTarget = false := by
    by_contra hlocked
    have hnot := h.exclusive (by simpa using hlocked) i
    rw [htouching] at hnot
    cases hnot
  refine ⟨fun other => ?_, fun other => ?_, fun j k other hj hk => ?_, fun j => ?_, fun hlocked => ?_, ?_⟩
  · show Function.update s.asOf id seen other ≤ s.commits
    by_cases heq : other = id
    · rw [heq, Function.update_self]
      exact hseen
    · rw [Function.update_of_ne heq]
      exact h.past other
  · show Function.update s.projection id row other =
      projection.selected (s.versions (Function.update s.asOf id seen other) other)
    by_cases heq : other = id
    · rw [heq, Function.update_self, Function.update_self, hrow]
    · rw [Function.update_of_ne heq, Function.update_of_ne heq]
      exact h.content other
  · by_cases hji : j = i
    · rw [hji, set_self] at hj
      cases hj
    · by_cases hki : k = i
      · rw [hki, set_self] at hk
        cases hk
      · rw [set_other _ _ hji] at hj
        rw [set_other _ _ hki] at hk
        exact h.alone j k other hj hk
  · by_cases hj : j = i
    · rw [hj, set_self]
      show start ≤ Function.update s.asOf id seen id
      rw [Function.update_self]
      exact hstart
    · rw [set_other _ _ hj]
      exact (h.refresh j).project (fun hheld => hj (h.alone j i id hheld hholding)) hasOf row
  · exact absurd (hunlocked.symm.trans hlocked) (by simp)
  · exact Sync.sound_of_unlocked hunlocked

/-- The synchronization moves on. -/
theorem Sound.sync_set (h : Sound projection s) {sync : Sync} (hsound : sync.Sound projection s)
    (hexclusive : sync.locksTarget = true → ∀ i, (s.refreshes i).touching = false) :
    Sound projection { s with sync } where
  past := h.past
  content := h.content
  alone := h.alone
  refresh := h.refresh
  exclusive := hexclusive
  sync := hsound

/-- The synchronization commits: all rows are as they are now. -/
theorem Sound.synchronize (h : Sound projection s) {seen : Nat} {rows : String → Option ProjectedRow}
    (hpruned : s.sync = .pruned seen rows) :
    Sound projection { s with projection := rows, asOf := fun _ => seen, sync := .idle } := by
  have hsync := h.sync
  rw [hpruned] at hsync
  obtain ⟨rfl, hrows⟩ := hsync
  have hnone := h.exclusive (by rw [hpruned]; rfl)
  refine ⟨fun _ => Nat.le_refl _, hrows, h.alone, fun i => ?_, nofun, trivial⟩
  have hrefresh := h.refresh i
  have htouching := hnone i
  show Refresh.Sound projection _ (s.refreshes i)
  cases hphase : s.refreshes i with
  | idle => trivial
  | failed => trivial
  | started id start =>
    rw [hphase] at hrefresh
    exact hrefresh
  | locked id start =>
    rw [hphase] at hrefresh
    exact hrefresh
  | committed id start =>
    rw [hphase] at hrefresh
    exact Nat.le_trans hrefresh (h.past id)
  | _ =>
    rw [hphase] at htouching
    cases htouching

theorem ProjectStep.sound {move : Move} (hstep : ProjectStep projection s move s') (h : Sound projection s) :
    Sound projection s' := by
  cases hstep with
  | write rows hfree => exact h.write rows hfree
  | notify i data id hnamed hidle => exact h.set (Nat.le_refl _) nofun nofun
  | lock i id start hphase hfree =>
    have hrefresh := h.refresh i
    rw [hphase] at hrefresh
    refine h.set hrefresh (fun other hholding j hj => ?_) nofun
    cases hholding
    exact absurd hj (hfree j)
  | upsert i id start row hphase hfree hlive =>
    have hrefresh := h.refresh i
    rw [hphase] at hrefresh
    refine h.set ⟨hrefresh, Nat.le_refl _, h.past id, hlive⟩ (fun other hholding j hj => ?_) fun _ _ => hfree
    cases hholding
    exact h.alone j i id hj (by rw [hphase]; rfl)
  | miss i id start hphase hfree hgone =>
    have hrefresh := h.refresh i
    rw [hphase] at hrefresh
    refine h.set ⟨hrefresh, Nat.le_refl _, h.past id, hgone⟩ (fun other hholding j hj => ?_) fun _ _ => hfree
    cases hholding
    exact h.alone j i id hj (by rw [hphase]; rfl)
  | remove i id start seen hphase =>
    have hrefresh := h.refresh i
    rw [hphase] at hrefresh
    refine h.set hrefresh (fun other hholding j hj => ?_) fun _ hnot => ?_
    · cases hholding
      exact h.alone j i id hj (by rw [hphase]; rfl)
    · rw [hphase] at hnot
      cases hnot
  | commitRow i id start seen row hphase =>
    have hrefresh := h.refresh i
    rw [hphase] at hrefresh
    obtain ⟨hstart, hseen, hasOf, hrow⟩ := hrefresh
    exact h.project (by rw [hphase]; rfl) (by rw [hphase]; rfl) hstart hseen hasOf hrow
  | commitRemoval i id start seen hphase =>
    have hrefresh := h.refresh i
    rw [hphase] at hrefresh
    obtain ⟨hstart, hseen, hasOf, hrow⟩ := hrefresh
    exact h.project (by rw [hphase]; rfl) (by rw [hphase]; rfl) hstart hseen hasOf hrow
  | fault i hopen => exact h.set trivial nofun nofun
  | syncSource hidle => exact h.sync_set trivial nofun
  | syncTarget hsource hfree => exact h.sync_set trivial fun _ => hfree
  | syncUpsert htarget =>
    refine h.sync_set ⟨rfl, fun id row hrow => ?_⟩ fun _ => h.exclusive (by rw [htarget]; rfl)
    show (projection.selected (s.base id)).orElse _ = some row
    rw [hrow]
    rfl
  | syncPrune seen rows hupserted =>
    have hsync := h.sync
    rw [hupserted] at hsync
    obtain ⟨hseen, hrows⟩ := hsync
    refine h.sync_set ⟨hseen, fun id => ?_⟩ fun _ => h.exclusive (by rw [hupserted]; rfl)
    show (if (projection.selected (s.base id)).isSome then rows id else none) = _
    cases hselected : projection.selected (s.base id) with
    | none => simp
    | some row => simp [hrows id row hselected]
  | syncCommit seen rows hpruned => exact h.synchronize hpruned
  | syncFault => exact h.sync_set trivial nofun

theorem sound_inductive : (projectSystem projection).Inductive (Sound projection) where
  init s hs := by
    obtain ⟨hcommits, hasOf, hprojection, hidle, hsync⟩ := hs
    refine ⟨fun id => ?_, fun id => ?_, fun i j id hi _ => ?_, fun i => ?_, fun hlocked => ?_, ?_⟩
    · rw [hasOf, hcommits]
    · rw [hasOf]
      exact hprojection id
    · rw [hidle] at hi
      cases hi
    · rw [hidle]
      trivial
    · rw [hsync] at hlocked
      cases hlocked
    · rw [hsync]
      trivial
  step _ _ _ h hstep := hstep.sound h

/-- What is projected of a row is never of an earlier version than before. -/
theorem ProjectStep.asOf_le {move : Move} (hstep : ProjectStep projection s move s') (h : Sound projection s)
    (id : String) : s.asOf id ≤ s'.asOf id := by
  have hproject : ∀ {other : String} {seen : Nat}, s.asOf other ≤ seen →
      s.asOf id ≤ Function.update s.asOf other seen id := by
    intro other seen hle
    by_cases heq : id = other
    · rw [heq, Function.update_self]
      exact hle
    · rw [Function.update_of_ne heq]
  cases hstep with
  | commitRow i other start seen row hphase =>
    have hrefresh := h.refresh i
    rw [hphase] at hrefresh
    exact hproject hrefresh.2.2.1
  | commitRemoval i other start seen hphase =>
    have hrefresh := h.refresh i
    rw [hphase] at hrefresh
    exact hproject hrefresh.2.2.1
  | syncCommit seen rows hpruned =>
    have hsync := h.sync
    rw [hpruned] at hsync
    show s.asOf id ≤ seen
    rw [hsync.1]
    exact h.past id
  | _ => exact Nat.le_refl _

theorem ProjectStep.versions_eq {move : Move} (hstep : ProjectStep projection s move s') {n : Nat} (hn : n ≤ s.commits) :
    s'.versions n = s.versions n := by
  cases hstep with
  | write rows => exact versions_write s rows hn
  | _ => rfl

/-! ## Convergence -/

/-- No commit behind a number of commits has changed a row. -/
def Settled (s : Projecting) (id : String) (start : Nat) : Prop :=
  ∀ n, start ≤ n → n ≤ s.commits → s.versions n id = s.base id

/-- A row was never modified, or a refresh of it that started after the last modification has ended. -/
def CaughtUp (s : Projecting) (id : String) : Prop :=
  Settled s id 0 ∨ ∃ i start, s.refreshes i = .committed id start ∧ Settled s id start

theorem Sound.caughtUp (h : Sound projection s) (hcaught : CaughtUp s id) :
    s.projection id = projection.selected (s.base id) := by
  rw [h.content]
  rcases hcaught with hsettled | ⟨i, start, hphase, hsettled⟩
  · rw [hsettled _ (Nat.zero_le _) (h.past id)]
  · have hrefresh := h.refresh i
    rw [hphase] at hrefresh
    rw [hsettled _ hrefresh (h.past id)]

/-- In every state of a run: the rows that are caught up are projected as they are, so that the table is that of
the live rows once all are; what is projected of a row is a version of it, and no step replaces it by that of
an earlier one. -/
theorem converges (projection : CurrentStateProjection) (s : Projecting) (h : (projectSystem projection).Reachable s) :
    (∀ id, CaughtUp s id → s.projection id = projection.selected (s.base id)) ∧
      ((∀ id, CaughtUp s id) → s.projection = fun id => projection.selected (s.base id)) ∧
      ∀ move s', (projectSystem projection).step s move s' →
        (∀ n ≤ s.commits, s'.versions n = s.versions n) ∧
          ∀ id, s.projection id = projection.selected (s.versions (s.asOf id) id) ∧
            s'.projection id = projection.selected (s'.versions (s'.asOf id) id) ∧
            s.asOf id ≤ s'.asOf id ∧ s'.asOf id ≤ s'.commits := by
  have hsound := sound_inductive.reachable h
  refine ⟨fun id => hsound.caughtUp, fun hall => funext fun id => hsound.caughtUp (hall id), fun move s' hstep =>
    ⟨fun n hn => ProjectStep.versions_eq hstep hn, fun id => ?_⟩⟩
  have hsound' := ProjectStep.sound hstep hsound
  exact ⟨hsound.content id, hsound'.content id, ProjectStep.asOf_le hstep hsound id, hsound'.past id⟩

/-! ## A late notification -/

def noteProjection : CurrentStateProjection where
  projection := { sourceModel := "Note", tableName := "notes_projection", columns := ["id", "title"] }
  sourceTable := "notes"

/-- The note `n1` alone, with a title. -/
def noteRows (title : String) (id : String) : Option SourceRow :=
  if id = "n1" then
    some { deletedAt := none, cells := fun column => if column = "id" then some "n1" else some title }
  else none

/-- Nothing is there yet. -/
def empty : Projecting :=
  ⟨fun _ _ => none, 0, fun _ => none, fun _ => 0, fun _ => .idle, .idle⟩

def titled (title : String) : ProjectedRow :=
  [("id", "n1"), ("title", title)]

/-- The note is written twice. The refresh of the second notification ends before that of the first one begins. -/
def refreshed : Projecting :=
  let written := (((empty.write (noteRows "old")).set 0 (.started "n1" 1)).write (noteRows "new")).set 1 (.started "n1" 2)
  let second := ((written.set 1 (.locked "n1" 2)).set 1 (.upserted "n1" 2 2 (titled "new"))).project "n1" 2
    (some (titled "new")) |>.set 1 (.committed "n1" 2)
  ((second.set 0 (.locked "n1" 1)).set 0 (.upserted "n1" 1 2 (titled "new"))).project "n1" 2 (some (titled "new"))
    |>.set 0 (.committed "n1" 1)

theorem refreshed_reachable : (projectSystem noteProjection).Reachable refreshed := by
  have hdata : handleEvent [("id", .string "n1")] = some "n1" := rfl
  refine ⟨empty, [.write, .notify 0 [("id", .string "n1")], .write, .notify 1 [("id", .string "n1")], .lock 1, .upsert 1,
    .commit 1, .lock 0, .upsert 0, .commit 0], ⟨rfl, fun _ => rfl, fun _ => rfl, fun _ => rfl, rfl⟩, ?_⟩
  refine .cons (.write (noteRows "old") rfl) ?_
  refine .cons (.notify 0 _ "n1" hdata rfl) ?_
  refine .cons (.write (noteRows "new") rfl) ?_
  refine .cons (.notify 1 _ "n1" hdata rfl) ?_
  refine .cons (.lock 1 "n1" 2 rfl fun j => ?_) ?_
  · match j with
    | 0 => exact nofun
    | 1 => exact nofun
    | j + 2 => exact nofun
  refine .cons (.upsert 1 "n1" 2 (titled "new") rfl rfl rfl) ?_
  refine .cons (.commitRow 1 "n1" 2 2 (titled "new") rfl) ?_
  refine .cons (.lock 0 "n1" 1 rfl fun j => ?_) ?_
  · match j with
    | 0 => exact nofun
    | 1 => exact nofun
    | j + 2 => exact nofun
  refine .cons (.upsert 0 "n1" 1 (titled "new") rfl rfl rfl) ?_
  refine .cons (.commitRow 0 "n1" 1 2 (titled "new") rfl) ?_
  exact .nil _

theorem converges_refreshed :
    (projectSystem noteProjection).Reachable refreshed ∧ refreshed.projection "n1" = some (titled "new") ∧
      ∀ id, CaughtUp refreshed id → refreshed.projection id = noteProjection.selected (refreshed.base id) :=
  ⟨refreshed_reachable, rfl, (converges noteProjection refreshed refreshed_reachable).1⟩

end Atomo.Projectors
