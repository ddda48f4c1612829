import Atomo.Events.Appenders

/-!
# Following the sequence

A reader that calls `read_events_from_sequence` again and again, from the number behind the last one that it has
seen, while events are appended. A number is drawn when its row is inserted, and the row is seen when its
transaction commits: the reader misses the rows of a transaction that commits behind it, and these only.
-/

namespace Atomo.Events

open LabelledSystem

/-- The events that were appended, and a reader of them. -/
structure Following where
  appends : Appends
  cursor : Int
  returned : List EventEnvelope

/-- The last number that the reader has seen. -/
def lastSeen (cursor : Int) (page : List EventEnvelope) : Int :=
  (page.getLast?.map (·.globalSequence)).getD cursor

def Following.advance (f : Following) (page : List EventEnvelope) : Following :=
  { f with cursor := lastSeen f.cursor page, returned := f.returned ++ page }

inductive FollowMove where
  | append (move : Move)
  | read (maxCount : Option Nat)
  | refused

/-- A statement of an appender, or a read. -/
inductive FollowStep (calls : Nat → Append) : Following → FollowMove → Following → Prop
  | append {f : Following} {move : Move} {s : Appends} (step : AppendStep calls f.appends move s) :
      FollowStep calls f (.append move) { f with appends := s }
  | read {f : Following} (maxCount : Option Nat) (page : List EventEnvelope)
      (selects : selectFromSequence f.appends.visible (f.cursor + 1) maxCount = some page) :
      FollowStep calls f (.read maxCount) (f.advance page)
  | refused {f : Following} : FollowStep calls f .refused f

/-- Nothing is appended yet, and nothing read. -/
def followSystem (calls : Nat → Append) : LabelledSystem Following FollowMove where
  init f := (appendSystem calls).init f.appends ∧ f.cursor = 0 ∧ f.returned = []
  step := FollowStep calls

/-- An event that is committed has been returned once when the reader is past it, and else not yet. -/
def Followed (f : Following) : Prop :=
  ∀ event ∈ f.appends.visible, f.returned.count event = if event.globalSequence ≤ f.cursor then 1 else 0

/-- A transaction that commits has drawn its numbers behind the reader's cursor. -/
def Ahead (f : Following) : FollowMove → Prop
  | .append (.commit i) => ∀ row ∈ f.appends.rows, row.insertedBy = i → f.cursor < row.event.globalSequence
  | _ => True

/-! ## Numbers -/

/-- The number that a call has drawn and not stored yet. -/
def Phase.pending : Phase → Option Int
  | drawn sequence _ _ => some sequence
  | _ => none

/-- Each number is drawn once. -/
structure Numbered (s : Appends) : Prop where
  started : 0 ≤ s.lastSequence
  distinct : (s.rows.map (·.event.globalSequence)).Nodup
  stored : ∀ row ∈ s.rows, 1 ≤ row.event.globalSequence ∧ row.event.globalSequence ≤ s.lastSequence
  bounded : ∀ i n, (s.phases i).pending = some n → 1 ≤ n ∧ n ≤ s.lastSequence
  fresh : ∀ i n, (s.phases i).pending = some n → ∀ row ∈ s.rows, row.event.globalSequence ≠ n
  apart : ∀ i j n, (s.phases i).pending = some n → (s.phases j).pending = some n → i = j

variable {calls : Nat → Append} {s s' : Appends} {i : Nat} {f g : Following}

theorem pending_set (s : Appends) {i j : Nat} {phase : Phase} (hphase : phase.pending = none) {n : Int}
    (h : ((s.set i phase).phases j).pending = some n) : (s.phases j).pending = some n := by
  by_cases hj : j = i
  · subst hj
    rw [set_self, hphase] at h
    cases h
  · rwa [set_other s _ hj] at h

theorem Numbered.set (h : Numbered s) {phase : Phase} (hphase : phase.pending = none) : Numbered (s.set i phase) where
  started := h.started
  distinct := h.distinct
  stored := h.stored
  bounded j n hn := h.bounded j n (pending_set s hphase hn)
  fresh j n hn := h.fresh j n (pending_set s hphase hn)
  apart j k n hj hk := h.apart j k n (pending_set s hphase hj) (pending_set s hphase hk)

theorem Numbered.abort (h : Numbered s) : Numbered (s.abort i) := by
  have hset : Numbered (s.set i .failed) := h.set rfl
  exact
    { started := h.started
      distinct := h.distinct.sublist (List.filter_sublist.map _)
      stored := fun row hrow => h.stored row (List.mem_of_mem_filter hrow)
      bounded := hset.bounded
      fresh := fun j n hn row hrow => hset.fresh j n hn row (List.mem_of_mem_filter hrow)
      apart := hset.apart }

theorem pending_draw (s : Appends) {i j : Nat} {event : EventEnvelope} {rest : List EventEnvelope} {n : Int}
    (h : ((s.draw i event rest).phases j).pending = some n) :
    j = i ∧ n = s.lastSequence + 1 ∨ j ≠ i ∧ (s.phases j).pending = some n := by
  unfold Appends.draw at h
  by_cases hj : j = i
  · subst hj
    rw [set_self] at h
    exact .inl ⟨rfl, (Option.some.inj h).symm⟩
  · rw [set_other _ _ hj] at h
    exact .inr ⟨hj, h⟩

theorem Numbered.draw (h : Numbered s) {event : EventEnvelope} {rest : List EventEnvelope} :
    Numbered (s.draw i event rest) where
  started := by
    have := h.started
    show 0 ≤ s.lastSequence + 1
    omega
  distinct := h.distinct
  stored row hrow := by
    have := h.stored row hrow
    show _ ∧ _ ≤ s.lastSequence + 1
    omega
  bounded j n hn := by
    have hstarted := h.started
    show 1 ≤ n ∧ n ≤ s.lastSequence + 1
    rcases pending_draw s hn with ⟨-, rfl⟩ | ⟨-, hn⟩
    · omega
    · have := h.bounded j n hn
      omega
  fresh j n hn row hrow := by
    rcases pending_draw s hn with ⟨-, rfl⟩ | ⟨-, hn⟩
    · have := h.stored row hrow
      omega
    · exact h.fresh j n hn row hrow
  apart j k n hj hk := by
    rcases pending_draw s hj with ⟨rfl, rfl⟩ | ⟨-, hj'⟩
    · rcases pending_draw s hk with ⟨rfl, -⟩ | ⟨-, hk'⟩
      · rfl
      · have := h.bounded k _ hk'
        omega
    · rcases pending_draw s hk with ⟨rfl, rfl⟩ | ⟨-, hk'⟩
      · have := h.bounded j _ hj'
        omega
      · exact h.apart j k n hj' hk'

theorem Numbered.store (h : Numbered s) {sequence : Int} {event : EventEnvelope} {rest : List EventEnvelope}
    (hphase : s.phases i = .drawn sequence event rest) : Numbered (s.store i sequence event rest) := by
  have hpending : (s.phases i).pending = some sequence := by rw [hphase]; rfl
  have hother : ∀ {j n}, ((s.store i sequence event rest).phases j).pending = some n →
      j ≠ i ∧ (s.phases j).pending = some n := by
    intro j n hn
    by_cases hj : j = i
    · subst hj
      rw [store_self] at hn
      cases hn
    · rw [store_other s _ _ _ hj] at hn
      exact ⟨hj, hn⟩
  refine ⟨h.started, ?_, fun row hrow => ?_, fun j n hn => h.bounded j n (hother hn).2, fun j n hn row hrow => ?_,
    fun j k n hj hk => h.apart j k n (hother hj).2 (hother hk).2⟩
  · show ((s.rows ++ [_]).map _).Nodup
    rw [List.map_append, List.nodup_append]
    refine ⟨h.distinct, List.nodup_singleton _, fun a ha b hb heq => ?_⟩
    obtain ⟨row, hrow, rfl⟩ := List.mem_map.1 ha
    exact h.fresh i sequence hpending row hrow (heq.trans (List.mem_singleton.1 hb))
  · rcases List.mem_append.1 hrow with hold | hnew
    · exact h.stored row hold
    · rw [List.mem_singleton.1 hnew]
      exact h.bounded i sequence hpending
  · obtain ⟨hj, hn⟩ := hother hn
    rcases List.mem_append.1 hrow with hold | hnew
    · exact h.fresh j n hn row hold
    · rw [List.mem_singleton.1 hnew]
      intro heq
      exact hj (h.apart j i n hn (by rw [hpending, ← heq]))

theorem AppendStep.numbered {move : Move} (hstep : AppendStep calls s move s') (h : Numbered s) : Numbered s' := by
  cases hstep with
  | skip i => exact h.set rfl
  | begin i => exact h.set rfl
  | conflict i => exact h.abort
  | check i => exact h.set rfl
  | draw i => exact h.draw
  | insert i sequence event rest hphase => exact h.store hphase
  | violate i => exact h.abort
  | commit i => exact h.set rfl
  | fault i => exact h.abort

theorem Numbered.visible (h : Numbered s) : (s.visible.map (·.globalSequence)).Nodup := by
  unfold Appends.visible
  rw [List.map_map]
  exact h.distinct.sublist (List.filter_sublist.map _)

theorem Numbered.init (h : (appendSystem calls).init s) : Numbered s := by
  obtain ⟨hrows, hlast, hready⟩ := h
  have hnone : ∀ i n, (s.phases i).pending ≠ some n := by
    intro i n hn
    rw [hready] at hn
    cases hn
  refine ⟨by omega, ?_, ?_, fun i n hn => absurd hn (hnone i n), fun i n hn => absurd hn (hnone i n),
    fun i j n hn => absurd hn (hnone i n)⟩
  · rw [hrows]
    exact List.nodup_nil
  · rw [hrows]
    intro row hrow
    cases hrow

/-! ## What is seen -/

theorem mem_visible_iff {event : EventEnvelope} :
    event ∈ s.visible ↔ ∃ row ∈ s.rows, s.phases row.insertedBy = .committed ∧ row.event = event := by
  unfold Appends.visible Appends.isCommitted
  simp only [List.mem_map, List.mem_filter, decide_eq_true_eq, and_assoc]

/-- What is not committed is not seen, whatever becomes of it. -/
theorem visible_set (h : s.phases i ≠ .committed) {phase : Phase} (hnew : phase ≠ .committed) :
    (s.set i phase).visible = s.visible := by
  unfold Appends.visible
  congr 1
  apply List.filter_congr
  intro row _
  unfold Appends.isCommitted
  by_cases hby : row.insertedBy = i
  · rw [hby, set_self]
    simp [h, hnew]
  · rw [set_other s _ hby]

theorem visible_abort (h : s.phases i ≠ .committed) : (s.abort i).visible = s.visible := by
  have hset : (s.set i .failed).visible = s.visible := visible_set h (by simp)
  rw [← hset]
  show ((s.rows.filter (·.insertedBy ≠ i)).filter _).map _ = _
  rw [List.filter_filter]
  unfold Appends.visible
  congr 1
  apply List.filter_congr
  intro row _
  unfold Appends.isCommitted Appends.abort Appends.set
  by_cases hby : row.insertedBy = i <;> simp [hby]

theorem visible_store (h : s.phases i ≠ .committed) (sequence : Int) (event : EventEnvelope)
    (rest : List EventEnvelope) : (s.store i sequence event rest).visible = s.visible := by
  have hset : (s.set i (.inserting rest)).visible = s.visible := visible_set h (by simp)
  rw [← hset]
  unfold Appends.visible
  show (((s.rows ++ [_]).filter _)).map _ = _
  rw [List.filter_append]
  simp [Appends.isCommitted, Appends.store, Appends.set]
  rfl

/-- A step other than a commit shows no more, and a commit the rows of its call. -/
theorem AppendStep.visible {move : Move} (hstep : AppendStep calls s move s') :
    (∃ i, move = .commit i ∧ s.phases i = .inserting [] ∧ s' = s.set i .committed) ∨
      (∀ i, move ≠ .commit i) ∧ s'.visible = s.visible := by
  cases hstep with
  | skip i hready => exact .inr ⟨by simp, visible_set (by rw [hready]; simp) (by simp)⟩
  | begin i hready => exact .inr ⟨by simp, visible_set (by rw [hready]; simp) (by simp)⟩
  | conflict i expected hopened => exact .inr ⟨by simp, visible_abort (by rw [hopened]; simp)⟩
  | check i hopened => exact .inr ⟨by simp, visible_set (by rw [hopened]; simp) (by simp)⟩
  | draw i event rest hphase => exact .inr ⟨by simp, visible_set (s := { s with lastSequence := _ }) (by
      show s.phases i ≠ _
      rw [hphase]
      simp) (by simp)⟩
  | insert i sequence event rest hphase => exact .inr ⟨by simp, visible_store (by rw [hphase]; simp) _ _ _⟩
  | violate i sequence event rest row hphase => exact .inr ⟨by simp, visible_abort (by rw [hphase]; simp)⟩
  | commit i hphase => exact .inl ⟨i, rfl, hphase, rfl⟩
  | fault i hopen => exact .inr ⟨by simp, visible_abort (not_committed_of_open hopen)⟩

theorem mem_visible_commit {event : EventEnvelope} :
    event ∈ (s.set i .committed).visible ↔ event ∈ s.visible ∨ ∃ row ∈ s.rows, row.insertedBy = i ∧ row.event = event := by
  rw [mem_visible_iff, mem_visible_iff]
  constructor
  · rintro ⟨row, hrow, hcommitted, heq⟩
    by_cases hby : row.insertedBy = i
    · exact .inr ⟨row, hrow, hby, heq⟩
    · rw [set_other s _ hby] at hcommitted
      exact .inl ⟨row, hrow, hcommitted, heq⟩
  · rintro (⟨row, hrow, hcommitted, heq⟩ | ⟨row, hrow, hby, heq⟩)
    · refine ⟨row, hrow, ?_, heq⟩
      by_cases hby : row.insertedBy = i
      · rw [hby, set_self]
      · rwa [set_other s _ hby]
    · exact ⟨row, hrow, by rw [hby, set_self], heq⟩

/-! ## What the reader has been told -/

/-- The reader was told of events that it is past, of each once. -/
structure Told (f : Following) : Prop where
  numbered : Numbered f.appends
  seen : ∀ event ∈ f.returned, event ∈ f.appends.visible ∧ event.globalSequence ≤ f.cursor
  once : f.returned.Nodup

theorem visible_mono {move : Move} (hstep : AppendStep calls s move s') {event : EventEnvelope} (h : event ∈ s.visible) :
    event ∈ s'.visible := by
  rcases hstep.visible with ⟨i, -, -, rfl⟩ | ⟨-, heq⟩
  · exact mem_visible_commit.2 (.inl h)
  · rwa [heq]

theorem lastSeen_concat (cursor : Int) (page : List EventEnvelope) (last : EventEnvelope) :
    lastSeen cursor (page ++ [last]) = last.globalSequence := by
  unfold lastSeen
  rw [List.getLast?_concat]
  rfl

theorem le_lastSeen {cursor : Int} {page : List EventEnvelope}
    (h : page.Pairwise fun a b => a.globalSequence ≤ b.globalSequence) {event : EventEnvelope} (hevent : event ∈ page) :
    event.globalSequence ≤ lastSeen cursor page := by
  rcases page.eq_nil_or_concat' with rfl | ⟨init, last, rfl⟩
  · cases hevent
  · rw [lastSeen_concat]
    rcases List.mem_append.1 hevent with hinit | hlast
    · exact (List.pairwise_append.1 h).2.2 event hinit last List.mem_cons_self
    · rw [List.mem_singleton.1 hlast]

/-- Where the reader stands behind a page. -/
theorem lastSeen_cases (cursor : Int) (page : List EventEnvelope) :
    page = [] ∧ lastSeen cursor page = cursor ∨ ∃ event ∈ page, lastSeen cursor page = event.globalSequence := by
  rcases page.eq_nil_or_concat' with rfl | ⟨init, last, rfl⟩
  · exact .inl ⟨rfl, rfl⟩
  · exact .inr ⟨last, List.mem_append_right _ List.mem_cons_self, lastSeen_concat cursor init last⟩

theorem cursor_le_lastSeen {cursor : Int} {page events : List EventEnvelope} {maxCount : Option Nat}
    (h : selectFromSequence events (cursor + 1) maxCount = some page) : cursor ≤ lastSeen cursor page := by
  rcases lastSeen_cases cursor page with ⟨-, heq⟩ | ⟨event, hevent, heq⟩
  · omega
  · have := (mem_of_select h hevent).2
    omega

theorem Told.step {move : FollowMove} (hstep : FollowStep calls f move g) (h : Told f) : Told g := by
  cases hstep with
  | append step =>
    refine ⟨step.numbered h.numbered, fun event hevent => ?_, h.once⟩
    obtain ⟨hin, hle⟩ := h.seen event hevent
    exact ⟨visible_mono step hin, hle⟩
  | read maxCount page hselects =>
    have hcursor := cursor_le_lastSeen hselects
    refine ⟨h.numbered, fun event hevent => ?_, ?_⟩
    · rcases List.mem_append.1 hevent with hold | hnew
      · obtain ⟨hin, hle⟩ := h.seen event hold
        exact ⟨hin, Int.le_trans hle hcursor⟩
      · exact ⟨(mem_of_select hselects hnew).1, le_lastSeen (select_sorted hselects) hnew⟩
    · have hvisible := List.Nodup.of_map _ h.numbered.visible
      refine List.nodup_append.2 ⟨h.once, select_nodup hselects hvisible, fun a ha b hb heq => ?_⟩
      subst heq
      have hle := (h.seen a ha).2
      have hlt := (mem_of_select hselects hb).2
      omega
  | refused => exact h

theorem told_inductive : (followSystem calls).Inductive Told where
  init f hf := by
    obtain ⟨happends, -, hreturned⟩ := hf
    refine ⟨.init happends, fun event hevent => ?_, ?_⟩
    · rw [hreturned] at hevent
      cases hevent
    · rw [hreturned]
      exact List.nodup_nil
  step _ _ _ h hstep := h.step hstep

/-- Of what the reader is told once and of what never, where the reader has been told of all behind it. -/
theorem Told.followed_iff (h : Told f) :
    Followed f ↔ ∀ event ∈ f.appends.visible, event.globalSequence ≤ f.cursor → event ∈ f.returned := by
  constructor
  · intro hfollowed event hevent hle
    have hcount := hfollowed event hevent
    rw [if_pos hle] at hcount
    exact List.count_pos_iff.1 (by omega)
  · intro hall event hevent
    by_cases hle : event.globalSequence ≤ f.cursor
    · rw [if_pos hle]
      exact List.count_eq_one_of_mem h.once (hall event hevent hle)
    · rw [if_neg hle]
      exact List.count_eq_zero_of_not_mem fun hin => hle (h.seen event hin).2

/-- A step keeps up with the events when it commits none behind the cursor, and only then. -/
theorem FollowStep.followed_iff {move : FollowMove} (hstep : FollowStep calls f move g) (h : Told f) (hf : Followed f) :
    Followed g ↔ Ahead f move := by
  have hg := h.step hstep
  rw [hg.followed_iff]
  have hall := h.followed_iff.1 hf
  cases hstep with
  | @append move _ step =>
    rcases step.visible with ⟨i, rfl, hphase, rfl⟩ | ⟨hmove, heq⟩
    · constructor
      · intro hkept row hrow hby
        by_contra hle
        have hin := hkept row.event (mem_visible_commit.2 (.inr ⟨row, hrow, hby, rfl⟩)) (by
          show _ ≤ f.cursor
          omega)
        -- what was returned was seen before, so the row would be one of another call
        obtain ⟨other, hother, hcommitted, hsame⟩ := mem_visible_iff.1 (h.seen row.event hin).1
        have hrows := List.inj_on_of_nodup_map h.numbered.distinct hother hrow (by rw [hsame])
        rw [hrows, hby, hphase] at hcommitted
        cases hcommitted
      · intro hahead event hevent hle
        rcases mem_visible_commit.1 hevent with hold | ⟨row, hrow, hby, rfl⟩
        · exact hall event hold hle
        · have hlt : f.cursor < row.event.globalSequence := hahead row hrow hby
          have hle : row.event.globalSequence ≤ f.cursor := hle
          omega
    · refine iff_of_true ?_ ?_
      · intro event hevent hle
        exact hall event (by rwa [← heq]) hle
      · cases move with
        | commit i => exact absurd rfl (hmove i)
        | _ => trivial
  | read maxCount page hselects =>
    refine iff_of_true ?_ trivial
    intro event hevent hle
    by_cases hbehind : event.globalSequence ≤ f.cursor
    · exact List.mem_append_left _ (hall event hevent hbehind)
    · apply List.mem_append_right
      have hle : event.globalSequence ≤ lastSeen f.cursor page := hle
      rcases lastSeen_cases f.cursor page with ⟨-, hsame⟩ | ⟨other, hother, hlast⟩
      · omega
      · exact mem_select_of_le hselects h.numbered.visible hevent (by omega) hother (by omega)
  | refused => exact iff_of_true hall trivial

/-- In a run whose commits are ahead of the reader. -/
theorem followed_inductive : ((followSystem calls).restrict Ahead).Inductive fun f => Told f ∧ Followed f where
  init f hf := by
    have htold := told_inductive.init f hf
    refine ⟨htold, htold.followed_iff.2 fun event hevent => ?_⟩
    obtain ⟨row, hrow, -⟩ := mem_visible_iff.1 hevent
    rw [hf.1.1] at hrow
    cases hrow
  step f move g h hstep := ⟨h.1.step hstep.1, (hstep.1.followed_iff h.1 h.2).2 hstep.2⟩

/-! ## Catching up -/

/-- A read that asks for something. -/
def FollowMove.asks : FollowMove → Bool
  | .read maxCount => maxCount ≠ some 0
  | _ => false

/-- A read that asks brings the reader closer to each event that it is not past. -/
theorem FollowStep.closer {move : FollowMove} (hstep : FollowStep calls f move g) {event : EventEnvelope}
    (hevent : event ∈ f.appends.visible) :
    event ∈ g.appends.visible ∧
      (event.globalSequence ≤ f.cursor → event.globalSequence ≤ g.cursor) ∧
      (event.globalSequence ≤ g.cursor ∨ f.cursor + [move].countP FollowMove.asks ≤ g.cursor) := by
  cases hstep with
  | append step => exact ⟨visible_mono step hevent, id, .inr (Int.le_of_eq (Int.add_zero _))⟩
  | read maxCount page hselects =>
    have hcursor := cursor_le_lastSeen hselects
    refine ⟨hevent, fun hle => Int.le_trans hle hcursor, ?_⟩
    by_cases hle : event.globalSequence ≤ f.cursor
    · exact .inl (Int.le_trans hle hcursor)
    · right
      show _ ≤ lastSeen f.cursor page
      by_cases hcount : maxCount = some 0
      · simp [FollowMove.asks, hcount, hcursor]
      · have hne := select_ne_nil hselects hcount hevent (by omega)
        rcases lastSeen_cases f.cursor page with ⟨hnil, -⟩ | ⟨other, hother, hlast⟩
        · exact absurd hnil hne
        · have := (mem_of_select hselects hother).2
          simp [FollowMove.asks, hcount]
          omega
  | refused => exact ⟨hevent, id, .inr (Int.le_of_eq (Int.add_zero _))⟩

/-- After as many of them as there are numbers between the two, the reader is past it. -/
theorem closer_run {moves : List FollowMove} (hrun : (followSystem calls).Run f moves g) {event : EventEnvelope}
    (hevent : event ∈ f.appends.visible) :
    event ∈ g.appends.visible ∧
      (event.globalSequence ≤ f.cursor → event.globalSequence ≤ g.cursor) ∧
      (event.globalSequence ≤ g.cursor ∨ f.cursor + moves.countP FollowMove.asks ≤ g.cursor) := by
  induction hrun with
  | nil f => exact ⟨hevent, id, .inr (Int.le_of_eq (Int.add_zero _))⟩
  | @cons f f' g move moves hstep _ ih =>
    obtain ⟨hin, hkept, hcloser⟩ := hstep.closer hevent
    obtain ⟨hin', hkept', hcloser'⟩ := ih hin
    refine ⟨hin', fun hle => hkept' (hkept hle), ?_⟩
    rcases hcloser with hpast | hcloser
    · exact .inl (hkept' hpast)
    · rcases hcloser' with hpast | hcloser'
      · exact .inl hpast
      · right
        rw [← List.singleton_append, List.countP_append]
        push_cast
        omega

/-- In a run whose transactions commit ahead of the reader, each event that is committed is returned once, and is
so after as many reads as there are numbers up to it; a step that commits behind the reader loses one. -/
theorem followed_iff_ahead (calls : Nat → Append) :
    (∀ f, ((followSystem calls).restrict Ahead).Reachable f → Followed f) ∧
    (∀ f move g, ((followSystem calls).restrict Ahead).Reachable f → (followSystem calls).step f move g →
      (Followed g ↔ Ahead f move)) ∧
    ∀ f moves g, ((followSystem calls).restrict Ahead).Reachable f → ((followSystem calls).restrict Ahead).Run f moves g →
      ∀ event ∈ f.appends.visible, event.globalSequence ≤ f.cursor + moves.countP FollowMove.asks →
        g.returned.count event = 1 := by
  refine ⟨fun f hf => (followed_inductive.reachable hf).2, fun f move g hf hstep => ?_, fun f moves g hf hrun => ?_⟩
  · obtain ⟨htold, hfollowed⟩ := followed_inductive.reachable hf
    exact FollowStep.followed_iff hstep htold hfollowed
  · intro event hevent hle
    obtain ⟨hin, -, hcloser⟩ := closer_run hrun.of_restrict hevent
    have hpast : event.globalSequence ≤ g.cursor := by omega
    have hcount := (followed_inductive.reachable (hf.run hrun)).2 event hin
    rwa [if_pos hpast] at hcount

/-! ## Two appenders that commit the other way round -/

def crossing (i : Nat) : Append where
  streamId := Fin.ofNat _ i
  expectedVersion := some 0
  events := [{ firstEvent i with streamId := Fin.ofNat _ i }]

/-- The first call has inserted its row, the second one has committed. -/
def crossed : Appends :=
  let event (i : Nat) : EventEnvelope := { firstEvent i with streamId := Fin.ofNat _ i }
  (((((((⟨[], 0, fun _ => .ready⟩ : Appends).set 0 .opened |>.set 1 .opened).set 0 (.inserting [event 0])).set 1
    (.inserting [event 1])).draw 0 (event 0) []).draw 1 (event 1) []).store 0 1 (event 0) []).store 1 2 (event 1) []
    |>.set 1 .committed

/-- The reader has seen the second event when the first one is committed. -/
def missed : Following where
  appends := crossed.set 0 .committed
  cursor := 2
  returned := crossed.visible

theorem missed_reachable : (followSystem crossing).Reachable missed := by
  have hagrees : ∀ (s : Appends) (i : Nat), s.rows = [] → ∀ expected, (crossing i).expectedVersion = some expected →
      s.currentVersion (crossing i).streamId = expected := by
    intro s i hrows expected hexpected
    cases hexpected
    unfold Appends.currentVersion Appends.visible
    rw [hrows]
    rfl
  refine ⟨⟨⟨[], 0, fun _ => .ready⟩, 0, []⟩, [.append (.begin 0), .append (.begin 1), .append (.check 0),
    .append (.check 1), .append (.draw 0), .append (.draw 1), .append (.insert 0), .append (.insert 1),
    .append (.commit 1), .read none, .append (.commit 0)], ⟨⟨rfl, rfl, fun _ => rfl⟩, rfl, rfl⟩, ?_⟩
  refine .cons (.append (.begin 0 rfl (by simp [crossing]))) ?_
  refine .cons (.append (.begin 1 rfl (by simp [crossing]))) ?_
  refine .cons (.append (.check 0 rfl (hagrees _ 0 rfl))) ?_
  refine .cons (.append (.check 1 rfl (hagrees _ 1 rfl))) ?_
  refine .cons (.append (.draw 0 _ [] rfl)) ?_
  refine .cons (.append (.draw 1 _ [] rfl)) ?_
  refine .cons (.append (.insert 0 1 _ [] rfl fun row hrow => by cases hrow)) ?_
  refine .cons (.append (.insert 1 2 _ [] rfl (by decide))) ?_
  refine .cons (.append (.commit 1 rfl)) ?_
  refine .cons (.read none crossed.visible rfl) ?_
  refine .cons (.append (.commit 0 rfl)) ?_
  exact .nil _

/-- The first event stands behind the cursor, and was not returned. -/
theorem event_missed : (followSystem crossing).Reachable missed ∧
    ∃ event ∈ missed.appends.visible, event.globalSequence ≤ missed.cursor ∧ event ∉ missed.returned :=
  ⟨missed_reachable, by decide⟩

end Atomo.Events
