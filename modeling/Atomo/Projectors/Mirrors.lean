import Atomo.Projectors.Base
import Atomo.Projectors.Replay

/-!
# Live rows and what is held of them

A projection mirrors the live rows of a table when it holds the texts of each of them, by id, and nothing else. What a
write must do to the rows, and to what is held, for this to last.
-/

namespace Atomo.Projectors

open Client (Env)
open Db (Row Table SqlValue)

/-! ## The live rows and their projection -/

section

variable (env : Env) (server : Server) (projection : TableProjection)

/-- The texts of a base row, NULL being the empty one. -/
def render (row : Row) : List (Option String) :=
  projection.columns.map fun column => some (valueToText server (Db.decode env.pg (row.get column)))

/-- What is held by id are the live ones of some rows. -/
structure Mirrors (held : String → Option TextRow) (rows : List Row) : Prop where
  shown : ∀ row ∈ rows, isLive row = true → (held (idOf row)).map projection.cells = some (render env server projection row)
  only : ∀ id text, held id = some text → ∃ row ∈ rows, isLive row = true ∧ idOf row = id

variable {env server projection} {held held' : String → Option TextRow} {rows new : List Row}

theorem Mirrors.exists (h : Mirrors env server projection held rows) {row : Row} (hrow : row ∈ rows)
    (hlive : isLive row = true) : ∃ text, held (idOf row) = some text ∧
      projection.cells text = render env server projection row :=
  Option.map_eq_some_iff.1 (h.shown row hrow hlive)

/-- Rows are added, and shown. -/
theorem mirrors_append (hids : ((rows ++ new).map idOf).Nodup) (h : Mirrors env server projection held rows)
    (hnew : ∀ row ∈ new, held (idOf row) = none →
      (held' (idOf row)).map projection.cells = some (render env server projection row))
    (hother : ∀ id, id ∉ new.map idOf → held' id = held id) :
    Mirrors env server projection held' (rows ++ new) ↔ ∀ row ∈ new, isLive row = true := by
  have hapart : ∀ row ∈ rows, idOf row ∉ new.map idOf := by
    intro row hrow hmem
    rw [List.map_append, List.nodup_append] at hids
    exact hids.2.2 _ (List.mem_map_of_mem hrow) _ hmem rfl
  have hshown : ∀ row ∈ new, (held' (idOf row)).map projection.cells = some (render env server projection row) := by
    intro row hrow
    apply hnew row hrow
    cases hheld : held (idOf row) with
    | none => rfl
    | some text =>
      obtain ⟨old, hold, -, hid⟩ := h.only _ _ hheld
      exact absurd (hid ▸ List.mem_map_of_mem hrow) (hapart old hold)
  constructor
  · intro h' row hrow
    obtain ⟨text, htext, -⟩ := Option.map_eq_some_iff.1 (hshown row hrow)
    obtain ⟨row', hrow', hlive, hid⟩ := h'.only _ _ htext
    rw [← List.inj_on_of_nodup_map hids hrow' (List.mem_append_right rows hrow) hid]
    exact hlive
  · intro hlive
    refine ⟨fun row hrow hrowLive => ?_, fun id text htext => ?_⟩
    · rcases List.mem_append.1 hrow with hold | hadded
      · rw [hother _ (hapart row hold)]
        exact h.shown row hold hrowLive
      · exact hshown row hadded
    · by_cases hid : id ∈ new.map idOf
      · obtain ⟨row, hrow, rfl⟩ := List.mem_map.1 hid
        exact ⟨row, List.mem_append_right rows hrow, hlive row hrow, rfl⟩
      · rw [hother id hid] at htext
        obtain ⟨row, hrow, hlive, hid⟩ := h.only id text htext
        exact ⟨row, List.mem_append_left new hrow, hlive, hid⟩

/-- Rows are removed, and no longer held. -/
theorem mirrors_filter {selected : Row → Bool} (hids : (rows.map idOf).Nodup) (h : Mirrors env server projection held rows)
    (hremoved : ∀ row ∈ rows, selected row = true → held' (idOf row) = none)
    (hother : ∀ id, id ∉ (rows.filter selected).map idOf → held' id = held id) :
    Mirrors env server projection held' (rows.filter fun row => !selected row) := by
  refine ⟨fun row hrow hlive => ?_, fun id text htext => ?_⟩
  · obtain ⟨hin, hnot⟩ := List.mem_filter.1 hrow
    rw [hother]
    · exact h.shown row hin hlive
    · intro hmem
      obtain ⟨other, hother, hid⟩ := List.mem_map.1 hmem
      obtain ⟨hotherIn, hselected⟩ := List.mem_filter.1 hother
      rw [List.inj_on_of_nodup_map hids hotherIn hin hid] at hselected
      rw [hselected] at hnot
      cases hnot
  · by_cases hid : id ∈ (rows.filter selected).map idOf
    · obtain ⟨row, hrow, rfl⟩ := List.mem_map.1 hid
      obtain ⟨hin, hselected⟩ := List.mem_filter.1 hrow
      rw [hremoved row hin hselected] at htext
      cases htext
    · rw [hother id hid] at htext
      obtain ⟨row, hrow, hlive, hrowid⟩ := h.only id text htext
      have hnot : selected row = false := by
        rw [← Bool.not_eq_true]
        intro hselected
        exact hid (List.mem_map.2 ⟨row, List.mem_filter.2 ⟨hrow, hselected⟩, hrowid⟩)
      refine ⟨row, List.mem_filter.2 ⟨hrow, ?_⟩, hlive, hrowid⟩
      rw [hnot]
      rfl

/-! ## Rows that are set -/

/-- The selected rows are set. -/
def setRows (selected : Row → Bool) (f : Row → Row) (rows : List Row) : List Row :=
  rows.map fun row => if selected row then f row else row

variable {selected : Row → Bool} {f : Row → Row}

theorem mem_setRows (row : Row) (hrow : row ∈ rows) (hselected : selected row = true) : f row ∈ setRows selected f rows :=
  List.mem_map.2 ⟨row, hrow, if_pos hselected⟩

/-- One row with an id comes of one row. -/
theorem eq_of_set (hset : ((setRows selected f rows).map idOf).Nodup) {row row' : Row} (hrow : row ∈ rows)
    (hrow' : row' ∈ rows) (hid : idOf (if selected row then f row else row) = idOf (if selected row' then f row' else row')) :
    row = row' := by
  unfold setRows at hset
  rw [List.map_map] at hset
  exact List.inj_on_of_nodup_map hset hrow hrow' hid

/-- The setting gives all rows one id, or leaves each its own. -/
def SetsId (f : Row → Row) (rows : List Row) : Prop :=
  (∃ id, ∀ row ∈ rows, idOf (f row) = id) ∨ ∀ row ∈ rows, idOf (f row) = idOf row

theorem eq_of_taken (hids : (rows.map idOf).Nodup) (hset : ((setRows selected f rows).map idOf).Nodup)
    (hsetsId : SetsId f rows) {row other : Row} (hrow : row ∈ rows) (hselected : selected row = true) (hother : other ∈ rows)
    (hid : idOf other = idOf (f row)) : other = row := by
  by_cases hothers : selected other = true
  · rcases hsetsId with ⟨id, hconst⟩ | hsame
    · apply eq_of_set hset hother hrow
      rw [if_pos hothers, if_pos hselected, hconst other hother, hconst row hrow]
    · rw [hsame row hrow] at hid
      exact List.inj_on_of_nodup_map hids hother hrow hid
  · apply eq_of_set hset hother hrow
    rw [if_neg hothers, if_pos hselected]
    exact hid

theorem eq_of_left (hids : (rows.map idOf).Nodup) (hset : ((setRows selected f rows).map idOf).Nodup)
    (hsetsId : SetsId f rows) {row other : Row} (hrow : row ∈ rows) (hselected : selected row = true) (hother : other ∈ rows)
    (hid : idOf (if selected other then f other else other) = idOf row) : other = row := by
  by_cases hothers : selected other = true
  · rw [if_pos hothers] at hid
    rcases hsetsId with ⟨id, hconst⟩ | hsame
    · apply eq_of_set hset hother hrow
      rw [if_pos hothers, if_pos hselected, hconst other hother, hconst row hrow]
    · rw [hsame other hother] at hid
      exact List.inj_on_of_nodup_map hids hother hrow hid
  · rw [if_neg hothers] at hid
    exact List.inj_on_of_nodup_map hids hother hrow hid

theorem not_mem_changed (hset : ((setRows selected f rows).map idOf).Nodup) {row : Row} (hrow : row ∈ rows)
    (hselected : ¬selected row = true) : idOf row ∉ ((rows.filter selected).map f).map idOf := by
  intro hmem
  obtain ⟨changed, hchanged, hid⟩ := List.mem_map.1 hmem
  obtain ⟨other, hother, rfl⟩ := List.mem_map.1 hchanged
  obtain ⟨hin, hothers⟩ := List.mem_filter.1 hother
  have heq : other = row := by
    apply eq_of_set hset hin hrow
    rw [if_pos hothers, if_neg hselected]
    exact hid
  exact hselected (heq ▸ hothers)

/-- Rows are updated: what is held of a row is replaced, and held of no row that was not. -/
theorem mirrors_update (hids : (rows.map idOf).Nodup) (hset : ((setRows selected f rows).map idOf).Nodup)
    (hsetsId : SetsId f rows) (h : Mirrors env server projection held rows)
    (hnone : ∀ row ∈ rows, selected row = true → held (idOf (f row)) = none → held' (idOf (f row)) = none)
    (hsome : ∀ row ∈ rows, selected row = true → (held (idOf (f row))).isSome = true →
      (held' (idOf (f row))).map projection.cells = some (render env server projection (f row)))
    (hother : ∀ id, id ∉ ((rows.filter selected).map f).map idOf → held' id = held id) :
    Mirrors env server projection held' (setRows selected f rows) ↔
      ∀ row ∈ rows, selected row = true →
        isLive (f row) = isLive row ∧ (isLive row = true → idOf (f row) = idOf row) := by
  have hkept : ∀ id, (held' id).isSome = (held id).isSome := by
    intro id
    by_cases hid : id ∈ ((rows.filter selected).map f).map idOf
    · obtain ⟨changed, hchanged, rfl⟩ := List.mem_map.1 hid
      obtain ⟨row, hrow, rfl⟩ := List.mem_map.1 hchanged
      obtain ⟨hin, hselected⟩ := List.mem_filter.1 hrow
      cases hheld : held (idOf (f row)) with
      | none => rw [hnone row hin hselected hheld]
      | some text =>
        have hshown := hsome row hin hselected (by rw [hheld]; rfl)
        obtain ⟨text', htext', -⟩ := Option.map_eq_some_iff.1 hshown
        rw [htext']
        rfl
    · rw [hother id hid]
  constructor
  · intro h' row hrow hselected
    have hold : isLive (f row) = true → isLive row = true := by
      intro hlive
      obtain ⟨text, htext, -⟩ := h'.exists (mem_setRows row hrow hselected) hlive
      have hheld : (held (idOf (f row))).isSome = true := by
        rw [← hkept, htext]
        rfl
      obtain ⟨text', htext'⟩ := Option.isSome_iff_exists.1 hheld
      obtain ⟨other, hin, hotherLive, hid⟩ := h.only _ _ htext'
      rw [← eq_of_taken hids hset hsetsId hrow hselected hin hid]
      exact hotherLive
    have hnew : isLive row = true → isLive (f row) = true ∧ idOf (f row) = idOf row := by
      intro hlive
      obtain ⟨text, htext, -⟩ := h.exists hrow hlive
      have hheld : (held' (idOf row)).isSome = true := by
        rw [hkept, htext]
        rfl
      obtain ⟨text', htext'⟩ := Option.isSome_iff_exists.1 hheld
      obtain ⟨changed, hchanged, hchangedLive, hid⟩ := h'.only _ _ htext'
      obtain ⟨other, hin, rfl⟩ := List.mem_map.1 hchanged
      have heq := eq_of_left hids hset hsetsId hrow hselected hin hid
      subst heq
      rw [if_pos hselected] at hchangedLive hid
      exact ⟨hchangedLive, hid⟩
    exact ⟨Bool.eq_iff_iff.2 ⟨hold, fun hlive => (hnew hlive).1⟩, fun hlive => (hnew hlive).2⟩
  · intro hplain
    refine ⟨fun changed hchanged hlive => ?_, fun id text htext => ?_⟩
    · obtain ⟨row, hrow, rfl⟩ := List.mem_map.1 hchanged
      by_cases hselected : selected row = true
      · rw [if_pos hselected] at hlive ⊢
        obtain ⟨hsame, hid⟩ := hplain row hrow hselected
        rw [hsame] at hlive
        apply hsome row hrow hselected
        obtain ⟨text, htext, -⟩ := h.exists hrow hlive
        rw [hid hlive, htext]
        rfl
      · rw [if_neg hselected] at hlive ⊢
        rw [hother _ (not_mem_changed hset hrow hselected)]
        exact h.shown row hrow hlive
    · have hheld : (held id).isSome = true := by
        rw [← hkept, htext]
        rfl
      obtain ⟨text', htext'⟩ := Option.isSome_iff_exists.1 hheld
      obtain ⟨row, hrow, hlive, hid⟩ := h.only id text' htext'
      refine ⟨_, List.mem_map_of_mem hrow, ?_⟩
      by_cases hselected : selected row = true
      · obtain ⟨hsame, hkeeps⟩ := hplain row hrow hselected
        rw [if_pos hselected, hsame]
        exact ⟨hlive, (hkeeps hlive).trans hid⟩
      · rw [if_neg hselected]
        exact ⟨hlive, hid⟩

/-- Rows are deleted, and no longer held. -/
theorem mirrors_delete (hset : ((setRows selected f rows).map idOf).Nodup)
    (hdead : ∀ row ∈ rows, selected row = true → isLive (f row) = false ∧ idOf (f row) = idOf row)
    (h : Mirrors env server projection held rows)
    (hremoved : ∀ row ∈ rows, selected row = true → held' (idOf (f row)) = none)
    (hother : ∀ id, id ∉ ((rows.filter selected).map f).map idOf → held' id = held id) :
    Mirrors env server projection held' (setRows selected f rows) := by
  refine ⟨fun changed hchanged hlive => ?_, fun id text htext => ?_⟩
  · obtain ⟨row, hrow, rfl⟩ := List.mem_map.1 hchanged
    by_cases hselected : selected row = true
    · rw [if_pos hselected, (hdead row hrow hselected).1] at hlive
      cases hlive
    · rw [if_neg hselected] at hlive ⊢
      rw [hother _ (not_mem_changed hset hrow hselected)]
      exact h.shown row hrow hlive
  · by_cases hid : id ∈ ((rows.filter selected).map f).map idOf
    · obtain ⟨changed, hchanged, rfl⟩ := List.mem_map.1 hid
      obtain ⟨row, hrow, rfl⟩ := List.mem_map.1 hchanged
      obtain ⟨hin, hselected⟩ := List.mem_filter.1 hrow
      rw [hremoved row hin hselected] at htext
      cases htext
    · rw [hother id hid] at htext
      obtain ⟨row, hrow, hlive, hrowid⟩ := h.only id text htext
      have hnot : ¬selected row = true := by
        intro hselected
        refine hid (List.mem_map.2 ⟨f row, List.mem_map_of_mem (List.mem_filter.2 ⟨hrow, hselected⟩), ?_⟩)
        rw [(hdead row hrow hselected).2, hrowid]
      refine ⟨row, List.mem_map.2 ⟨row, hrow, if_neg hnot⟩, hlive, hrowid⟩

/-- Rows are restored: what is held of a row stays, and a row that was not held is held with its id alone. -/
theorem mirrors_restore (hids : (rows.map idOf).Nodup) (hset : ((setRows selected f rows).map idOf).Nodup)
    (halive : ∀ row ∈ rows, selected row = true → isLive (f row) = true ∧ idOf (f row) = idOf row)
    (hsame : ∀ row ∈ rows, isLive row = true → render env server projection (f row) = render env server projection row)
    (hid : ∀ row ∈ rows, (render env server projection (f row) = projection.columns.map fun column =>
      if column = "id" then some (idOf (f row)) else none) ↔ ∀ column ∈ projection.columns, column = "id")
    (h : Mirrors env server projection held rows)
    (hkept : ∀ row ∈ rows, selected row = true → ∀ text, held (idOf (f row)) = some text → held' (idOf (f row)) = some text)
    (hnew : ∀ row ∈ rows, selected row = true → held (idOf (f row)) = none →
      (held' (idOf (f row))).map projection.cells = some (projection.columns.map fun column =>
        if column = "id" then some (idOf (f row)) else none))
    (hother : ∀ id, id ∉ ((rows.filter selected).map f).map idOf → held' id = held id) :
    Mirrors env server projection held' (setRows selected f rows) ↔
      ∀ row ∈ rows, selected row = true → isLive row = true ∨ ∀ column ∈ projection.columns, column = "id" := by
  have hfree : ∀ row ∈ rows, selected row = true → isLive row = false → held (idOf (f row)) = none := by
    intro row hrow hselected hdead
    cases hheld : held (idOf (f row)) with
    | none => rfl
    | some text =>
      obtain ⟨other, hin, hlive, hotherid⟩ := h.only _ _ hheld
      rw [(halive row hrow hselected).2] at hotherid
      rw [List.inj_on_of_nodup_map hids hin hrow hotherid, hdead] at hlive
      cases hlive
  constructor
  · intro h' row hrow hselected
    cases hlive : isLive row with
    | true => exact .inl rfl
    | false =>
      right
      have hshown := h'.shown _ (mem_setRows row hrow hselected) (halive row hrow hselected).1
      rw [hnew row hrow hselected (hfree row hrow hselected hlive)] at hshown
      exact (hid row hrow).1 (Option.some.inj hshown).symm
  · intro hplain
    refine ⟨fun changed hchanged hlive => ?_, fun id text htext => ?_⟩
    · obtain ⟨row, hrow, rfl⟩ := List.mem_map.1 hchanged
      by_cases hselected : selected row = true
      · rw [if_pos hselected]
        cases hwas : isLive row with
        | true =>
          obtain ⟨text, htext, hcells⟩ := h.exists hrow hwas
          rw [← (halive row hrow hselected).2] at htext
          rw [hkept row hrow hselected text htext, hsame row hrow hwas, ← hcells]
          rfl
        | false =>
          rw [hnew row hrow hselected (hfree row hrow hselected hwas)]
          have hall := (hplain row hrow hselected).resolve_left (by rw [hwas]; exact Bool.false_ne_true)
          rw [(hid row hrow).2 hall]
      · rw [if_neg hselected] at hlive ⊢
        rw [hother _ (not_mem_changed hset hrow hselected)]
        exact h.shown row hrow hlive
    · by_cases hmem : id ∈ ((rows.filter selected).map f).map idOf
      · obtain ⟨changed, hchanged, rfl⟩ := List.mem_map.1 hmem
        obtain ⟨row, hrow, rfl⟩ := List.mem_map.1 hchanged
        obtain ⟨hin, hselected⟩ := List.mem_filter.1 hrow
        exact ⟨f row, mem_setRows row hin hselected, (halive row hin hselected).1, rfl⟩
      · rw [hother id hmem] at htext
        obtain ⟨row, hrow, hlive, hrowid⟩ := h.only id text htext
        refine ⟨_, List.mem_map_of_mem hrow, ?_⟩
        by_cases hselected : selected row = true
        · obtain ⟨hnow, hkeeps⟩ := halive row hrow hselected
          rw [if_pos hselected]
          exact ⟨hnow, hkeeps.trans hrowid⟩
        · rw [if_neg hselected]
          exact ⟨hlive, hrowid⟩

end

end Atomo.Projectors
