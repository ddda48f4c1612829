import Atomo.Lib.KeyedFold
import Atomo.Projectors.Projection

/-!
# Replays row by row

The events of a model make of the row of an id what those with this id make of it, whatever else lies between them
(`Rebuilt.holds`). The table is one that is made as `initialize_and_sync` makes it.
-/

namespace Atomo.Projectors

/-- The id that the data of an event name. -/
def EventLogRow.id? (row : EventLogRow) : Option String :=
  match (TableProjection.dataOf row.data).lookup "id" with
  | some (.string id) => some id
  | _ => none

def EventLogRow.key (row : EventLogRow) : String :=
  row.id?.getD ""

theorem EventLogRow.lookup_id {row : EventLogRow} (h : row.id?.isSome = true) :
    (TableProjection.dataOf row.data).lookup "id" = some (.string row.key) := by
  unfold key id? at *
  split at h
  · next hid => rw [hid]; rfl
  · cases h

namespace TableProjection

variable (server : Server) (projection : TableProjection)

/-- The table that `initialize_and_sync` creates: its columns are of type `TEXT`, its primary key is `id`. -/
def created : ProjectionTable where
  columns := projection.columns.map fun column => (column, none)
  accepts row := (row.get "id").isSome
  conflicts a b := a.get "id" = b.get "id"
  rows := []

/-- Columns that a table is created with. -/
structure WellFormed : Prop where
  nodup : projection.columns.Nodup
  id : "id" ∈ projection.columns

/-- What an event makes of the row of its id. -/
def effect (row : EventLogRow) (held : Option TextRow) : Option TextRow :=
  match statementOf server projection row.eventType (dataOf row.data) with
  | none => held
  | some (.insert values) => held.or (some (projection.created.newRow values))
  | some (.update _ sets) => held.map (ProjectionTable.setRow sets)
  | some (.delete _) => none

/-- The rows by id that events make of none. -/
def projected (log : List EventLogRow) : String → Option TextRow :=
  KeyedFold.run EventLogRow.key (effect server projection) (fun _ => none) log

/-- A table that is made for the projection and has these rows. -/
structure Holds (table : ProjectionTable) (held : String → Option TextRow) : Prop where
  shape : table.truncated = projection.created
  rows : ∀ id row, held id = some row ↔ row ∈ table.rows ∧ row.get "id" = some id
  ids : (table.rows.map (TextRow.get · "id")).Nodup
  named : ∀ row ∈ table.rows, (row.get "id").isSome = true
  columns : ∀ row ∈ table.rows, row.map Prod.fst = projection.columns

/-- The texts of a row. -/
def cells (row : TextRow) : List (Option String) :=
  projection.columns.map row.get

/-! ## Texts by column -/

variable {server projection}

theorem lookup_texts (columns : List String) (data : List (String × Json)) (column : String) :
    (texts server columns data).lookup column =
      if column ∈ columns then (data.lookup column).map (valueToText server) else none := by
  induction columns with
  | nil => rfl
  | cons first rest ih =>
    by_cases hfirst : column = first
    · subst hfirst
      cases hdata : data.lookup column with
      | none =>
        simp only [texts, List.filterMap_cons, hdata, Option.map_none]
        have hrest := ih
        unfold texts at hrest
        rw [hrest, hdata]
        simp
      | some value => simp [texts, hdata]
    · have hne : (column == first) = false := by simpa using hfirst
      unfold texts at ih ⊢
      rw [List.filterMap_cons]
      cases data.lookup first with
      | none => simp [ih, hfirst]
      | some value => simp [ih, hfirst, hne, List.lookup_cons]

theorem texts_columns (columns : List String) (data : List (String × Json)) :
    ((texts server columns data).map Prod.fst).Sublist columns := by
  induction columns with
  | nil => exact List.Sublist.refl _
  | cons first rest ih =>
    unfold texts at ih ⊢
    rw [List.filterMap_cons]
    cases data.lookup first with
    | none => exact ih.cons _
    | some value => exact ih.cons_cons _

theorem get_newRow (values : List (String × String)) (column : String) :
    (projection.created.newRow values).get column = if column ∈ projection.columns then values.lookup column else none := by
  have hrow : projection.created.newRow values = projection.columns.map fun column => (column, values.lookup column) := by
    unfold created ProjectionTable.newRow
    rw [List.map_map]
    apply List.map_congr_left
    intro other _
    simp
  unfold TextRow.get
  rw [hrow]
  split
  · next hcolumn => rw [List.lookup_graph _ hcolumn]; rfl
  · next hcolumn =>
    rw [List.lookup_eq_none_iff.2]
    · rfl
    · intro entry hentry
      obtain ⟨other, hother, rfl⟩ := List.mem_map.1 hentry
      have hne : column ≠ other := fun heq => hcolumn (heq ▸ hother)
      simpa using hne

theorem get_setRow (sets : List (String × String)) (row : TextRow) {column : String} (h : column ∈ row.map Prod.fst) :
    (ProjectionTable.setRow sets row).get column = (sets.lookup column).or (row.get column) := by
  unfold ProjectionTable.setRow TextRow.get
  induction row with
  | nil => cases h
  | cons entry rest ih =>
    obtain ⟨first, value⟩ := entry
    by_cases hfirst : column = first
    · subst hfirst
      simp
    · have hne : (column == first) = false := by simpa using hfirst
      have hrest : column ∈ rest.map Prod.fst := (List.mem_cons.1 h).resolve_left hfirst
      simpa [List.lookup_cons, hne] using ih hrest

/-! ## The statements -/

section

variable {table : ProjectionTable} {held : String → Option TextRow} {id : String}

theorem Holds.created_columns (h : projection.Holds table held) : table.columns = projection.created.columns := by
  rw [← h.shape]
  rfl

theorem Holds.columns_eq (h : projection.Holds table held) : table.columns.map Prod.fst = projection.columns := by
  rw [h.created_columns]
  unfold created
  rw [List.map_map]
  exact List.map_id _

theorem Holds.accepts (h : projection.Holds table held) (row : TextRow) : table.accepts row = (row.get "id").isSome := by
  show table.truncated.accepts row = _
  rw [h.shape]
  rfl

theorem Holds.conflicts (h : projection.Holds table held) (a b : TextRow) :
    table.conflicts a b = decide (a.get "id" = b.get "id") := by
  show table.truncated.conflicts a b = _
  rw [h.shape]
  rfl

theorem Holds.newRow (h : projection.Holds table held) (values : List (String × String)) :
    table.newRow values = projection.created.newRow values := by
  unfold ProjectionTable.newRow
  rw [h.created_columns]

theorem Holds.knows (h : projection.Holds table held) {columns : List String} (hnodup : columns.Nodup)
    (hsubset : columns ⊆ projection.columns) : table.knows columns = true := by
  unfold ProjectionTable.knows
  rw [h.columns_eq]
  simpa [hnodup] using fun column hcolumn => hsubset hcolumn

/-- Two rows of a table have ids of their own. -/
theorem Holds.eq_none (h : projection.Holds table held) : held id = none ↔ ∀ row ∈ table.rows, row.get "id" ≠ some id := by
  constructor
  · intro hnone row hrow hid
    rw [(h.rows id row).2 ⟨hrow, hid⟩] at hnone
    cases hnone
  · intro hnot
    cases hheld : held id with
    | none => rfl
    | some row =>
      obtain ⟨hrow, hid⟩ := (h.rows id row).1 hheld
      exact absurd hid (hnot row hrow)

theorem newRow_columns (values : List (String × String)) :
    (projection.created.newRow values).map Prod.fst = projection.columns := by
  unfold created ProjectionTable.newRow
  rw [List.map_map, List.map_map]
  exact List.map_id _

theorem Holds.insert (hwell : projection.WellFormed) (h : projection.Holds table held) {values : List (String × String)}
    (hknown : (values.map Prod.fst).Sublist projection.columns) (hid : values.lookup "id" = some id) :
    ∃ table', table.execute (.insert values) = some table' ∧ projection.Holds table'
      (Function.update held id ((held id).or (some (projection.created.newRow values)))) := by
  have hnew : (projection.created.newRow values).get "id" = some id := by
    rw [get_newRow, if_pos hwell.id, hid]
  have htaken : (table.knows (values.map (·.1)) && table.accepts (table.newRow values)) = true := by
    rw [h.newRow, h.accepts, hnew, h.knows (hknown.nodup hwell.nodup) hknown.subset]
    rfl
  refine ⟨_, if_pos htaken, ?_⟩
  rw [h.newRow]
  have hconflict : table.rows.any (table.conflicts (projection.created.newRow values)) = true ↔ held id ≠ none := by
    rw [List.any_eq_true, ne_eq, h.eq_none]
    push Not
    simp only [h.conflicts, hnew, decide_eq_true_eq, @eq_comm _ (some id)]
  cases hheld : held id with
  | some row =>
    rw [if_pos (hconflict.2 (by rw [hheld]; exact nofun)), Option.some_or, ← hheld, Function.update_eq_self]
    exact h
  | none =>
    rw [if_neg (fun hany => hconflict.1 hany hheld)]
    have hfree := h.eq_none.1 hheld
    refine ⟨h.shape, fun other row => ?_, ?_, ?_, ?_⟩
    · by_cases hother : other = id
      · subst hother
        rw [Function.update_self, Option.none_or, Option.some.injEq]
        constructor
        · rintro rfl
          exact ⟨List.mem_append_right _ (List.mem_singleton_self _), hnew⟩
        · rintro ⟨hrow, hrowid⟩
          rcases List.mem_append.1 hrow with hold | hnewest
          · exact absurd hrowid (hfree row hold)
          · exact (List.mem_singleton.1 hnewest).symm
      · rw [Function.update_of_ne hother, h.rows]
        constructor
        · rintro ⟨hrow, hrowid⟩
          exact ⟨List.mem_append_left _ hrow, hrowid⟩
        · rintro ⟨hrow, hrowid⟩
          rcases List.mem_append.1 hrow with hold | hnewest
          · exact ⟨hold, hrowid⟩
          · rw [List.mem_singleton.1 hnewest, hnew] at hrowid
            exact absurd (Option.some.inj hrowid).symm hother
    · rw [List.map_append, List.nodup_append]
      refine ⟨h.ids, List.nodup_singleton _, ?_⟩
      intro a ha b hb
      obtain ⟨row, hrow, rfl⟩ := List.mem_map.1 ha
      obtain ⟨row', hrow', rfl⟩ := List.mem_map.1 hb
      rw [List.mem_singleton.1 hrow', hnew]
      exact hfree row hrow
    · intro row hrow
      rcases List.mem_append.1 hrow with hold | hnewest
      · exact h.named row hold
      · rw [List.mem_singleton.1 hnewest, hnew]
        rfl
    · intro row hrow
      rcases List.mem_append.1 hrow with hold | hnewest
      · exact h.columns row hold
      · rw [List.mem_singleton.1 hnewest]
        exact newRow_columns values

theorem Holds.get_setRow_id (hwell : projection.WellFormed) (h : projection.Holds table held)
    {sets : List (String × String)} (hid : sets.lookup "id" = none) {row : TextRow} (hrow : row ∈ table.rows) :
    (ProjectionTable.setRow sets row).get "id" = row.get "id" := by
  rw [get_setRow, hid, Option.none_or]
  rw [h.columns row hrow]
  exact hwell.id

theorem setRow_columns (sets : List (String × String)) (row : TextRow) :
    (ProjectionTable.setRow sets row).map Prod.fst = row.map Prod.fst := by
  unfold ProjectionTable.setRow
  rw [List.map_map]
  rfl

theorem Holds.update (hwell : projection.WellFormed) (h : projection.Holds table held) {sets : List (String × String)}
    (hknown : (sets.map Prod.fst).Sublist projection.columns) (hid : sets.lookup "id" = none) :
    ∃ table', table.execute (.update id sets) = some table' ∧
      projection.Holds table' (Function.update held id ((held id).map (ProjectionTable.setRow sets))) := by
  have hsame : ∀ row ∈ table.rows,
      TextRow.get (if row.get "id" = some id then ProjectionTable.setRow sets row else row) "id" = row.get "id" := by
    intro row hrow
    split
    · exact h.get_setRow_id hwell hid hrow
    · rfl
  have hids : (table.rows.map fun row => if row.get "id" = some id then ProjectionTable.setRow sets row else row).map
      (TextRow.get · "id") = table.rows.map (TextRow.get · "id") := by
    rw [List.map_map]
    exact List.map_congr_left hsame
  have hpairwise : (table.rows.map fun row => if row.get "id" = some id then ProjectionTable.setRow sets row else row).Pairwise
      fun a b => table.conflicts a b = false := by
    have hnodup := h.ids
    rw [← hids, List.Nodup, List.pairwise_map] at hnodup
    refine hnodup.imp fun hne => ?_
    rw [h.conflicts]
    exact decide_eq_false hne
  have haccepted : ((table.rows.filter fun row => row.get "id" = some id).map (ProjectionTable.setRow sets)).all
      table.accepts = true := by
    rw [List.all_map, List.all_eq_true]
    intro row hrow
    obtain ⟨hin, hrowid⟩ := List.mem_filter.1 hrow
    rw [Function.comp_apply, h.accepts, h.get_setRow_id hwell hid hin, of_decide_eq_true hrowid]
    rfl
  have htaken : (table.knows (sets.map (·.1)) && table.knows ["id"] &&
      ((table.rows.filter fun row => row.get "id" = some id).map (ProjectionTable.setRow sets)).all table.accepts &&
      decide ((table.rows.map fun row => if row.get "id" = some id then ProjectionTable.setRow sets row else row).Pairwise
        fun a b => table.conflicts a b = false)) = true := by
    rw [h.knows (hknown.nodup hwell.nodup) hknown.subset,
      h.knows (List.nodup_singleton _) (List.cons_subset.2 ⟨hwell.id, List.nil_subset _⟩), haccepted, decide_eq_true hpairwise]
    rfl
  refine ⟨_, if_pos htaken, h.shape, fun other row => ?_, ?_, ?_, ?_⟩
  · by_cases hother : other = id
    · subst hother
      rw [Function.update_self, Option.map_eq_some_iff]
      constructor
      · rintro ⟨old, hold, rfl⟩
        obtain ⟨hin, holdid⟩ := (h.rows _ _).1 hold
        refine ⟨List.mem_map.2 ⟨old, hin, if_pos holdid⟩, ?_⟩
        rw [h.get_setRow_id hwell hid hin, holdid]
      · rintro ⟨hrow, hrowid⟩
        obtain ⟨old, hin, rfl⟩ := List.mem_map.1 hrow
        rw [hsame old hin] at hrowid
        exact ⟨old, (h.rows _ _).2 ⟨hin, hrowid⟩, (if_pos hrowid).symm⟩
    · rw [Function.update_of_ne hother, h.rows]
      constructor
      · rintro ⟨hrow, hrowid⟩
        refine ⟨List.mem_map.2 ⟨row, hrow, if_neg fun heq => ?_⟩, hrowid⟩
        exact hother (Option.some.inj (hrowid.symm.trans heq))
      · rintro ⟨hrow, hrowid⟩
        obtain ⟨old, hin, rfl⟩ := List.mem_map.1 hrow
        rw [hsame old hin] at hrowid
        have hnot : old.get "id" ≠ some id := fun heq => hother (Option.some.inj (hrowid.symm.trans heq))
        rw [if_neg hnot]
        exact ⟨hin, hrowid⟩
  · show (List.map _ (List.map _ table.rows)).Nodup
    rw [hids]
    exact h.ids
  · intro row hrow
    obtain ⟨old, hin, rfl⟩ := List.mem_map.1 hrow
    rw [hsame old hin]
    exact h.named old hin
  · intro row hrow
    obtain ⟨old, hin, rfl⟩ := List.mem_map.1 hrow
    rw [← h.columns old hin]
    split
    · exact setRow_columns sets old
    · rfl

theorem Holds.delete (hwell : projection.WellFormed) (h : projection.Holds table held) :
    ∃ table', table.execute (.delete id) = some table' ∧ projection.Holds table' (Function.update held id none) := by
  have hknows : table.knows ["id"] = true := h.knows (List.nodup_singleton _) (List.cons_subset.2 ⟨hwell.id, List.nil_subset _⟩)
  refine ⟨_, if_pos hknows, h.shape, fun other row => ?_, ?_, ?_, ?_⟩
  · rw [List.mem_filter]
    by_cases hother : other = id
    · subst hother
      rw [Function.update_self]
      constructor
      · exact nofun
      · rintro ⟨⟨-, hnot⟩, hid⟩
        exact absurd hid (by simpa using hnot)
    · rw [Function.update_of_ne hother, h.rows]
      constructor
      · rintro ⟨hrow, hrowid⟩
        have hne : row.get "id" ≠ some id := fun heq => hother (Option.some.inj (hrowid.symm.trans heq))
        exact ⟨⟨hrow, by simpa using hne⟩, hrowid⟩
      · rintro ⟨⟨hrow, -⟩, hrowid⟩
        exact ⟨hrow, hrowid⟩
  · exact h.ids.sublist (List.filter_sublist.map _)
  · intro row hrow
    exact h.named row (List.mem_of_mem_filter hrow)
  · intro row hrow
    exact h.columns row (List.mem_of_mem_filter hrow)

/-- The statement that an event makes, with the rows that it leaves. -/
theorem statementOf_holds (hwell : projection.WellFormed) (h : projection.Holds table held) {row : EventLogRow}
    (hnamed : row.id?.isSome = true) {made : TableStatement}
    (hmade : statementOf server projection row.eventType (dataOf row.data) = some made) :
    ∃ table', table.execute made = some table' ∧
      projection.Holds table' (Function.update held row.key (effect server projection row (held row.key))) := by
  have hid := EventLogRow.lookup_id hnamed
  unfold effect
  rw [hmade]
  unfold statementOf at hmade
  rw [hid] at hmade
  dsimp only at hmade
  split at hmade
  · split at hmade
    · cases hmade
    · cases hmade
      refine h.insert hwell (texts_columns _ _) ?_
      rw [lookup_texts, if_pos hwell.id, hid]
      rfl
  · split at hmade
    · split at hmade
      · cases hmade
      · cases hmade
        refine h.update hwell ((texts_columns _ _).trans List.filter_sublist) ?_
        rw [lookup_texts, if_neg (by simp)]
    · split at hmade
      · cases hmade
        exact h.delete hwell
      · cases hmade

/-- The events of a replay are all taken, and make of the rows by id what they make of them. -/
theorem replayed_holds (server : Server) (hwell : projection.WellFormed) {rows : List EventLogRow}
    (hnamed : ∀ row ∈ rows, row.id?.isSome = true) (h : projection.Holds table held) :
    ∃ table', projection.replayed server rows table = some table' ∧
      projection.Holds table' (KeyedFold.run EventLogRow.key (effect server projection) held rows) := by
  induction rows generalizing table held with
  | nil => exact ⟨table, rfl, h⟩
  | cons row rest ih =>
    have hrest : ∀ other ∈ rest, other.id?.isSome = true := fun other hother =>
      hnamed other (List.mem_cons_of_mem row hother)
    cases hmade : statementOf server projection row.eventType (dataOf row.data) with
    | none =>
      have hsame : effect server projection row (held row.key) = held row.key := by
        unfold effect
        rw [hmade]
      obtain ⟨table', hreplayed, hholds⟩ := ih hrest h
      refine ⟨table', ?_, ?_⟩
      · unfold replayed
        rw [hmade]
        exact hreplayed
      · show projection.Holds table' (KeyedFold.run _ _ (Function.update held row.key _) rest)
        rw [hsame, Function.update_eq_self]
        exact hholds
    | some made =>
      obtain ⟨next, hnext, hheld⟩ := statementOf_holds hwell h (hnamed row List.mem_cons_self) hmade
      obtain ⟨table', hreplayed, hholds⟩ := ih hrest hheld
      refine ⟨table', ?_, hholds⟩
      unfold replayed
      rw [hmade]
      dsimp only
      rw [hnext]
      exact hreplayed

end

/-! ## The events of a row -/

section

variable {row : EventLogRow} {held : Option TextRow}

theorem effect_inserted (hwell : projection.WellFormed) (htype : row.eventType = "Created" ∨ row.eventType = "Restored")
    (hnamed : row.id?.isSome = true) :
    effect server projection row held =
      held.or (some (projection.created.newRow (texts server projection.columns (dataOf row.data)))) := by
  have hid : (texts server projection.columns (dataOf row.data)).lookup "id" = some row.key := by
    rw [lookup_texts, if_pos hwell.id, EventLogRow.lookup_id hnamed]
    rfl
  unfold effect statementOf
  rw [if_pos htype]
  cases htexts : texts server projection.columns (dataOf row.data) with
  | nil =>
    rw [htexts] at hid
    cases hid
  | cons first rest => rfl

theorem setRow_nil (row : TextRow) : ProjectionTable.setRow [] row = row := by
  unfold ProjectionTable.setRow
  exact List.map_id _

theorem effect_updated (htype : row.eventType = "Updated") (hnamed : row.id?.isSome = true) :
    effect server projection row held =
      held.map (ProjectionTable.setRow (texts server (projection.columns.filter (· ≠ "id")) (dataOf row.data))) := by
  unfold effect statementOf
  rw [htype, EventLogRow.lookup_id hnamed]
  cases htexts : texts server (projection.columns.filter (· ≠ "id")) (dataOf row.data) with
  | nil =>
    have hsame : ProjectionTable.setRow [] = id := funext setRow_nil
    rw [hsame, Option.map_id]
    rfl
  | cons first rest => rfl

theorem effect_deleted (htype : row.eventType = "Deleted" ∨ row.eventType = "HardDeleted") (hnamed : row.id?.isSome = true) :
    effect server projection row held = none := by
  unfold effect statementOf
  rw [EventLogRow.lookup_id hnamed]
  rcases htype with htype | htype <;> rw [htype] <;> rfl

theorem cells_newRow (data : List (String × Json)) :
    projection.cells (projection.created.newRow (texts server projection.columns data)) =
      projection.columns.map fun column => (data.lookup column).map (valueToText server) := by
  apply List.map_congr_left
  intro column hcolumn
  rw [get_newRow, if_pos hcolumn, lookup_texts, if_pos hcolumn]

theorem cells_setRow {old : TextRow} (hcolumns : old.map Prod.fst = projection.columns) (data : List (String × Json)) :
    projection.cells (ProjectionTable.setRow (texts server (projection.columns.filter (· ≠ "id")) data) old) =
      projection.columns.map fun column =>
        if column = "id" then old.get "id" else ((data.lookup column).map (valueToText server)).or (old.get column) := by
  apply List.map_congr_left
  intro column hcolumn
  rw [get_setRow _ _ (hcolumns ▸ hcolumn), lookup_texts]
  by_cases hid : column = "id"
  · subst hid
    simp
  · simp [hcolumn, hid]

end

/-! ## Rebuilds -/

theorem holds_created (projection : TableProjection) : projection.Holds projection.created fun _ => none where
  shape := rfl
  rows _ _ := ⟨nofun, fun h => absurd h.1 List.not_mem_nil⟩
  ids := List.nodup_nil
  named _ h := absurd h List.not_mem_nil
  columns _ h := absurd h List.not_mem_nil

/-- One event of a row is before another in the order of the timestamps. -/
def Before (server : Server) (a b : EventLogRow) : Prop :=
  server.textLe a.timestamp b.timestamp = true ∧ (server.textLe b.timestamp a.timestamp = true → a.createdAt ≤ b.createdAt)

/-- The timestamps of the events of a row increase with their place in the log. -/
def Increasing (server : Server) (rows : List EventLogRow) : Prop :=
  rows.Pairwise fun a b => a.key = b.key → server.textLe b.timestamp a.timestamp = false

/-- In the order of the timestamps the events make what they make in the order of the log. -/
theorem replayed_sorted (server : Server) (hwell : projection.WellFormed) {log rows : List EventLogRow}
    (hnamed : ∀ row ∈ log, row.id?.isSome = true) (hincreasing : Increasing server log) (hperm : rows.Perm log)
    (hsorted : server.Sorted rows) :
    ∃ table, projection.replayed server rows projection.created = some table ∧
      projection.Holds table (projected server projection log) := by
  obtain ⟨table, hreplayed, hholds⟩ := replayed_holds server hwell
    (fun row hrow => hnamed row (hperm.subset hrow)) projection.holds_created
  have hsame : KeyedFold.run EventLogRow.key (effect server projection) (fun _ => none) rows =
      projected server projection log := by
    refine KeyedFold.run_of_perm (Before server) hperm hsorted (hincreasing.imp ?_)
    intro a b hlater hkey hbefore
    exact Bool.false_ne_true ((hlater hkey).symm.trans hbefore.1)
  rw [hsame] at hholds
  exact ⟨table, hreplayed, hholds⟩

/-- A statement fails for a reason of the server's own. -/
def Faulty (server : Server) : Prop :=
  ∃ tick, server.fails tick = true

variable {c : Connection}

theorem statement_taken {α : Type} (run : Nat → Database → Option (α × Database)) {a : α} {database : Database}
    (h : run c.tick c.database = some (a, database)) :
    Ends (statement server run) c (fun a' c' => a' = a ∧ c'.database = database) fun _ _ => Faulty server := by
  apply Ends.of_result
  unfold statement
  by_cases hfails : server.fails c.tick = true
  · rw [if_pos hfails]
    exact ⟨c.tick, hfails⟩
  · rw [if_neg hfails, h]
    exact ⟨rfl, rfl⟩

theorem not_any_of_complete {database : Database} {model : String} (h : CompleteHistory database model)
    {coverage} (hcoverage : database.coverage = some coverage) :
    ¬(coverage model).any (fun (mode, complete) => mode ≠ "full" || !complete) = true := by
  cases hrow : coverage model with
  | none => exact Bool.false_ne_true
  | some row =>
    obtain ⟨hmode, hcomplete⟩ := h coverage hcoverage row.1 row.2 hrow
    simp [hmode, hcomplete]

theorem requireCompleteHistoryIn_taken {model : String} (h : CompleteHistory c.database model) :
    Ends (requireCompleteHistoryIn server model) c (fun _ c' => c'.database = c.database) fun _ _ => Faulty server := by
  unfold requireCompleteHistoryIn
  refine (statement_taken (fun _ database => some (database.coverage.isSome, database)) rfl).bind ?_
  rintro _ c1 ⟨rfl, hsame1⟩
  cases hcoverage : c.database.coverage with
  | none => exact Ends.pure hsame1
  | some coverage =>
    have hstate : (c1.database.coverage.map fun coverage => (coverage model, c1.database)) =
        some (coverage model, c1.database) := by
      rw [hsame1, hcoverage]
      rfl
    refine (statement_taken (fun _ database => database.coverage.map fun coverage => (coverage model, database))
      hstate).bind ?_
    rintro _ c2 ⟨rfl, hsame2⟩
    rw [if_neg (not_any_of_complete h hcoverage)]
    exact Ends.pure (hsame2.trans hsame1)

theorem onTable_taken (run : ProjectionTable → Option ProjectionTable) {table table' : ProjectionTable}
    (htable : c.database.tables (server.identifier projection.tableName) = some table) (hrun : run table = some table') :
    Ends (onTable server projection run) c
      (fun _ c' => c'.database = c.database.setTable (server.identifier projection.tableName) table')
      fun _ _ => Faulty server := by
  unfold onTable
  have htaken : (do
      let table ← c.database.tables (server.identifier projection.tableName)
      let table ← run table
      some ((), c.database.setTable (server.identifier projection.tableName) table)) =
        some ((), c.database.setTable (server.identifier projection.tableName) table') := by
    simp only [htable, hrun, Option.bind_eq_bind, Option.bind_some]
  exact (statement_taken _ htaken).mono (fun _ _ h => h.2) fun _ _ h => h

theorem replay_taken {rows : List EventLogRow} {table table' : ProjectionTable}
    (htable : c.database.tables (server.identifier projection.tableName) = some table)
    (h : projection.replayed server rows table = some table') :
    Ends (replay server projection rows) c
      (fun _ c' => c'.database = c.database.setTable (server.identifier projection.tableName) table')
      fun _ _ => Faulty server := by
  induction rows generalizing c table with
  | nil =>
    cases h
    exact Ends.pure (setTable_self htable).symm
  | cons row rest ih =>
    unfold replayed at h
    unfold replay handleEventConnection
    cases hmade : statementOf server projection row.eventType (dataOf row.data) with
    | none =>
      rw [hmade] at h
      refine (Ends.pure (Q := fun _ c' => c' = c) rfl).bind fun _ c' hc' => ?_
      subst hc'
      exact ih htable h
    | some made =>
      rw [hmade] at h
      obtain ⟨next, hnext, hrest⟩ := Option.bind_eq_some_iff.1 h
      refine (onTable_taken (·.execute made) htable hnext).bind fun _ c' hsame => ?_
      have htable' : c'.database.tables (server.identifier projection.tableName) = some next := by
        rw [hsame, setTable_tables]
      refine (ih htable' hrest).mono (fun _ c'' hsame' => ?_) fun _ _ h => h
      rw [hsame', hsame, setTable_setTable]

/-- A rebuild of a table that is made for the projection leaves in it what the events make by id, unless the server
fails a statement. -/
theorem rebuildIn_holds (hwell : projection.WellFormed) {table : ProjectionTable}
    (hcomplete : CompleteHistory c.database projection.sourceModel)
    (hnamed : ∀ row ∈ c.database.eventLog.filter (·.modelName = projection.sourceModel), row.id?.isSome = true)
    (hincreasing : Increasing server (c.database.eventLog.filter (·.modelName = projection.sourceModel)))
    (htable : c.database.tables (server.identifier projection.tableName) = some table)
    (hshape : table.truncated = projection.created) :
    Ends (projection.rebuildIn server) c
      (fun _ c' => ∃ table', c'.database = c.database.setTable (server.identifier projection.tableName) table' ∧
        projection.Holds table'
          (projected server projection (c.database.eventLog.filter (·.modelName = projection.sourceModel))))
      fun _ _ => Faulty server := by
  unfold rebuildIn
  refine (requireCompleteHistoryIn_taken hcomplete).bind fun _ c1 hsame1 => ?_
  refine (statement_taken (fun tick database => some (server.byTimestamp tick
    (database.eventLog.filter (·.modelName = projection.sourceModel)), database)) rfl).bind ?_
  rintro rows c2 ⟨rfl, hsame2⟩
  rw [hsame1] at hsame2 ⊢
  have htable2 : c2.database.tables (server.identifier projection.tableName) = some table := by
    rw [hsame2]
    exact htable
  refine (onTable_taken (some ·.truncated) htable2 rfl).bind fun _ c3 hsame3 => ?_
  obtain ⟨table', hreplayed, hholds⟩ := replayed_sorted server hwell hnamed hincreasing
    (server.byTimestamp_perm c1.tick _) (server.byTimestamp_sorted c1.tick _)
  have htable3 : c3.database.tables (server.identifier projection.tableName) = some projection.created := by
    rw [hsame3, setTable_tables, hshape]
  refine (replay_taken htable3 hreplayed).mono (fun _ c4 hsame4 => ⟨table', ?_, hholds⟩) fun _ _ h => h
  rw [hsame4, hsame3, setTable_setTable, hsame2]

end TableProjection

end Atomo.Projectors
