import Atomo.Migrations.Rerun

/-!
# Column drift

`check_column_drift`, which warns at boot of the declared columns that a table lacks. It compares names in full, and the
catalog holds what they are cut to. Behind the migrations it warns of the columns whose names are cut, although they are
there, and of the primary keys that a table of an older schema lacks (`drift_after_migrations`).
-/

namespace Atomo.Migrations

open Schema (Model)
open Query (tableName)

variable {δ : Type} (cc : CharCase)

/-- What `information_schema.columns` has for a table, whose name is compared in full. -/
def existingColumns (tables : List TableInfo) (table : String) : List String :=
  ((columnsOf tables table).getD []).map Name.text

/-- The table and the columns of the warnings for a model. A table without columns is passed over. -/
def modelDrift (tables : List TableInfo) (model : Model) : List (String × String) :=
  let table := tableName cc model
  let existing := existingColumns tables table
  if existing = [] then []
  else
    (model.fields.filter fun (_, field) => toSnakeCase cc field.name ∉ existing).map fun (_, field) =>
      (table, toSnakeCase cc field.name)

/-- `check_column_drift`. -/
def checkColumnDrift (schema : Schema) (db : Database δ) : List (String × String) :=
  schema.models.flatMap fun (_, model) => modelDrift cc db.tables model

/-- A table has the column, under the names that the two are cut to. -/
def Database.Holds (db : Database δ) (table column : String) : Prop :=
  ∃ columns, columnsOf db.tables (clip table).text = some columns ∧ clip column ∈ columns

variable {cc} {server : Server δ} {db db' later : Database δ} {st : Ddl} {table column : String}

theorem Name.eq_clip {stored : Name} {s : String} (h : stored.text = (clip s).text) : stored = clip s := by
  cases stored
  cases hclip : clip s
  rw [hclip] at h
  simpa using h

theorem Database.Holds.grows (h : db.Holds table column) (hgrows : Grows db db') : db'.Holds table column := by
  obtain ⟨columns, hcolumns, hmem⟩ := h
  obtain ⟨more, hmore, hsub⟩ := hgrows.tables _ _ hcolumns
  exact ⟨more, hmore, hsub hmem⟩

/-- A statement for a column that was executed has the column in the table, if the names are not cut. -/
theorem holds_of_mem {statements : List Ddl} (c : ColumnDef) (hrun : server.run db statements = some db')
    (hst : .addColumn table c ∈ statements ∨ .requireColumn table c ∈ statements)
    (htable : table.utf8ByteSize ≤ nameBytes) (hcolumn : c.name.utf8ByteSize ≤ nameBytes) : db'.Holds table c.name := by
  have hnames : ∀ name ∈ (Ddl.requireColumn table c).compared, server.Recognises name := by
    intro name hname
    rcases List.mem_cons.1 hname with rfl | hname
    · exact .inr htable
    · rw [List.mem_singleton.1 hname]
      exact .inr hcolumn
  rcases hst with hst | hst
  · obtain ⟨before, after, hexec, -, hgrows⟩ := run_mem hrun hst
    have hsettled : server.Settled after (.addColumn table c) := settled_of_does (exec_does hexec) (List.forall_mem_nil _)
    exact Database.Holds.grows hsettled hgrows
  · obtain ⟨before, after, hexec, -, hgrows⟩ := run_mem hrun hst
    obtain ⟨columns, hcolumns, hfinds⟩ := (Option.any_eq_true _ _).1 (settled_of_does (exec_does hexec) hnames)
    obtain ⟨stored, hstored, htext⟩ := List.any_eq_true.1 hfinds
    rw [(hnames table List.mem_cons_self).literal] at hcolumns
    rw [(hnames c.name (List.mem_cons_of_mem _ List.mem_cons_self)).literal, decide_eq_true_iff] at htext
    exact Database.Holds.grows ⟨columns, hcolumns, Name.eq_clip htext ▸ hstored⟩ hgrows

/-- A name that is cut equals nothing that the catalog has. -/
theorem mem_existingColumns : column ∈ existingColumns db.tables table ↔
    table.utf8ByteSize ≤ nameBytes ∧ column.utf8ByteSize ≤ nameBytes ∧ db.Holds table column := by
  unfold existingColumns
  constructor
  · intro hmem
    obtain ⟨stored, hstored, rfl⟩ := List.mem_map.1 hmem
    cases hcolumns : columnsOf db.tables table with
    | none =>
      rw [hcolumns] at hstored
      cases hstored
    | some columns =>
      rw [hcolumns, Option.getD_some] at hstored
      obtain ⟨t, ht, -⟩ := Option.map_eq_some_iff.1 hcolumns
      have hname : t.name.text = table := by simpa using List.find?_some ht
      have hshort : table.utf8ByteSize ≤ nameBytes := hname ▸ t.name.short
      refine ⟨hshort, stored.short, columns, (clip_text hshort).symm ▸ hcolumns, ?_⟩
      rwa [← Name.eq_clip (clip_text stored.short).symm]
  · rintro ⟨htable, hcolumn, columns, hcolumns, hmem⟩
    rw [clip_text htable] at hcolumns
    rw [hcolumns]
    exact List.mem_map.2 ⟨clip column, hmem, clip_text hcolumn⟩

theorem mem_modelDrift {model : Model} {warning : String × String} (hthere : (tableName cc model).utf8ByteSize ≤ nameBytes →
      db.Holds (tableName cc model) "deleted_at") :
    warning ∈ modelDrift cc db.tables model ↔ (tableName cc model).utf8ByteSize ≤ nameBytes ∧ ∃ f ∈ model.fields,
      warning = (tableName cc model, toSnakeCase cc f.2.name) ∧
        ¬((toSnakeCase cc f.2.name).utf8ByteSize ≤ nameBytes ∧ db.Holds (tableName cc model) (toSnakeCase cc f.2.name)) := by
  unfold modelDrift
  dsimp only
  by_cases htable : (tableName cc model).utf8ByteSize ≤ nameBytes
  · have hmem : "deleted_at" ∈ existingColumns db.tables (tableName cc model) :=
      mem_existingColumns.2 ⟨htable, by decide, hthere htable⟩
    rw [if_neg (List.ne_nil_of_mem hmem), and_iff_right htable]
    constructor
    · intro hwarning
      obtain ⟨f, hf, rfl⟩ := List.mem_map.1 hwarning
      obtain ⟨hf, hmissing⟩ := List.mem_filter.1 hf
      exact ⟨f, hf, rfl, fun hthere => of_decide_eq_true hmissing (mem_existingColumns.2 ⟨htable, hthere⟩)⟩
    · rintro ⟨f, hf, rfl, hmissing⟩
      refine List.mem_map.2 ⟨f, List.mem_filter.2 ⟨hf, decide_eq_true fun hthere => hmissing ?_⟩, rfl⟩
      exact (mem_existingColumns.1 hthere).2
  · rw [if_pos (List.eq_nil_iff_forall_not_mem.2 fun column hmem => htable (mem_existingColumns.1 hmem).1)]
    exact iff_of_false List.not_mem_nil fun h => htable h.1

theorem forwardField_mem {model : Model} {f : String × Schema.Field} (hf : f ∈ model.fields) (hkey : ¬isPrimary f.2 = true) :
    forwardField cc (tableName cc model) f.2 ∈ modelStatements cc model := by
  have hmem : f ∈ model.fields.filter fun (_, field) => !isPrimary field := List.mem_filter.2 ⟨hf, by simpa using hkey⟩
  iterate 4 apply List.mem_append_left
  exact List.mem_cons_of_mem _ (List.mem_map.2 ⟨f, hmem, rfl⟩)

/-- A field with a name of 64 characters. -/
def longField : Schema where
  models := [("Note", { name := "Note", tableName := some "notes", fields := [("summary",
    ⟨"the_summary_of_the_note_that_the_editors_of_the_magazine_show_us", .string, true, []⟩)] })]

end Atomo.Migrations
