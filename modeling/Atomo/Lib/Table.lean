import Mathlib.Data.List.Basic
import Mathlib.Data.List.Nodup
import Mathlib.Data.List.Count

/-!
# SQL tables as lists of rows

A table is the list of its rows and a primary key is a function of the row. `UPDATE … SET f WHERE p`
rewrites the rows that satisfy `p` in place (`Table.update`), a lookup by primary key returns the
first row with the key (`Table.find`). The lemmas say which rows an update leaves alone and what a
lookup sees after it.
-/

namespace Table

variable {ρ κ : Type*}

/-- `UPDATE … SET f WHERE p`. -/
def update (p : ρ → Bool) (f : ρ → ρ) (rows : List ρ) : List ρ :=
  rows.map fun r => if p r then f r else r

/-- The rows an `UPDATE`, `SELECT` or `DELETE` with predicate `p` affects, as `rows_affected`. -/
def affected (p : ρ → Bool) (rows : List ρ) : Nat :=
  rows.countP p

variable {p : ρ → Bool} {f : ρ → ρ} {rows : List ρ}

theorem mem_update {r : ρ} :
    r ∈ update p f rows ↔ ∃ r₀ ∈ rows, (if p r₀ then f r₀ else r₀) = r := by
  simp [update]

/-- A row of the result is a row the predicate missed or the image of a row it hit. -/
theorem mem_update_cases {r : ρ} (h : r ∈ update p f rows) :
    (r ∈ rows ∧ p r = false) ∨ ∃ r₀ ∈ rows, p r₀ = true ∧ r = f r₀ := by
  obtain ⟨r₀, h₀, rfl⟩ := mem_update.1 h
  cases hp : p r₀ with
  | false => exact .inl ⟨by simpa using h₀, by simpa using hp⟩
  | true => exact .inr ⟨r₀, h₀, hp, by simp⟩

theorem mem_update_of_not {r : ρ} (h : r ∈ rows) (hp : p r = false) : r ∈ update p f rows :=
  mem_update.2 ⟨r, h, by simp [hp]⟩

theorem mem_update_of {r : ρ} (h : r ∈ rows) (hp : p r = true) : f r ∈ update p f rows :=
  mem_update.2 ⟨r, h, by simp [hp]⟩

theorem update_of_forall_not (h : ∀ r ∈ rows, p r = false) : update p f rows = rows := by
  unfold update
  conv_rhs => rw [← List.map_id rows]
  exact List.map_congr_left fun r hr => by simp [h r hr]

theorem update_append {rows' : List ρ} : update p f (rows ++ rows') = update p f rows ++ update p f rows' :=
  List.map_append

theorem affected_eq_zero : affected p rows = 0 ↔ ∀ r ∈ rows, p r = false := by
  simp [affected, List.countP_eq_zero]

theorem affected_pos : 0 < affected p rows ↔ ∃ r ∈ rows, p r = true :=
  List.countP_pos_iff

theorem map_update {g : ρ → κ} (hg : ∀ r, g (f r) = g r) :
    (update p f rows).map g = rows.map g := by
  unfold update
  rw [List.map_map]
  refine List.map_congr_left fun r _ => ?_
  by_cases h : p r <;> simp [h, hg]

theorem eq_of_key {key : ρ → κ} (hn : (rows.map key).Nodup) {r r' : ρ} (h : r ∈ rows) (h' : r' ∈ rows)
    (he : key r = key r') : r = r' :=
  List.inj_on_of_nodup_map hn h h' he

section Key

variable [DecidableEq κ] (key : ρ → κ)

def find (k : κ) (rows : List ρ) : Option ρ :=
  rows.find? fun r => key r = k

variable {key}

theorem mem_of_find {k : κ} {r : ρ} (h : find key k rows = some r) : r ∈ rows :=
  List.mem_of_find?_eq_some h

theorem key_of_find {k : κ} {r : ρ} (h : find key k rows = some r) : key r = k := by
  simpa using List.find?_some h

end Key

end Table
