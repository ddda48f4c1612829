import Atomo.Lib.Pattern
import Mathlib.Data.List.TakeWhile

/-!
# Patterns on composed texts

What a pattern reads of a text that is put together from parts. `Reads` follows the pieces along the parts;
`find_append` skips a part in which no match begins, and `findAll_append` cuts the matches at a border that
none of them crosses.
-/

namespace Pattern

variable {α : Type*} [DecidableEq α] {items : List (Item α)} {u v w r l : List α} {m : Match α}

/-! ## Pieces -/

theorem take_lit (w r : List α) : (Piece.lit w).take (w ++ r) = some (w, r) := by
  simp [Piece.take]

omit [DecidableEq α] in
theorem takeWhile_append_head {p : α → Bool} (hw : ∀ a ∈ w, p a = true) (hr : ∀ a ∈ r.head?, p a = false) :
    (w ++ r).takeWhile p = w ∧ (w ++ r).dropWhile p = r := by
  rw [List.takeWhile_append_of_pos hw, List.dropWhile_append_of_pos hw]
  cases r with
  | nil => exact ⟨List.append_nil w, rfl⟩
  | cons a r =>
    have ha : ¬p a = true := by simp [hr a rfl]
    rw [List.takeWhile_cons_of_neg ha, List.dropWhile_cons_of_neg ha, List.append_nil]
    exact ⟨rfl, rfl⟩

omit [DecidableEq α] in
/-- A text splits in one way only before the first element without a property. -/
theorem append_head_inj {p : α → Bool} {w' r' : List α} (hw : ∀ a ∈ w, p a = true) (hr : ∀ a ∈ r.head?, p a = false)
    (hw' : ∀ a ∈ w', p a = true) (hr' : ∀ a ∈ r'.head?, p a = false) (h : w ++ r = w' ++ r') : w = w' ∧ r = r' := by
  obtain ⟨htake, hdrop⟩ := takeWhile_append_head hw hr
  obtain ⟨htake', hdrop'⟩ := takeWhile_append_head hw' hr'
  rw [h] at htake hdrop
  exact ⟨htake.symm.trans htake', hdrop.symm.trans hdrop'⟩

theorem take_many {p : α → Bool} (hw : ∀ a ∈ w, p a = true) (hr : ∀ a ∈ r.head?, p a = false) :
    (Piece.many p).take (w ++ r) = some (w, r) := by
  obtain ⟨htake, hdrop⟩ := takeWhile_append_head hw hr
  rw [Piece.take, htake, hdrop]

theorem take_some {p : α → Bool} (hne : w ≠ []) (hw : ∀ a ∈ w, p a = true) (hr : ∀ a ∈ r.head?, p a = false) :
    (Piece.some p).take (w ++ r) = some (w, r) := by
  obtain ⟨htake, hdrop⟩ := takeWhile_append_head hw hr
  rw [Piece.take, htake, hdrop, if_neg hne]

theorem take_one {p : α → Bool} {a : α} (ha : p a = true) (r : List α) :
    (Piece.one p).take ([a] ++ r) = some ([a], r) := by
  rw [List.singleton_append, Piece.take, if_pos ha]

theorem one_of_take {p : α → Bool} (h : (Piece.one p).take l = some (w, r)) : ∃ a, p a = true ∧ w = [a] := by
  cases l with
  | nil => cases h
  | cons a l =>
    rw [Piece.take] at h
    split at h
    · rename_i ha
      cases h
      exact ⟨a, ha, rfl⟩
    · cases h

theorem some_of_take {p : α → Bool} (h : (Piece.some p).take l = some (w, r)) : w ≠ [] ∧ ∀ a ∈ w, p a = true := by
  rw [Piece.take] at h
  split at h
  · cases h
  · rename_i hne
    cases h
    exact ⟨hne, fun a ha => List.mem_takeWhile_imp ha⟩

/-! ## A match, piece by piece -/

/-- The items read `w`, with these groups, before `r`. -/
inductive Reads : List (Item α) → List α → List (List α) → List α → Prop
  | nil {r : List α} : Reads [] [] [] r
  | cons {item : Item α} {items : List (Item α)} {w w' r : List α} {groups : List (List α)}
      (htake : item.piece.take (w ++ (w' ++ r)) = some (w, w' ++ r)) (h : Reads items w' groups r) :
      Reads (item :: items) (w ++ w') (item.captured w groups) r

theorem Reads.matchAt_eq {groups : List (List α)} (h : Reads items w groups r) :
    matchAt items (w ++ r) = some ⟨[], w, groups, r⟩ := by
  induction h with
  | nil => rfl
  | @cons item items w w' r groups htake h ih =>
    rw [List.append_assoc, matchAt, htake, Option.bind_some]
    dsimp only
    rw [ih, Option.map_some]

/-- A match begins with what its first piece takes. -/
theorem matchAt_cons {item : Item α} (h : matchAt (item :: items) l = some m) :
    ∃ w r m', item.piece.take l = some (w, r) ∧ matchAt items r = some m' ∧ m.text = w ++ m'.text ∧ m.rest = m'.rest := by
  obtain ⟨⟨w, r⟩, htake, h⟩ := Option.bind_eq_some_iff.1 h
  obtain ⟨m', hm', rfl⟩ := Option.map_eq_some_iff.1 h
  exact ⟨w, r, m', htake, hm', rfl, rfl⟩

theorem before_matchAt (h : matchAt items l = some m) : m.before = [] := by
  induction items generalizing l m with
  | nil =>
    cases h
    rfl
  | cons item items ih =>
    obtain ⟨⟨w, r⟩, -, h⟩ := Option.bind_eq_some_iff.1 h
    obtain ⟨m', hm', rfl⟩ := Option.map_eq_some_iff.1 h
    have hbefore := ih hm'
    exact hbefore

/-! ## The first match -/

/-- No match begins in the text before `l`. -/
def Passes (items : List (Item α)) : List α → List α → Prop
  | [], _ => True
  | a :: u, l => matchAt items (a :: (u ++ l)) = none ∧ Passes items u l

theorem passes_append : Passes items (u ++ v) l ↔ Passes items u (v ++ l) ∧ Passes items v l := by
  induction u with
  | nil => exact (and_iff_right trivial).symm
  | cons a u ih =>
    rw [List.cons_append, Passes, Passes, ih, List.append_assoc]
    exact and_assoc.symm

theorem passes_iff : Passes items u l ↔ ∀ v, v ≠ [] → v <:+ u → matchAt items (v ++ l) = none := by
  induction u with
  | nil => exact ⟨fun _ v hne hv => absurd (List.suffix_nil.1 hv) hne, fun _ => trivial⟩
  | cons a u ih =>
    rw [Passes, ih]
    constructor
    · rintro ⟨hfirst, hrest⟩ v hne hv
      rcases List.suffix_cons_iff.1 hv with rfl | hv
      · exact hfirst
      · exact hrest v hne hv
    · exact fun h => ⟨h _ (List.cons_ne_nil a u) (List.suffix_refl _),
        fun v hne hv => h v hne (hv.trans (List.suffix_cons a u))⟩

/-- The first piece takes nothing of a text that begins with an element of `u`. -/
theorem passes_of_head {item : Item α} (h : ∀ a ∈ u, ∀ l, item.piece.take (a :: l) = none) :
    Passes (item :: items) u l := by
  induction u with
  | nil => trivial
  | cons a u ih =>
    refine ⟨?_, ih fun b hb => h b (List.mem_cons_of_mem _ hb)⟩
    rw [matchAt, h a List.mem_cons_self, Option.bind_none]

theorem search_append {allows : Option α → Bool} (h : Passes items u l) (prev : Option α) :
    search allows items prev (u ++ l) = (search allows items (u.getLast?.or prev) l).map fun m =>
      { m with before := u ++ m.before } := by
  induction u generalizing prev with
  | nil =>
    simp only [List.nil_append, List.getLast?_nil, Option.none_or]
    exact Option.map_id'.symm
  | cons a u ih =>
    have hlast : (a :: u).getLast?.or prev = u.getLast?.or (some a) := by
      cases u with
      | nil => rfl
      | cons b u =>
        rw [List.getLast?_cons_cons]
        obtain ⟨c, hc⟩ := Option.ne_none_iff_exists'.1 (mt List.getLast?_eq_none_iff.1 (List.cons_ne_nil b u))
        rw [hc, Option.some_or, Option.some_or]
    rw [List.cons_append, search, h.1, ite_self, ih h.2, hlast, Option.map_map]
    rfl

theorem search_true (prev : Option α) : search (fun _ => true) items prev l = find items l := by
  unfold find
  cases l <;> rfl

theorem find_append (h : Passes items u l) :
    find items (u ++ l) = (find items l).map fun m => { m with before := u ++ m.before } := by
  unfold find
  rw [search_append h, search_true, search_true]

theorem search_of_matchAt {allows : Option α → Bool} {prev : Option α} (hallows : allows prev = true)
    (h : matchAt items l = some m) : search allows items prev l = some m := by
  cases l with
  | nil => exact (if_pos hallows).trans h
  | cons a l => rw [search, if_pos hallows, h]

theorem find_of_matchAt (h : matchAt items l = some m) : find items l = some m :=
  search_of_matchAt rfl h

theorem find_eq_none (h : Passes items l []) (hnil : matchAt items [] = none) : find items l = none := by
  have hend : find items [] = none := by
    unfold find search
    rw [if_pos rfl, hnil]
  rw [← List.append_nil l, find_append h, hend, Option.map_none]

/-! ## All matches -/

def Match.behind (u : List α) (m : Match α) : Match α :=
  { m with before := u ++ m.before }

omit [DecidableEq α] in
@[simp] theorem Match.behind_behind (u v : List α) (m : Match α) : (m.behind v).behind u = m.behind (u ++ v) := by
  simp [Match.behind]

/-- The pattern takes something. -/
def Solid (items : List (Item α)) : Prop :=
  items.any (·.piece.solid) = true

theorem rest_lt (hsolid : Solid items) (h : find items l = some m) : m.rest.length < l.length := by
  obtain ⟨hl, hne⟩ := search_spec h
  have hpos := List.length_pos_iff.2 (hne hsolid)
  rw [hl, List.length_append, List.length_append]
  omega

theorem findAllFrom_behind (fuel : Nat) (done l : List α) :
    findAllFrom items fuel done l = (findAllFrom items fuel [] l).map (Match.behind done) := by
  induction fuel generalizing done l with
  | zero => rfl
  | succ fuel ih =>
    rw [findAllFrom, findAllFrom]
    cases find items l with
    | none => rfl
    | some m =>
      dsimp only
      rw [ih (done ++ m.before ++ m.text), ih ([] ++ m.before ++ m.text), List.map_cons, List.map_map]
      simp [Match.behind, Function.comp_def]

theorem findAllFrom_fuel (hsolid : Solid items) (fuel fuel' : Nat) (hfuel : l.length < fuel) (hfuel' : l.length < fuel')
    (done : List α) : findAllFrom items fuel done l = findAllFrom items fuel' done l := by
  induction fuel generalizing fuel' done l with
  | zero => exact absurd hfuel (Nat.not_lt_zero _)
  | succ fuel ih =>
    cases fuel' with
    | zero => exact absurd hfuel' (Nat.not_lt_zero _)
    | succ fuel' =>
      rw [findAllFrom, findAllFrom]
      cases hfind : find items l with
      | none => rfl
      | some m =>
        have hlt := rest_lt hsolid hfind
        dsimp only
        rw [ih fuel' (by omega) (by omega)]

/-- The matches are the first one and those behind it. -/
theorem findAll_eq (hsolid : Solid items) :
    findAll items l =
      match find items l with
      | some m => m :: (findAll items m.rest).map (Match.behind (m.before ++ m.text))
      | none => [] := by
  unfold findAll
  rw [findAllFrom]
  cases hfind : find items l with
  | none => rfl
  | some m =>
    have hlt := rest_lt hsolid hfind
    dsimp only [List.nil_append]
    rw [findAllFrom_fuel hsolid l.length (m.rest.length + 1) (by omega) (by omega), findAllFrom_behind]

theorem findAll_of_find (hsolid : Solid items) (h : find items l = some m) :
    findAll items l = m :: (findAll items m.rest).map (Match.behind (m.before ++ m.text)) := by
  rw [findAll_eq hsolid, h]

theorem findAll_of_none (hsolid : Solid items) (h : find items l = none) : findAll items l = [] := by
  rw [findAll_eq hsolid, h]

/-- A match that begins in the text before `l` ends there. -/
def Stays (items : List (Item α)) : List α → List α → Prop
  | [], _ => True
  | a :: u, l => (∀ m, matchAt items (a :: (u ++ l)) = some m → ∃ w, a :: u = m.text ++ w) ∧ Stays items u l

theorem Stays.of_suffix (h : Stays items (u ++ v) l) : Stays items v l := by
  induction u with
  | nil => exact h
  | cons a u ih => exact ih h.2

theorem stays_iff : Stays items u l ↔
    ∀ v, v ≠ [] → v <:+ u → ∀ m, matchAt items (v ++ l) = some m → ∃ w, v = m.text ++ w := by
  induction u with
  | nil => exact ⟨fun _ v hne hv => absurd (List.suffix_nil.1 hv) hne, fun _ => trivial⟩
  | cons a u ih =>
    rw [Stays, ih]
    constructor
    · rintro ⟨hfirst, hrest⟩ v hne hv
      rcases List.suffix_cons_iff.1 hv with rfl | hv
      · exact hfirst
      · exact hrest v hne hv
    · exact fun h => ⟨h _ (List.cons_ne_nil a u) (List.suffix_refl _),
        fun v hne hv => h v hne (hv.trans (List.suffix_cons a u))⟩

/-- The first match begins behind the text before `l`, or lies within it. -/
theorem find_stays (h : Stays items u l) :
    Passes items u l ∨ ∃ m v, find items (u ++ l) = some m ∧ u = m.before ++ m.text ++ v ∧ m.rest = v ++ l := by
  induction u with
  | nil => exact .inl trivial
  | cons a u ih =>
    cases hmatch : matchAt items (a :: (u ++ l)) with
    | some m =>
      obtain ⟨v, hv⟩ := h.1 m hmatch
      have hl := matchAt_append hmatch
      have hbefore : m.before = [] := before_matchAt hmatch
      refine .inr ⟨m, v, find_of_matchAt hmatch, by rw [hbefore, List.nil_append, hv], ?_⟩
      rw [hbefore, List.nil_append, ← List.cons_append, hv, List.append_assoc] at hl
      exact (List.append_cancel_left hl).symm
    | none =>
      rcases ih h.2 with hpasses | ⟨m, v, hfind, hu, hrest⟩
      · exact .inl ⟨hmatch, hpasses⟩
      · refine .inr ⟨m.behind [a], v, ?_, ?_, hrest⟩
        · have hpasses : Passes items [a] (u ++ l) := ⟨hmatch, trivial⟩
          have hskip := find_append hpasses
          rw [hfind] at hskip
          exact hskip
        · rw [hu]
          rfl

/-- No match crosses the border before `l`: the matches are some of the text before it, and those of `l`. -/
theorem findAll_append (hsolid : Solid items) (h : Stays items u l) :
    ∃ ms, findAll items (u ++ l) = ms ++ (findAll items l).map (Match.behind u) ∧
      ∀ m ∈ ms, ∃ w, u = m.before ++ m.text ++ w := by
  induction hn : u.length using Nat.strong_induction_on generalizing u with
  | _ n ih =>
    rcases find_stays h with hpasses | ⟨m, v, hfind, rfl, hrest⟩
    · refine ⟨[], ?_, fun _ hm => absurd hm List.not_mem_nil⟩
      rw [List.nil_append, findAll_eq hsolid, findAll_eq hsolid, find_append hpasses]
      cases find items l with
      | none => rfl
      | some m =>
        simp [Match.behind, Function.comp_def]
    · have hne := (search_spec hfind).2 hsolid
      have hpos := List.length_pos_iff.2 hne
      have hlength : v.length < n := by
        rw [← hn, List.length_append, List.length_append]
        omega
      obtain ⟨ms, hms, hin⟩ := ih v.length hlength h.of_suffix rfl
      refine ⟨m :: ms.map (Match.behind (m.before ++ m.text)), ?_, ?_⟩
      · rw [findAll_of_find hsolid hfind, hrest, hms, List.map_append, List.map_map, List.cons_append]
        simp [Function.comp_def]
      · intro m' hm'
        rcases List.mem_cons.1 hm' with rfl | hm'
        · exact ⟨v, rfl⟩
        · obtain ⟨m'', hm'', rfl⟩ := List.mem_map.1 hm'
          obtain ⟨w, rfl⟩ := hin m'' hm''
          exact ⟨w, by simp [Match.behind]⟩

/-! ## The groups of all matches -/

/-- What a text captures. -/
def captures (items : List (Item α)) (l : List α) : List (List (List α)) :=
  (findAll items l).map (·.groups)

theorem captures_behind (u l : List α) : ((findAll items l).map (Match.behind u)).map (·.groups) = captures items l := by
  rw [List.map_map]
  rfl

theorem captures_append (hsolid : Solid items) (h : Passes items u l) : captures items (u ++ l) = captures items l := by
  unfold captures
  rw [findAll_eq hsolid, findAll_eq hsolid, find_append h]
  cases find items l with
  | none => rfl
  | some m => simp only [Option.map_some, List.map_cons, captures_behind]

theorem captures_reads (hsolid : Solid items) {groups : List (List α)} (h : Reads items w groups r) :
    captures items (w ++ r) = groups :: captures items r := by
  unfold captures
  rw [findAll_of_find hsolid (find_of_matchAt h.matchAt_eq), List.map_cons, captures_behind]
  rfl

theorem captures_eq_nil (hsolid : Solid items) (h : Passes items l []) : captures items l = [] := by
  have hnil : matchAt items [] = none := by
    cases hmatch : matchAt items [] with
    | none => rfl
    | some m =>
      have htext := matchAt_append hmatch
      have hne := matchAt_ne_nil hsolid hmatch
      rw [List.append_assoc] at htext
      exact absurd (List.append_eq_nil_iff.1 (List.append_eq_nil_iff.1 htext.symm).2).1 hne
  unfold captures
  rw [findAll_of_none hsolid (find_eq_none h hnil), List.map_nil]

/-- What has no match of the first items has none of all. -/
theorem matchAt_of_append {more : List (Item α)} (h : matchAt (items ++ more) l = some m) : ∃ m', matchAt items l = some m' := by
  induction items generalizing l m with
  | nil => exact ⟨_, rfl⟩
  | cons item items ih =>
    obtain ⟨⟨w, r⟩, htake, h⟩ := Option.bind_eq_some_iff.1 h
    obtain ⟨m₁, hm₁, -⟩ := Option.map_eq_some_iff.1 h
    obtain ⟨m', hm'⟩ := ih hm₁
    exact ⟨_, Option.bind_eq_some_iff.2 ⟨(w, r), htake, Option.map_eq_some_iff.2 ⟨m', hm', rfl⟩⟩⟩

theorem Passes.more {more : List (Item α)} (h : Passes items u l) : Passes (items ++ more) u l := by
  induction u with
  | nil => trivial
  | cons a u ih =>
    refine ⟨?_, ih h.2⟩
    cases hmatch : matchAt (items ++ more) (a :: (u ++ l)) with
    | none => rfl
    | some m =>
      obtain ⟨m', hm'⟩ := matchAt_of_append hmatch
      rw [h.1] at hm'
      cases hm'

/-! ## Where a match is -/

theorem matchAt_of_search {allows : Option α → Bool} {prev : Option α} (h : search allows items prev l = some m) :
    matchAt items (m.text ++ m.rest) = some { m with before := [] } := by
  have hstart : ∀ {l : List α} {m : Match α}, matchAt items l = some m →
      matchAt items (m.text ++ m.rest) = some { m with before := [] } := by
    intro l m hmatch
    have hbefore := before_matchAt hmatch
    have htext := matchAt_append hmatch
    rw [hbefore, List.nil_append] at htext
    rw [← htext, hmatch, ← hbefore]
  induction l generalizing prev m with
  | nil =>
    rw [search] at h
    split at h
    · exact hstart h
    · cases h
  | cons a l ih =>
    rw [search] at h
    split at h
    · rename_i m' hm'
      cases h
      split at hm'
      · exact hstart hm'
      · cases hm'
    · obtain ⟨m', hsearch, rfl⟩ := Option.map_eq_some_iff.1 h
      have hrest := ih hsearch
      exact hrest

theorem matchAt_of_findAll (h : m ∈ findAll items l) : matchAt items (m.text ++ m.rest) = some { m with before := [] } := by
  have hfrom : ∀ (fuel : Nat) (done l : List α), m ∈ findAllFrom items fuel done l →
      matchAt items (m.text ++ m.rest) = some { m with before := [] } := by
    intro fuel
    induction fuel with
    | zero => exact fun _ _ hmem => absurd hmem List.not_mem_nil
    | succ fuel ih =>
      intro done l hmem
      rw [findAllFrom] at hmem
      split at hmem
      · rename_i first hfirst
        rcases List.mem_cons.1 hmem with rfl | hmem
        · have hmatch := matchAt_of_search hfirst
          exact hmatch
        · exact ih _ _ hmem
      · cases hmem
  exact hfrom _ _ _ h

end Pattern
