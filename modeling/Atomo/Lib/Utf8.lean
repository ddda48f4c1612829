import Mathlib.Data.String.Basic
import Mathlib.Data.List.Basic

/-!
# Byte offsets into UTF-8 text

A text is the list of its characters, `bytes` its encoding. An offset that does not fall between two
characters, or lies behind the end, is no place to cut the text at: `splitAt` and `slice` have no value
there. A byte below 128 is a character of its own, so a scan over the bytes that looks for such bytes only
steps from character to character.
-/

namespace Utf8

open String (utf8Len utf8EncodeChar)

def bytes (t : List Char) : List UInt8 :=
  t.flatMap utf8EncodeChar

@[simp] theorem bytes_nil : bytes [] = [] :=
  rfl

@[simp] theorem bytes_cons (c : Char) (t : List Char) : bytes (c :: t) = utf8EncodeChar c ++ bytes t :=
  rfl

@[simp] theorem bytes_append (t u : List Char) : bytes (t ++ u) = bytes t ++ bytes u :=
  List.flatMap_append

@[simp] theorem length_bytes (t : List Char) : (bytes t).length = utf8Len t := by
  induction t with
  | nil => rfl
  | cons c t ih =>
    rw [bytes_cons, List.length_append, ih, String.length_utf8EncodeChar, String.utf8Len_cons]
    omega

/-- The byte of a character below 128. -/
def code (c : Char) : UInt8 :=
  .ofNat c.toNat

theorem encode_of_ascii {c : Char} (h : c.toNat < 128) : utf8EncodeChar c = [code c] := by
  have hsmall : c.val.toNat ≤ 127 := by
    unfold Char.toNat at h
    omega
  unfold utf8EncodeChar
  exact if_pos hsmall

theorem utf8Size_of_ascii {c : Char} (h : c.toNat < 128) : c.utf8Size = 1 := by
  rw [← String.length_utf8EncodeChar, encode_of_ascii h]
  rfl

theorem code_toNat {c : Char} (h : c.toNat < 128) : (code c).toNat = c.toNat := by
  unfold code
  rw [UInt8.toNat_ofNat']
  omega

theorem code_inj {c d : Char} (hc : c.toNat < 128) (hd : d.toNat < 128) : code c = code d ↔ c = d := by
  constructor
  · intro h
    have hnat : c.toNat = d.toNat := by rw [← code_toNat hc, h, code_toNat hd]
    exact Char.toNat_inj.1 hnat
  · rintro rfl
    rfl

/-- The bytes of the other characters are 128 or more. -/
theorem le_of_mem_encode {c : Char} (hc : 128 ≤ c.toNat) {b : UInt8} (hb : b ∈ utf8EncodeChar c) :
    128 ≤ b.toNat := by
  unfold Char.toNat at hc
  unfold utf8EncodeChar at hb
  have hrange := c.val.toNat_lt
  rw [if_neg (by omega)] at hb
  split at hb
  · simp only [List.mem_cons, List.not_mem_nil, or_false] at hb
    rcases hb with rfl | rfl <;> rw [UInt8.toNat_ofNat'] <;> omega
  · split at hb
    · simp only [List.mem_cons, List.not_mem_nil, or_false] at hb
      rcases hb with rfl | rfl | rfl <;> rw [UInt8.toNat_ofNat'] <;> omega
    · simp only [List.mem_cons, List.not_mem_nil, or_false] at hb
      rcases hb with rfl | rfl | rfl | rfl <;> rw [UInt8.toNat_ofNat'] <;> omega

/-! ## Cutting -/

/-- The text before and behind an offset. -/
def splitAt (n : Nat) : List Char → Option (List Char × List Char)
  | [] => if n = 0 then some ([], []) else none
  | c :: t =>
    if n = 0 then some ([], c :: t)
    else if c.utf8Size ≤ n then (splitAt (n - c.utf8Size) t).map fun (u, v) => (c :: u, v)
    else none

theorem splitAt_eq_some {n : Nat} {t u v : List Char} :
    splitAt n t = some (u, v) ↔ t = u ++ v ∧ utf8Len u = n := by
  constructor
  · intro h
    induction t generalizing n u with
    | nil =>
      rw [splitAt] at h
      split at h
      · rename_i hn
        cases h
        exact ⟨rfl, hn.symm⟩
      · cases h
    | cons c t ih =>
      rw [splitAt] at h
      split at h
      · rename_i hn
        cases h
        exact ⟨rfl, hn.symm⟩
      · split at h
        · rename_i hfits
          obtain ⟨⟨u', v'⟩, hsplit, heq⟩ := Option.map_eq_some_iff.1 h
          cases heq
          obtain ⟨rfl, hlen⟩ := ih hsplit
          refine ⟨rfl, ?_⟩
          rw [String.utf8Len_cons]
          omega
        · cases h
  · rintro ⟨rfl, rfl⟩
    induction u with
    | nil => cases v <;> rfl
    | cons c u ih =>
      have hc := c.utf8Size_pos
      rw [List.cons_append, splitAt, String.utf8Len_cons, if_neg (by omega), if_pos (by omega),
        Nat.add_sub_cancel, ih]
      rfl

/-- A text is cut in one way at an offset. -/
theorem append_inj_of_utf8Len {u v u' v' : List Char} (h : u ++ v = u' ++ v') (hlen : utf8Len u = utf8Len u') :
    u = u' ∧ v = v' := by
  have hu : splitAt (utf8Len u') (u ++ v) = some (u, v) := splitAt_eq_some.2 ⟨rfl, hlen⟩
  have hu' : splitAt (utf8Len u') (u ++ v) = some (u', v') := splitAt_eq_some.2 ⟨h, rfl⟩
  rw [hu] at hu'
  cases hu'
  exact ⟨rfl, rfl⟩

theorem splitAt_append (u v : List Char) : splitAt (utf8Len u) (u ++ v) = some (u, v) :=
  splitAt_eq_some.2 ⟨rfl, rfl⟩

/-- `&t[a..b]`. -/
def slice (t : List Char) (a b : Nat) : Option (List Char) :=
  if a ≤ b then (splitAt b t).bind fun (u, _) => (splitAt a u).map (·.2) else none

/-- `&t[a..]`. -/
def sliceFrom (t : List Char) (a : Nat) : Option (List Char) :=
  (splitAt a t).map (·.2)

/-- `&t[..b]`. -/
def sliceTo (t : List Char) (b : Nat) : Option (List Char) :=
  (splitAt b t).map (·.1)

theorem slice_eq_some {t s : List Char} {a b : Nat} :
    slice t a b = some s ↔ ∃ u v, t = u ++ s ++ v ∧ utf8Len u = a ∧ a + utf8Len s = b := by
  unfold slice
  constructor
  · intro h
    split at h
    · obtain ⟨⟨w, v⟩, hb, h⟩ := Option.bind_eq_some_iff.1 h
      obtain ⟨⟨u, s'⟩, ha, rfl⟩ := Option.map_eq_some_iff.1 h
      obtain ⟨rfl, hlen⟩ := splitAt_eq_some.1 hb
      obtain ⟨rfl, rfl⟩ := splitAt_eq_some.1 ha
      refine ⟨u, v, rfl, rfl, ?_⟩
      rw [← hlen, String.utf8Len_append]
    · cases h
  · rintro ⟨u, v, rfl, rfl, rfl⟩
    rw [if_pos (Nat.le_add_right _ _), ← String.utf8Len_append, splitAt_append]
    simp only [Option.bind_some, splitAt_append, Option.map_some]

theorem slice_append (u s v : List Char) :
    slice (u ++ s ++ v) (utf8Len u) (utf8Len u + utf8Len s) = some s :=
  slice_eq_some.2 ⟨u, v, rfl, rfl, rfl⟩

theorem sliceFrom_eq_some {t v : List Char} {a : Nat} :
    sliceFrom t a = some v ↔ ∃ u, t = u ++ v ∧ utf8Len u = a := by
  unfold sliceFrom
  constructor
  · intro h
    obtain ⟨⟨u, v'⟩, hsplit, rfl⟩ := Option.map_eq_some_iff.1 h
    exact ⟨u, splitAt_eq_some.1 hsplit⟩
  · rintro ⟨u, rfl, rfl⟩
    rw [splitAt_append]
    rfl

theorem sliceFrom_append (u v : List Char) : sliceFrom (u ++ v) (utf8Len u) = some v :=
  sliceFrom_eq_some.2 ⟨u, rfl, rfl⟩

theorem sliceTo_eq_some {t u : List Char} {b : Nat} :
    sliceTo t b = some u ↔ ∃ v, t = u ++ v ∧ utf8Len u = b := by
  unfold sliceTo
  constructor
  · intro h
    obtain ⟨⟨u', v⟩, hsplit, rfl⟩ := Option.map_eq_some_iff.1 h
    exact ⟨v, splitAt_eq_some.1 hsplit⟩
  · rintro ⟨v, rfl, rfl⟩
    rw [splitAt_append]
    rfl

theorem sliceTo_append (u v : List Char) : sliceTo (u ++ v) (utf8Len u) = some u :=
  sliceTo_eq_some.2 ⟨v, rfl, rfl⟩

/-- An offset behind the end is nowhere. -/
theorem sliceFrom_eq_none {t : List Char} {a : Nat} (h : utf8Len t < a) : sliceFrom t a = none := by
  rw [Option.eq_none_iff_forall_not_mem]
  intro v hv
  obtain ⟨u, rfl, rfl⟩ := sliceFrom_eq_some.1 hv
  rw [String.utf8Len_append] at h
  omega

theorem slice_eq_none {t : List Char} {a b : Nat} (h : utf8Len t < b) : slice t a b = none := by
  rw [Option.eq_none_iff_forall_not_mem]
  intro s hs
  obtain ⟨u, v, rfl, rfl, rfl⟩ := slice_eq_some.1 hs
  rw [String.utf8Len_append, String.utf8Len_append] at h
  omega

/-! ## Bytes at an offset -/

/-- The bytes from the end of a part on are those of what follows. -/
theorem getElem?_bytes_append (u v : List Char) (k : Nat) :
    (bytes (u ++ v))[utf8Len u + k]? = (bytes v)[k]? := by
  rw [bytes_append, ← length_bytes u, List.getElem?_append_right (by omega), Nat.add_sub_cancel_left]

theorem getElem?_bytes_cons {c : Char} {k : Nat} (hk : k < c.utf8Size) (u v : List Char) :
    (bytes (u ++ c :: v))[utf8Len u + k]? = (utf8EncodeChar c)[k]? := by
  rw [getElem?_bytes_append, bytes_cons, List.getElem?_append_left]
  rwa [String.length_utf8EncodeChar]

theorem getElem?_bytes_ascii {c : Char} (hc : c.toNat < 128) (u v : List Char) :
    (bytes (u ++ c :: v))[utf8Len u]? = some (code c) := by
  have hfirst := getElem?_bytes_cons (c := c) (k := 0) (by rw [utf8Size_of_ascii hc]; omega) u v
  rw [Nat.add_zero, encode_of_ascii hc] at hfirst
  exact hfirst

/-- Within a character that is not below 128 every byte is 128 or more. -/
theorem le_of_getElem?_bytes {c : Char} (hc : 128 ≤ c.toNat) {k : Nat} (hk : k < c.utf8Size) {u v : List Char}
    {b : UInt8} (hb : (bytes (u ++ c :: v))[utf8Len u + k]? = some b) : 128 ≤ b.toNat := by
  rw [getElem?_bytes_cons hk] at hb
  exact le_of_mem_encode hc (List.mem_of_getElem? hb)

/-- The last character is a single byte. -/
def endsNarrow (t : List Char) : Bool :=
  t.getLast?.any (·.utf8Size = 1)

/-- All but the last byte of a text can be cut out just when that byte is a character. -/
theorem slice_dropLast {u : List Char} (hu : u ≠ []) (v : List Char) :
    slice (u ++ v) (utf8Len u) (utf8Len (u ++ v) - 1) = if endsNarrow v then some v.dropLast else none := by
  have hu : utf8Len u ≠ 0 := mt String.utf8Len_eq_zero.1 hu
  rcases List.eq_nil_or_concat v with rfl | ⟨w, c, rfl⟩
  · unfold slice
    rw [List.append_nil, if_neg (by omega)]
    rfl
  · have hc := c.utf8Size_pos
    have hnarrow : endsNarrow (w ++ [c]) = decide (c.utf8Size = 1) := by
      unfold endsNarrow
      rw [List.getLast?_concat]
      rfl
    rw [List.concat_eq_append, hnarrow, List.dropLast_concat, ← List.append_assoc, String.utf8Len_append,
      String.utf8Len_cons, String.utf8Len_nil]
    by_cases hone : c.utf8Size = 1
    · rw [decide_eq_true hone, if_pos rfl, hone, Nat.zero_add, Nat.add_sub_cancel, String.utf8Len_append,
        slice_append]
    · rw [decide_eq_false hone, if_neg nofun, Option.eq_none_iff_forall_ne_some]
      intro s hs
      obtain ⟨u', x, heq, hu', hlen⟩ := slice_eq_some.1 hs
      -- what would be left behind the cut is a part of the last character
      have htotal := congrArg utf8Len heq
      simp only [String.utf8Len_append, String.utf8Len_cons, String.utf8Len_nil] at htotal hlen
      rcases List.eq_nil_or_concat x with rfl | ⟨x', d, rfl⟩
      · rw [String.utf8Len_nil] at htotal
        omega
      · have hd : d = c := by
          rw [List.concat_eq_append, ← List.append_assoc] at heq
          exact (List.singleton_inj.1 (List.append_inj_right' heq rfl)).symm
        rw [List.concat_eq_append, String.utf8Len_append, String.utf8Len_cons, String.utf8Len_nil, hd] at htotal
        omega

end Utf8
