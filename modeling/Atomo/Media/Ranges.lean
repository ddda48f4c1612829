import Atomo.Dsl.Written
import Atomo.GraphQL.PublicReads
import Atomo.Media.Store

/-!
# Byte ranges

`parse_range` and `serve_bytes` of `media.rs`, against the grammar of a request for one range of bytes. White space
around the parts is part of the grammar here, as the tests want it. The parser reads its numbers as `u64`, which takes
a sign in front and no number from 2⁶⁴ on, and it asks for the length of the object before it looks at the numbers;
elsewhere it gives the answer of the grammar (`conforms_iff`), and a range that it answers lies within the object.
-/

namespace Atomo.Media

open Dsl (Blank trim)
open GraphQL (splitOnce decimal?)
open Schema (isSpace spaces)

/-! ## The code -/

inductive RangeSpec where
  | satisfiable (start stop : Nat)
  | unsatisfiable
  | ignore
  deriving DecidableEq

/-- `str::parse::<u64>`. -/
def parseU64 (text : List Char) : Option Nat :=
  let digits := match text with
    | '+' :: digits => digits
    | digits => digits
  (decimal? digits).bind fun n => if n < 2 ^ 64 then some n else none

/-- The last `match` of `parse_range`, on the texts before and after the hyphen. -/
def rangeOf (total : Nat) (lo hi : List Char) : RangeSpec :=
  let last := total - 1
  if lo = [] then
    if hi = [] then .ignore
    else
      match parseU64 hi with
      | some 0 => .unsatisfiable
      | some n => .satisfiable (total - n) last
      | none => .ignore
  else if hi = [] then
    match parseU64 lo with
    | some s => if s ≤ last then .satisfiable s last else .unsatisfiable
    | none => .ignore
  else
    match parseU64 lo, parseU64 hi with
    | some s, some e => if e < s then .ignore else if last < s then .unsatisfiable else .satisfiable s (min e last)
    | _, _ => .ignore

def bytesUnit : List Char :=
  ['b', 'y', 't', 'e', 's', '=']

/-- The trimmed texts before and after the hyphen, if `parse_range` comes that far. -/
def partsOf (raw : List Char) : Option (List Char × List Char) := do
  let spec ← Scan.lit bytesUnit (trim raw)
  let spec := trim spec
  if spec = [] ∨ ',' ∈ spec then none
  else
    let (lo, hi) ← splitOnce '-' spec
    return (trim lo, trim hi)

/-- `parse_range`. -/
def parseRange (raw : String) (total : Nat) : RangeSpec :=
  match partsOf raw.toList with
  | none => .ignore
  | some (lo, hi) => if total = 0 then .unsatisfiable else rangeOf total lo hi

structure Response where
  status : Nat
  headers : List (String × String)
  body : Bytes
  deriving DecidableEq

/-- `&bytes[start..=stop]`, where the slice is in range. -/
def sliceInclusive (bytes : Bytes) (start stop : Nat) : Option Bytes :=
  if start ≤ stop + 1 ∧ stop < bytes.length then some ((bytes.take (stop + 1)).drop start) else none

def cacheControl (isPrivate : Bool) : String :=
  if isPrivate then "private, max-age=3600" else "public, max-age=86400, immutable"

def contentRange (start stop total : Nat) : String :=
  "bytes " ++ toString start ++ "-" ++ toString stop ++ "/" ++ toString total

/-- `serve_bytes`, with the headers of the request that are texts; a slice out of range panics. -/
def serveBytes (ifNoneMatch range : Option String) (id contentType : String) (bytes : Bytes) (isPrivate : Bool) :
    Option Response :=
  let total := bytes.length
  let etag := "\"" ++ id ++ "\""
  let cache := cacheControl isPrivate
  let full : Response :=
    { status := 200
      headers := [("content-type", contentType), ("x-content-type-options", "nosniff"), ("accept-ranges", "bytes"),
        ("etag", etag), ("cache-control", cache)]
      body := bytes }
  if ifNoneMatch.any fun inm => inm = etag ∨ trim inm.toList = ['*'] then
    some { status := 304, headers := [("etag", etag), ("cache-control", cache)], body := [] }
  else
    match range.map (parseRange · total) with
    | some (.satisfiable start stop) =>
      (sliceInclusive bytes start stop).map fun slice =>
        { status := 206
          headers := [("content-type", contentType), ("x-content-type-options", "nosniff"), ("accept-ranges", "bytes"),
            ("content-range", contentRange start stop total),
            ("etag", etag), ("cache-control", cache)]
          body := slice }
    | some .unsatisfiable =>
      some
        { status := 416
          headers := [("content-range", "bytes */" ++ toString total), ("accept-ranges", "bytes")]
          body := [] }
    | _ => some full

/-! ## The grammar -/

/-- A request for one range: with both ends, to the end of the object, or for its last bytes. -/
inductive ByteRange where
  | closed (first last : Nat)
  | fromByte (first : Nat)
  | suffix (length : Nat)

/-- The bounds within an object, where the range overlaps it. -/
def ByteRange.resolve (total : Nat) : ByteRange → Option (Nat × Nat)
  | .closed first last => if first < total then some (first, min last (total - 1)) else none
  | .fromByte first => if first < total then some (first, total - 1) else none
  | .suffix length => if 0 < length ∧ 0 < total then some (total - length, total - 1) else none

def ByteRange.numbers : ByteRange → List Nat
  | .closed first last => [first, last]
  | .fromByte first => [first]
  | .suffix length => [length]

/-- How a number is written: in digits, or with a sign in front as well. -/
def Decimal (text : List Char) (n : Nat) : Prop :=
  decimal? text = some n

def Signed (text : List Char) (n : Nat) : Prop :=
  Decimal text n ∨ ∃ digits, text = '+' :: digits ∧ Decimal digits n

/-- A text between white space. -/
def Padded (inner text : List Char) : Prop :=
  ∃ lead trail, Blank lead ∧ Blank trail ∧ text = lead ++ (inner ++ trail)

section

variable (Number : List Char → Nat → Prop)

/-- The texts of the two numbers of a range. -/
inductive ByteRange.Parts : ByteRange → List Char → List Char → Prop
  | closed {first last : Nat} {lo hi : List Char} (hlo : Number lo first) (hhi : Number hi last) (h : first ≤ last) :
    Parts (.closed first last) lo hi
  | fromByte {first : Nat} {lo : List Char} (hlo : Number lo first) : Parts (.fromByte first) lo []
  | suffix {length : Nat} {hi : List Char} (hhi : Number hi length) : Parts (.suffix length) [] hi

/-- `bytes=` with the two texts, a hyphen between them, and white space around all of it. -/
def Requests (raw : String) (range : ByteRange) : Prop :=
  ∃ lead lo hi lo' hi', Blank lead ∧ range.Parts Number lo hi ∧ Padded lo lo' ∧ Padded hi hi' ∧
    raw.toList = lead ++ (bytesUnit ++ (lo' ++ '-' :: hi'))

end

/-- The header is a valid request for one range. -/
def Valid (raw : String) : Prop :=
  ∃ range, Requests Decimal raw range

/-- The answer that the grammar gives. -/
def Conforms (raw : String) (total : Nat) : RangeSpec → Prop
  | .satisfiable start stop => ∃ range, Requests Decimal raw range ∧ range.resolve total = some (start, stop)
  | .unsatisfiable => ∃ range, Requests Decimal raw range ∧ range.resolve total = none
  | .ignore => ¬Valid raw

/-- `bytes=` with a hyphen behind it and no comma. -/
def Hyphened (raw : String) : Prop :=
  ∃ lead spec, Blank lead ∧ '-' ∈ spec ∧ ',' ∉ spec ∧ raw.toList = lead ++ (bytesUnit ++ spec)

/-- A valid request but for a sign in front of a number. -/
def HasSign (raw : String) : Prop :=
  '+' ∈ raw.toList ∧ ∃ range, Requests Signed raw range ∧ ∀ n ∈ range.numbers, n < 2 ^ 64

/-- A valid request with a number that is no `u64`. -/
def Overflows (raw : String) : Prop :=
  ∃ range, Requests Decimal raw range ∧ ∃ n ∈ range.numbers, 2 ^ 64 ≤ n

/-- The headers that the parser does not take another way than the grammar. -/
def ReadAsWritten (raw : String) (total : Nat) : Prop :=
  if total = 0 then Hyphened raw → Valid raw else ¬HasSign raw ∧ ¬Overflows raw

/-- A part of the object comes with the bounds that it is the part between, anything else with all of it or nothing. -/
def Response.Reports (bytes : Bytes) (response : Response) : Prop :=
  if response.status = 206 then
    ∃ start stop, ("content-range", contentRange start stop bytes.length) ∈ response.headers ∧ start ≤ stop ∧
      stop < bytes.length ∧ response.body = (bytes.drop start).take (stop + 1 - start) ∧
      response.body.length = stop + 1 - start
  else if response.status = 200 then response.body = bytes
  else response.body = []

/-- What is claimed of a header and a length. -/
structure Answered (raw : String) (total : Nat) : Prop where
  answer : Conforms raw total (parseRange raw total)
  bounds : ∀ start stop, parseRange raw total = .satisfiable start stop → start ≤ stop ∧ stop < total
  served : ∀ bytes : Bytes, bytes.length = total → ∀ ifNoneMatch id contentType isPrivate,
    ∃ response, serveBytes ifNoneMatch (some raw) id contentType bytes isPrivate = some response ∧
      response.Reports bytes

/-! ## White space -/

theorem padded_trim (t : List Char) : Padded (trim t) t := by
  refine ⟨t.takeWhile isSpace, ((spaces t).reverse.takeWhile isSpace).reverse, fun c hc => ?_, fun c hc => ?_, ?_⟩
  · exact List.mem_takeWhile_imp hc
  · exact List.mem_takeWhile_imp (List.mem_reverse.1 hc)
  · have hinner : trim t ++ ((spaces t).reverse.takeWhile isSpace).reverse = spaces t := by
      unfold trim
      rw [← List.reverse_append]
      unfold spaces
      rw [List.takeWhile_append_dropWhile, List.reverse_reverse]
    rw [hinner]
    exact List.takeWhile_append_dropWhile.symm

theorem spaces_of_blank {t : List Char} (h : Blank t) : spaces t = [] :=
  List.dropWhile_eq_nil_iff.2 h

theorem spaces_append_of_blank {lead : List Char} (h : Blank lead) (t : List Char) : spaces (lead ++ t) = spaces t :=
  List.dropWhile_append_of_pos h

/-- A text with something solid behind it. -/
theorem spaces_append_cons {c : Char} (hc : isSpace c = false) (t l : List Char) :
    spaces (t ++ c :: l) = spaces t ++ c :: l := by
  induction t with
  | nil => simp [spaces, hc]
  | cons d t ih =>
    cases hd : isSpace d with
    | true => simpa [spaces, hd] using ih
    | false => simp [spaces, hd]

theorem trim_append_left {lead : List Char} (h : Blank lead) (t : List Char) : trim (lead ++ t) = trim t := by
  unfold trim
  rw [spaces_append_of_blank h]

theorem Blank.reverse {t : List Char} (h : Blank t) : Blank t.reverse :=
  fun c hc => h c (List.mem_reverse.1 hc)

/-- What is left of a text with white space behind it. -/
theorem spaces_append_blank {trail : List Char} (h : Blank trail) (t : List Char) :
    spaces (t ++ trail) = spaces t ++ trail ∨ (spaces (t ++ trail) = [] ∧ spaces t = []) := by
  induction t with
  | nil => exact .inr ⟨spaces_of_blank h, rfl⟩
  | cons c t ih =>
    cases hc : isSpace c with
    | true => simpa [spaces, hc] using ih
    | false => exact .inl (by simp [spaces, hc])

theorem trim_append_right {trail : List Char} (h : Blank trail) (t : List Char) : trim (t ++ trail) = trim t := by
  unfold trim
  rcases spaces_append_blank h t with hsome | ⟨hnil, hnil'⟩
  · rw [hsome, List.reverse_append, spaces_append_of_blank (Blank.reverse h)]
  · rw [hnil, hnil']

theorem Padded.trim_eq {inner text : List Char} (h : Padded inner text) : trim text = trim inner := by
  obtain ⟨lead, trail, hlead, htrail, rfl⟩ := h
  rw [trim_append_left hlead, trim_append_right htrail]

theorem trim_of_solid {t : List Char} (h : ∀ c ∈ t, isSpace c = false) : trim t = t := by
  have hpadded : trim ([] ++ (t ++ [])) = t :=
    Dsl.trim_padded nofun nofun (fun c hc => h c (List.mem_of_mem_head? hc)) fun c hc => h c (List.mem_of_getLast? hc)
  simpa using hpadded

/-- The white space at the end of a text, behind something solid. -/
theorem trim_append_cons {c : Char} (hc : isSpace c = false) (t l : List Char) :
    ∃ l', trim (t ++ c :: l) = spaces t ++ c :: l' ∧ Padded l' l := by
  refine ⟨(spaces l.reverse).reverse, ?_, [], (l.reverse.takeWhile isSpace).reverse, nofun, ?_, ?_⟩
  · unfold trim
    rw [spaces_append_cons hc, List.reverse_append, List.reverse_cons, List.append_assoc, List.singleton_append,
      spaces_append_cons hc]
    simp
  · exact fun d hd => List.mem_takeWhile_imp (List.mem_reverse.1 hd)
  · rw [List.nil_append, ← List.reverse_append]
    unfold spaces
    rw [List.takeWhile_append_dropWhile, List.reverse_reverse]

/-! ## The parts of a header -/

theorem splitOnce_eq_some {sep : Char} {t lo hi : List Char} (h : splitOnce sep t = some (lo, hi)) :
    t = lo ++ sep :: hi ∧ sep ∉ lo := by
  unfold splitOnce at h
  split at h
  · cases h
  · rename_i c rest hdrop
    obtain ⟨rfl, rfl⟩ : t.takeWhile (· ≠ sep) = lo ∧ rest = hi := by simpa using h
    have hhead := List.head?_dropWhile_not (· ≠ sep) t
    rw [hdrop] at hhead
    obtain rfl : c = sep := by simpa using hhead
    refine ⟨?_, fun hmem => ?_⟩
    · rw [← hdrop]
      exact List.takeWhile_append_dropWhile.symm
    · simpa using List.mem_takeWhile_imp hmem

theorem splitOnce_append {sep : Char} {lo : List Char} (h : sep ∉ lo) (hi : List Char) :
    splitOnce sep (lo ++ sep :: hi) = some (lo, hi) := by
  have hlo : ∀ c ∈ lo, decide (c ≠ sep) = true := fun c hc => by
    simp only [decide_eq_true_eq]
    rintro rfl
    exact h hc
  unfold splitOnce
  rw [List.dropWhile_append_of_pos hlo, List.takeWhile_append_of_pos hlo]
  simp

theorem not_mem_of_blank {c : Char} (hc : isSpace c = false) {t : List Char} (h : Blank t) : c ∉ t := by
  intro hmem
  rw [h c hmem] at hc
  cases hc

/-- What a header says whose parts are read. -/
theorem partsOf_eq_some_iff {raw lo hi : List Char} :
    partsOf raw = some (lo, hi) ↔ ∃ lead lo' hi', Blank lead ∧ raw = lead ++ (bytesUnit ++ (lo' ++ '-' :: hi')) ∧
      '-' ∉ lo' ∧ ',' ∉ lo' ++ hi' ∧ trim lo' = lo ∧ trim hi' = hi := by
  constructor
  · intro h
    simp only [partsOf, Option.bind_eq_bind, Option.bind_eq_some_iff] at h
    obtain ⟨spec, hlit, h⟩ := h
    split at h
    · cases h
    · rename_i hspec
      obtain ⟨⟨lo₁, hi₁⟩, hsplit, hparts⟩ := Option.bind_eq_some_iff.1 h
      obtain ⟨rfl, rfl⟩ : trim lo₁ = lo ∧ trim hi₁ = hi := by simpa using hparts
      obtain ⟨hinner, hhyphen⟩ := splitOnce_eq_some hsplit
      obtain ⟨lead, trail, hlead, htrail, hraw⟩ := padded_trim raw
      obtain ⟨lead', trail', hlead', htrail', hpadded⟩ := padded_trim spec
      rw [Scan.lit_eq_some.1 hlit] at hraw
      rw [hinner] at hpadded hspec
      rw [not_or] at hspec
      refine ⟨lead, lead' ++ lo₁, hi₁ ++ (trail' ++ trail), hlead, ?_, ?_, ?_, trim_append_left hlead' lo₁, ?_⟩
      · rw [hraw, hpadded]
        simp
      · rw [List.mem_append, not_or]
        exact ⟨not_mem_of_blank (by decide) hlead', hhyphen⟩
      · have hlead' := not_mem_of_blank (c := ',') (by decide) hlead'
        have htrail' := not_mem_of_blank (c := ',') (by decide) htrail'
        have htrail := not_mem_of_blank (c := ',') (by decide) htrail
        simp only [List.mem_append, List.mem_cons, not_or] at hspec ⊢
        exact ⟨⟨hlead', hspec.2.1⟩, hspec.2.2.2, htrail', htrail⟩
      · exact trim_append_right (fun c hc => (List.mem_append.1 hc).elim (htrail' c) (htrail c)) hi₁
  · rintro ⟨lead, lo', hi', hlead, rfl, hhyphen, hcomma, rfl, rfl⟩
    obtain ⟨hi₁, houter, hpadded⟩ := trim_append_cons (c := '-') (by decide) (bytesUnit ++ lo') hi'
    obtain ⟨hi₂, hinner, hpadded'⟩ := trim_append_cons (c := '-') (by decide) lo' hi₁
    have hunit : spaces (bytesUnit ++ lo') = bytesUnit ++ lo' := rfl
    have htrim : trim (lead ++ (bytesUnit ++ (lo' ++ '-' :: hi'))) = bytesUnit ++ (lo' ++ '-' :: hi₁) := by
      rw [trim_append_left hlead, ← List.append_assoc, houter, hunit, List.append_assoc]
    have hspaces : spaces lo' <:+ lo' := List.dropWhile_suffix isSpace
    have hcommas : ',' ∉ spaces lo' ++ '-' :: hi₂ := by
      obtain ⟨l₁, t₁, -, -, hhi₁⟩ := hpadded
      obtain ⟨l₂, t₂, -, -, hhi₂⟩ := hpadded'
      rw [hhi₁, hhi₂] at hcomma
      simp only [List.mem_append, List.mem_cons, not_or] at hcomma ⊢
      exact ⟨fun hmem => hcomma.1 (hspaces.subset hmem), by decide, hcomma.2.2.1.2.1⟩
    have hlo : trim (spaces lo') = trim lo' := by
      have hlead : Blank (lo'.takeWhile isSpace) := fun c hc => List.mem_takeWhile_imp hc
      rw [← trim_append_left hlead (spaces lo')]
      exact congrArg trim List.takeWhile_append_dropWhile
    unfold partsOf
    rw [htrim, Scan.lit_append, Option.bind_eq_bind, Option.bind_some]
    dsimp only
    rw [hinner, if_neg (by simpa using hcommas), splitOnce_append fun hmem => hhyphen (hspaces.subset hmem)]
    simp only [Option.bind_eq_bind, Option.bind_some]
    rw [hlo, hpadded.trim_eq, hpadded'.trim_eq]
    rfl

/-! ## Numbers -/

theorem Decimal.digits {t : List Char} {n : Nat} (h : Decimal t n) : t ≠ [] ∧ ∀ c ∈ t, c.isDigit = true := by
  unfold Decimal decimal? at h
  split at h
  · rename_i hdigits
    exact ⟨hdigits.1, List.all_eq_true.1 hdigits.2⟩
  · cases h

/-- The characters that a number is written with. -/
def IsNumeral (c : Char) : Prop :=
  c.isDigit = true ∨ c = '+'

/-- A way to write numbers, in digits and signs. -/
def Numeral (Number : List Char → Nat → Prop) : Prop :=
  ∀ t n, Number t n → t ≠ [] ∧ ∀ c ∈ t, IsNumeral c

theorem numeral_decimal : Numeral Decimal :=
  fun _ _ h => ⟨h.digits.1, fun c hc => .inl (h.digits.2 c hc)⟩

theorem numeral_signed : Numeral Signed := by
  rintro t n (h | ⟨digits, rfl, h⟩)
  · exact numeral_decimal t n h
  · refine ⟨List.cons_ne_nil _ _, List.forall_mem_cons.2 ⟨.inr rfl, fun c hc => .inl (h.digits.2 c hc)⟩⟩

theorem isDigit_bounds {c : Char} (h : c.isDigit = true) : 48 ≤ c.toNat ∧ c.toNat ≤ 57 := by
  simp only [Char.isDigit, Bool.and_eq_true, decide_eq_true_eq, UInt32.le_iff_toNat_le, ge_iff_le] at h
  exact h

theorem IsNumeral.solid {c : Char} (h : IsNumeral c) : isSpace c = false ∧ c ≠ '-' ∧ c ≠ ',' := by
  rcases h with hdigit | rfl
  · have hbounds := isDigit_bounds hdigit
    refine ⟨?_, ?_, ?_⟩
    · unfold isSpace
      simp
      omega
    · rintro rfl
      exact absurd hbounds.1 (by decide)
    · rintro rfl
      exact absurd hbounds.1 (by decide)
  · decide

/-- A sign is no digit. -/
theorem decimal_sign (t : List Char) (n : Nat) : ¬Decimal ('+' :: t) n := by
  intro h
  have hsign := h.digits.2 '+' List.mem_cons_self
  revert hsign
  decide

/-- What `parse::<u64>` reads. -/
theorem parseU64_eq_some_iff {t : List Char} {n : Nat} : parseU64 t = some n ↔ Signed t n ∧ n < 2 ^ 64 := by
  have hbound : ∀ digits : List Char, ((decimal? digits).bind fun n => if n < 2 ^ 64 then some n else none) = some n ↔
      Decimal digits n ∧ n < 2 ^ 64 := by
    intro digits
    simp only [Decimal, Option.bind_eq_some_iff, Option.ite_none_right_eq_some, Option.some_inj]
    constructor
    · rintro ⟨m, hm, hlt, rfl⟩
      exact ⟨hm, hlt⟩
    · rintro ⟨hn, hlt⟩
      exact ⟨n, hn, hlt, rfl⟩
  unfold parseU64
  split
  · rename_i digits
    rw [hbound]
    constructor
    · rintro ⟨hdigits, hlt⟩
      exact ⟨.inr ⟨digits, rfl, hdigits⟩, hlt⟩
    · rintro ⟨h | ⟨digits', heq, hdigits⟩, hlt⟩
      · exact absurd h (decimal_sign digits n)
      · cases heq
        exact ⟨hdigits, hlt⟩
  · rename_i hnot
    rw [hbound]
    constructor
    · rintro ⟨hdigits, hlt⟩
      exact ⟨.inl hdigits, hlt⟩
    · rintro ⟨h | ⟨digits, rfl, -⟩, hlt⟩
      · exact ⟨h, hlt⟩
      · exact absurd rfl (hnot digits)

/-- Numbers as `parse::<u64>` reads them. -/
def U64 (t : List Char) (n : Nat) : Prop :=
  parseU64 t = some n

theorem numeral_u64 : Numeral U64 :=
  fun t n h => numeral_signed t n (parseU64_eq_some_iff.1 h).1

/-! ## Requests -/

section

variable {Number Number' : List Char → Nat → Prop} {range range' : ByteRange} {lo hi : List Char} {raw : String}

theorem ByteRange.Parts.solid (h : range.Parts Number lo hi) (hnum : Numeral Number) :
    (∀ c ∈ lo, IsNumeral c) ∧ ∀ c ∈ hi, IsNumeral c := by
  cases h with
  | closed hlo hhi _ => exact ⟨(hnum _ _ hlo).2, (hnum _ _ hhi).2⟩
  | fromByte hlo => exact ⟨(hnum _ _ hlo).2, nofun⟩
  | suffix hhi => exact ⟨nofun, (hnum _ _ hhi).2⟩

/-- Two ways to write numbers that agree on those of a range. -/
theorem ByteRange.Parts.imp (h : range.Parts Number lo hi)
    (himp : ∀ t n, (t = lo ∨ t = hi) → n ∈ range.numbers → Number t n → Number' t n) : range.Parts Number' lo hi := by
  cases h with
  | closed hlo hhi hle =>
    exact .closed (himp _ _ (.inl rfl) (by simp [numbers]) hlo) (himp _ _ (.inr rfl) (by simp [numbers]) hhi) hle
  | fromByte hlo => exact .fromByte (himp _ _ (.inl rfl) (by simp [numbers]) hlo)
  | suffix hhi => exact .suffix (himp _ _ (.inr rfl) (by simp [numbers]) hhi)

/-- Each number of a range is written in one of its texts. -/
theorem ByteRange.Parts.number (h : range.Parts Number lo hi) : ∀ n ∈ range.numbers, Number lo n ∨ Number hi n := by
  cases h with
  | closed hlo hhi _ => simp [numbers, hlo, hhi]
  | fromByte hlo => simp [numbers, hlo]
  | suffix hhi => simp [numbers, hhi]

/-- The texts tell which range it is. -/
theorem ByteRange.Parts.unique (h : range.Parts Number lo hi) (h' : range'.Parts Number lo hi) (hnum : Numeral Number)
    (hone : ∀ t n n', Number t n → Number t n' → n = n') : range = range' := by
  cases h with
  | closed hlo hhi _ =>
    cases h' with
    | closed hlo' hhi' _ => rw [hone _ _ _ hlo hlo', hone _ _ _ hhi hhi']
    | fromByte _ => exact absurd rfl (hnum _ _ hhi).1
    | suffix _ => exact absurd rfl (hnum _ _ hlo).1
  | fromByte hlo =>
    cases h' with
    | closed _ hhi' _ => exact absurd rfl (hnum _ _ hhi').1
    | fromByte hlo' => rw [hone _ _ _ hlo hlo']
    | suffix _ => exact absurd rfl (hnum _ _ hlo).1
  | suffix hhi =>
    cases h' with
    | closed hlo' _ _ => exact absurd rfl (hnum _ _ hlo').1
    | fromByte hlo' => exact absurd rfl (hnum _ _ hlo').1
    | suffix hhi' => rw [hone _ _ _ hhi hhi']

theorem padded_notMem {inner text : List Char} {c : Char} (h : Padded inner text) (hc : isSpace c = false)
    (hinner : c ∉ inner) : c ∉ text := by
  obtain ⟨lead, trail, hlead, htrail, rfl⟩ := h
  simp only [List.mem_append, not_or]
  exact ⟨not_mem_of_blank hc hlead, hinner, not_mem_of_blank hc htrail⟩

/-- A request is in its parts. -/
theorem requests_iff (hnum : Numeral Number) :
    Requests Number raw range ↔ ∃ lo hi, partsOf raw.toList = some (lo, hi) ∧ range.Parts Number lo hi := by
  constructor
  · rintro ⟨lead, lo, hi, lo', hi', hlead, hparts, hlo, hhi, hraw⟩
    obtain ⟨hsolid, hsolid'⟩ := hparts.solid hnum
    refine ⟨lo, hi, partsOf_eq_some_iff.2 ⟨lead, lo', hi', hlead, hraw, ?_, ?_, ?_, ?_⟩, hparts⟩
    · exact padded_notMem hlo (by decide) fun hmem => (hsolid _ hmem).solid.2.1 rfl
    · rw [List.mem_append, not_or]
      exact ⟨padded_notMem hlo (by decide) fun hmem => (hsolid _ hmem).solid.2.2 rfl,
        padded_notMem hhi (by decide) fun hmem => (hsolid' _ hmem).solid.2.2 rfl⟩
    · rw [hlo.trim_eq, trim_of_solid fun c hc => (hsolid c hc).solid.1]
    · rw [hhi.trim_eq, trim_of_solid fun c hc => (hsolid' c hc).solid.1]
  · rintro ⟨lo, hi, hparts, hrange⟩
    obtain ⟨lead, lo', hi', hlead, hraw, -, -, rfl, rfl⟩ := partsOf_eq_some_iff.1 hparts
    exact ⟨lead, _, _, lo', hi', hlead, hrange, padded_trim lo', padded_trim hi', hraw⟩

/-- The parts are taken from the header. -/
theorem partsOf_subset {raw : List Char} (h : partsOf raw = some (lo, hi)) {c : Char} (hc : c ∈ lo ∨ c ∈ hi) : c ∈ raw := by
  obtain ⟨lead, lo', hi', -, rfl, -, -, rfl, rfl⟩ := partsOf_eq_some_iff.1 h
  have htrim : ∀ {t : List Char}, c ∈ trim t → c ∈ t := by
    intro t hmem
    obtain ⟨l, l', -, -, ht⟩ := padded_trim t
    rw [ht]
    simp [hmem]
  simp only [List.mem_append, List.mem_cons]
  rcases hc with hc | hc
  · exact .inr (.inr (.inl (htrim hc)))
  · exact .inr (.inr (.inr (.inr (htrim hc))))

/-- There are no signs in a valid request. -/
theorem Requests.unsigned (h : Requests Decimal raw range) : '+' ∉ raw.toList := by
  obtain ⟨lead, lo, hi, lo', hi', hlead, hparts, hlo, hhi, hraw⟩ := h
  have hdigits : '+' ∉ lo ∧ '+' ∉ hi := by
    have hnot : ∀ {t : List Char} {n : Nat}, Decimal t n → '+' ∉ t := fun ht hmem =>
      absurd (ht.digits.2 '+' hmem) (by decide)
    cases hparts with
    | closed hlo hhi _ => exact ⟨hnot hlo, hnot hhi⟩
    | fromByte hlo => exact ⟨hnot hlo, List.not_mem_nil⟩
    | suffix hhi => exact ⟨List.not_mem_nil, hnot hhi⟩
  rw [hraw]
  simp only [List.mem_append, List.mem_cons, not_or]
  exact ⟨not_mem_of_blank (by decide) hlead, by decide, padded_notMem hlo (by decide) hdigits.1, by decide,
    padded_notMem hhi (by decide) hdigits.2⟩

/-- Where the parts are, there is a hyphen. -/
theorem hyphened_iff : Hyphened raw ↔ ∃ lo hi, partsOf raw.toList = some (lo, hi) := by
  constructor
  · rintro ⟨lead, spec, hlead, hhyphen, hcomma, hraw⟩
    obtain ⟨lo', hi', hsplit, hnot⟩ := List.eq_append_cons_of_mem hhyphen
    rw [hsplit] at hcomma hraw
    simp only [List.mem_append, List.mem_cons, not_or] at hcomma
    exact ⟨_, _, partsOf_eq_some_iff.2 ⟨lead, lo', hi', hlead, hraw, hnot, by simp [hcomma], rfl, rfl⟩⟩
  · rintro ⟨lo, hi, hparts⟩
    obtain ⟨lead, lo', hi', hlead, hraw, -, hcomma, -, -⟩ := partsOf_eq_some_iff.1 hparts
    rw [List.mem_append, not_or] at hcomma
    exact ⟨lead, lo' ++ '-' :: hi', hlead, by simp, by simp [hcomma], hraw⟩

end

/-! ## The answer -/

/-- The answer for a range. -/
def ByteRange.answer (total : Nat) (range : ByteRange) : RangeSpec :=
  match range.resolve total with
  | some (start, stop) => .satisfiable start stop
  | none => .unsatisfiable

theorem not_u64_nil {n : Nat} (h : U64 [] n) : False :=
  (numeral_u64 [] n h).1 rfl

/-- In an object that is not empty, the parser answers the range that it reads. -/
theorem rangeOf_spec {total : Nat} (htotal : total ≠ 0) (lo hi : List Char) :
    (∃ range : ByteRange, range.Parts U64 lo hi ∧ rangeOf total lo hi = range.answer total) ∨
      ((¬∃ range : ByteRange, range.Parts U64 lo hi) ∧ rangeOf total lo hi = .ignore) := by
  unfold rangeOf
  dsimp only
  by_cases hlo : lo = []
  · subst hlo
    by_cases hhi : hi = []
    · subst hhi
      refine .inr ⟨?_, rfl⟩
      rintro ⟨range, hparts⟩
      cases hparts with
      | closed hlo _ _ => exact not_u64_nil hlo
      | fromByte hlo => exact not_u64_nil hlo
      | suffix hhi => exact not_u64_nil hhi
    · rw [if_pos rfl, if_neg hhi]
      cases hn : parseU64 hi with
      | none =>
        refine .inr ⟨?_, rfl⟩
        rintro ⟨range, hparts⟩
        cases hparts with
        | closed hlo _ _ => exact not_u64_nil hlo
        | fromByte _ => exact hhi rfl
        | suffix hhi => exact Option.some_ne_none _ (hhi.symm.trans hn)
      | some n =>
        refine .inl ⟨.suffix n, .suffix hn, ?_⟩
        cases n with
        | zero => simp [ByteRange.answer, ByteRange.resolve]
        | succ n =>
          have hpos : 0 < total := Nat.pos_of_ne_zero htotal
          simp [ByteRange.answer, ByteRange.resolve, hpos]
  · rw [if_neg hlo]
    by_cases hhi : hi = []
    · subst hhi
      rw [if_pos rfl]
      cases hs : parseU64 lo with
      | none =>
        refine .inr ⟨?_, rfl⟩
        rintro ⟨range, hparts⟩
        cases hparts with
        | closed _ hhi _ => exact not_u64_nil hhi
        | fromByte hlo => exact Option.some_ne_none _ (hlo.symm.trans hs)
        | suffix hhi => exact not_u64_nil hhi
      | some s =>
        refine .inl ⟨.fromByte s, .fromByte hs, ?_⟩
        have hlast : s ≤ total - 1 ↔ s < total := by omega
        by_cases hin : s < total <;> simp [ByteRange.answer, ByteRange.resolve, hlast, hin]
    · rw [if_neg hhi]
      have hclosed : ∀ range : ByteRange, range.Parts U64 lo hi →
          ∃ s e, range = .closed s e ∧ parseU64 lo = some s ∧ parseU64 hi = some e ∧ s ≤ e := by
        intro range hparts
        cases hparts with
        | closed hlo hhi hle => exact ⟨_, _, rfl, hlo, hhi, hle⟩
        | fromByte _ => exact absurd rfl hhi
        | suffix _ => exact absurd rfl hlo
      cases hs : parseU64 lo with
      | none =>
        refine .inr ⟨?_, rfl⟩
        rintro ⟨range, hparts⟩
        obtain ⟨s, e, -, hs', -⟩ := hclosed range hparts
        exact Option.some_ne_none _ (hs'.symm.trans hs)
      | some s =>
        cases he : parseU64 hi with
        | none =>
          refine .inr ⟨?_, rfl⟩
          rintro ⟨range, hparts⟩
          obtain ⟨s', e, -, -, he', -⟩ := hclosed range hparts
          exact Option.some_ne_none _ (he'.symm.trans he)
        | some e =>
          dsimp only
          by_cases hle : s ≤ e
          · refine .inl ⟨.closed s e, .closed hs he hle, ?_⟩
            rw [if_neg (by omega)]
            have hlast : total - 1 < s ↔ ¬s < total := by omega
            by_cases hin : s < total <;> simp [ByteRange.answer, ByteRange.resolve, hlast, hin]
          · rw [if_pos (by omega)]
            refine .inr ⟨?_, rfl⟩
            rintro ⟨range, hparts⟩
            obtain ⟨s', e', -, hs', he', hle'⟩ := hclosed range hparts
            obtain rfl : s' = s := Option.some_inj.1 (hs'.symm.trans hs)
            obtain rfl : e' = e := Option.some_inj.1 (he'.symm.trans he)
            exact hle hle'

/-- The answer to a header whose parts are read. -/
theorem parseRange_spec {raw : String} {total : Nat} (htotal : total ≠ 0) :
    (∃ range, Requests U64 raw range ∧ parseRange raw total = range.answer total) ∨
      ((¬∃ range, Requests U64 raw range) ∧ parseRange raw total = .ignore) := by
  simp only [requests_iff numeral_u64]
  unfold parseRange
  cases hparts : partsOf raw.toList with
  | none => exact .inr ⟨fun ⟨range, lo, hi, hsome, _⟩ => Option.some_ne_none _ hsome.symm, rfl⟩
  | some parts =>
    obtain ⟨lo, hi⟩ := parts
    dsimp only
    rw [if_neg htotal]
    rcases rangeOf_spec htotal lo hi with ⟨range, hrange, hanswer⟩ | ⟨hnone, hanswer⟩
    · exact .inl ⟨range, ⟨lo, hi, rfl, hrange⟩, hanswer⟩
    · refine .inr ⟨?_, hanswer⟩
      rintro ⟨range, lo', hi', hsome, hrange⟩
      cases hsome
      exact hnone ⟨range, hrange⟩

theorem parseRange_zero (raw : String) :
    (Hyphened raw ∧ parseRange raw 0 = .unsatisfiable) ∨ (¬Hyphened raw ∧ parseRange raw 0 = .ignore) := by
  rw [hyphened_iff]
  unfold parseRange
  cases hparts : partsOf raw.toList with
  | none => exact .inr ⟨fun ⟨lo, hi, hsome⟩ => Option.some_ne_none _ hsome.symm, rfl⟩
  | some parts => exact .inl ⟨⟨parts.1, parts.2, rfl⟩, rfl⟩

theorem ByteRange.resolve_bounds {range : ByteRange} {total start stop : Nat}
    (hle : ∀ first last, range = .closed first last → first ≤ last)
    (h : range.resolve total = some (start, stop)) : start ≤ stop ∧ stop < total := by
  cases range with
  | closed first last =>
    have hfirst := hle first last rfl
    simp only [resolve, Option.ite_none_right_eq_some, Option.some_inj, Prod.mk.injEq] at h
    omega
  | fromByte first =>
    simp only [resolve, Option.ite_none_right_eq_some, Option.some_inj, Prod.mk.injEq] at h
    omega
  | suffix length =>
    simp only [resolve, Option.ite_none_right_eq_some, Option.some_inj, Prod.mk.injEq] at h
    omega

/-- A range that is answered lies within the object. -/
theorem parseRange_bounds {raw : String} {total start stop : Nat}
    (h : parseRange raw total = .satisfiable start stop) : start ≤ stop ∧ stop < total := by
  rcases Nat.eq_zero_or_pos total with rfl | hpos
  · rcases parseRange_zero raw with ⟨-, hzero⟩ | ⟨-, hzero⟩ <;> rw [hzero] at h <;> cases h
  · rcases parseRange_spec (Nat.ne_of_gt hpos) with ⟨range, hrange, hanswer⟩ | ⟨-, hanswer⟩
    · obtain ⟨lead, lo, hi, lo', hi', -, hparts, -⟩ := hrange
      have hle : ∀ first last, range = .closed first last → first ≤ last := by
        rintro first last rfl
        cases hparts with
        | closed _ _ hle => exact hle
      rw [hanswer] at h
      unfold ByteRange.answer at h
      split at h
      · rename_i start' stop' hresolve
        cases h
        exact ByteRange.resolve_bounds hle hresolve
      · cases h
    · rw [hanswer] at h
      cases h

/-- The slices that are taken are in range. -/
theorem serveBytes_reports (ifNoneMatch range : Option String) (id contentType : String) (bytes : Bytes)
    (isPrivate : Bool) :
    ∃ response, serveBytes ifNoneMatch range id contentType bytes isPrivate = some response ∧
      response.Reports bytes := by
  unfold serveBytes
  dsimp only
  split
  · exact ⟨_, rfl, by simp [Response.Reports]⟩
  · split
    · rename_i start stop hrange
      obtain ⟨raw, rfl, hparse⟩ := Option.map_eq_some_iff.1 hrange
      obtain ⟨hle, hlt⟩ := parseRange_bounds hparse
      have hslice : sliceInclusive bytes start stop = some ((bytes.take (stop + 1)).drop start) :=
        if_pos ⟨by omega, hlt⟩
      rw [hslice]
      refine ⟨_, rfl, ?_⟩
      rw [Response.Reports, if_pos rfl]
      refine ⟨start, stop, by simp, hle, hlt, List.drop_take .., ?_⟩
      simp
      omega
    · exact ⟨_, rfl, by simp [Response.Reports]⟩
    · exact ⟨_, rfl, by simp [Response.Reports]⟩

theorem conforms_answer {raw : String} {total : Nat} {range : ByteRange} (h : Requests Decimal raw range) :
    Conforms raw total (range.answer total) := by
  unfold ByteRange.answer
  split
  · rename_i start stop hresolve
    exact ⟨range, h, hresolve⟩
  · rename_i hresolve
    exact ⟨range, h, hresolve⟩

/-- Without a sign, the numbers of a request are decimal. -/
theorem Requests.decimal {raw : String} {range : ByteRange} (h : Requests U64 raw range) (hsign : '+' ∉ raw.toList) :
    Requests Decimal raw range := by
  obtain ⟨lo, hi, hparts, hrange⟩ := (requests_iff numeral_u64).1 h
  refine (requests_iff numeral_decimal).2 ⟨lo, hi, hparts, hrange.imp fun t n ht _ hnumber => ?_⟩
  rcases (parseU64_eq_some_iff.1 hnumber).1 with hdecimal | ⟨digits, rfl, -⟩
  · exact hdecimal
  · refine absurd (partsOf_subset hparts ?_) hsign
    rcases ht with rfl | rfl <;> simp

theorem Requests.u64 {raw : String} {range : ByteRange} (h : Requests Signed raw range)
    (hsmall : ∀ n ∈ range.numbers, n < 2 ^ 64) : Requests U64 raw range := by
  obtain ⟨lo, hi, hparts, hrange⟩ := (requests_iff numeral_signed).1 h
  exact (requests_iff numeral_u64).2
    ⟨lo, hi, hparts, hrange.imp fun t n _ hn hnumber => parseU64_eq_some_iff.2 ⟨hnumber, hsmall n hn⟩⟩

theorem Requests.signed {raw : String} {range : ByteRange} (h : Requests U64 raw range) :
    Requests Signed raw range ∧ ∀ n ∈ range.numbers, n < 2 ^ 64 := by
  obtain ⟨lo, hi, hparts, hrange⟩ := (requests_iff numeral_u64).1 h
  refine ⟨(requests_iff numeral_signed).2
    ⟨lo, hi, hparts, hrange.imp fun t n _ _ hnumber => (parseU64_eq_some_iff.1 hnumber).1⟩, fun n hn => ?_⟩
  rcases hrange.number n hn with hnumber | hnumber <;> exact (parseU64_eq_some_iff.1 hnumber).2

theorem Requests.toSigned {raw : String} {range : ByteRange} (h : Requests Decimal raw range) :
    Requests Signed raw range := by
  obtain ⟨lead, lo, hi, lo', hi', hlead, hparts, hrest⟩ := h
  exact ⟨lead, lo, hi, lo', hi', hlead, hparts.imp fun _ _ _ _ hnumber => .inl hnumber, hrest⟩

theorem Requests.unique {raw : String} {range range' : ByteRange} (h : Requests Decimal raw range)
    (h' : Requests Decimal raw range') : range = range' := by
  obtain ⟨lo, hi, hparts, hrange⟩ := (requests_iff numeral_decimal).1 h
  obtain ⟨lo', hi', hparts', hrange'⟩ := (requests_iff numeral_decimal).1 h'
  cases hparts.symm.trans hparts'
  exact hrange.unique hrange' numeral_decimal fun t n n' hn hn' => Option.some_inj.1 (hn.symm.trans hn')

/-- The answer is that of the grammar just where no header is taken another way. -/
theorem conforms_iff (raw : String) (total : Nat) :
    Conforms raw total (parseRange raw total) ↔ ReadAsWritten raw total := by
  unfold ReadAsWritten
  by_cases htotal : total = 0
  · subst htotal
    rw [if_pos rfl]
    have hvalid : Valid raw ↔ ∃ range, Requests Decimal raw range ∧ range.resolve 0 = none := by
      constructor
      · rintro ⟨range, hrange⟩
        exact ⟨range, hrange, by cases range <;> simp [ByteRange.resolve]⟩
      · rintro ⟨range, hrange, -⟩
        exact ⟨range, hrange⟩
    rcases parseRange_zero raw with ⟨hhyphened, hzero⟩ | ⟨hnot, hzero⟩
    · rw [hzero]
      exact hvalid.symm.trans ⟨fun h _ => h, fun h => h hhyphened⟩
    · rw [hzero]
      refine ⟨fun _ hhyphened => absurd hhyphened hnot, fun _ ⟨range, hrange⟩ => hnot ?_⟩
      obtain ⟨lo, hi, hparts, -⟩ := (requests_iff numeral_decimal).1 hrange
      exact hyphened_iff.2 ⟨lo, hi, hparts⟩
  · rw [if_neg htotal]
    rcases parseRange_spec htotal with ⟨range, hrange, hanswer⟩ | ⟨hnone, hanswer⟩
    · rw [hanswer]
      obtain ⟨hsigned, hsmall⟩ := hrange.signed
      by_cases hsign : '+' ∈ raw.toList
      · refine ⟨fun hconforms => ?_, fun h => absurd ⟨hsign, range, hsigned, hsmall⟩ h.1⟩
        unfold ByteRange.answer at hconforms
        split at hconforms <;>
        · obtain ⟨range', hrange', -⟩ := hconforms
          exact absurd hsign hrange'.unsigned
      · have hdecimal := hrange.decimal hsign
        refine ⟨fun _ => ⟨fun h => hsign h.1, ?_⟩, fun _ => conforms_answer hdecimal⟩
        rintro ⟨range', hrange', n, hn, hlarge⟩
        rw [← hdecimal.unique hrange'] at hn
        have hn := hsmall n hn
        omega
    · rw [hanswer]
      constructor
      · intro hnot
        refine ⟨?_, fun ⟨range, hrange, _⟩ => hnot ⟨range, hrange⟩⟩
        rintro ⟨-, range, hrange, hsmall⟩
        exact hnone ⟨range, hrange.u64 hsmall⟩
      · rintro ⟨-, hoverflows⟩ ⟨range, hrange⟩
        refine hoverflows ⟨range, hrange, ?_⟩
        by_contra hsmall
        push Not at hsmall
        exact hnone ⟨range, hrange.toSigned.u64 hsmall⟩

/-- A header and a length are answered as claimed, and the bytes with it, just where no header is taken another way
than the grammar. -/
theorem answered_iff (raw : String) (total : Nat) : Answered raw total ↔ ReadAsWritten raw total :=
  ⟨fun h => (conforms_iff raw total).1 h.answer, fun h =>
    { answer := (conforms_iff raw total).2 h
      bounds := fun _ _ hparse => parseRange_bounds hparse
      served := fun bytes _ ifNoneMatch id contentType isPrivate =>
        serveBytes_reports ifNoneMatch (some raw) id contentType bytes isPrivate }⟩

/-- `bytes=+0-5` is no range, and six bytes of ten are sent for it. -/
theorem signed_range_served :
    parseRange "bytes=+0-5" 10 = .satisfiable 0 5 ∧ ¬Valid "bytes=+0-5" ∧ ¬Answered "bytes=+0-5" 10 := by
  have hparse : parseRange "bytes=+0-5" 10 = .satisfiable 0 5 := by decide
  have hnot : ¬Valid "bytes=+0-5" := by
    rintro ⟨range, hrange⟩
    exact absurd hrange.unsigned (by decide)
  refine ⟨hparse, hnot, fun h => ?_⟩
  have hanswer := h.answer
  rw [hparse] at hanswer
  obtain ⟨range, hrange, -⟩ := hanswer
  exact hnot ⟨range, hrange⟩

example : parseRange " bytes=0-0 " 1000 = .satisfiable 0 0 := by decide

end Atomo.Media
