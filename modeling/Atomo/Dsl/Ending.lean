import Atomo.Dsl.Scan

/-!
# Where the loops of the DSL parser end

Beside each loop over the bytes stands the scan over the characters that it amounts to (`balance_eq`,
`chainEnd_eq`, `splitCommas_eq`). Where a loop ends is read off it, also where it runs past the end of the
text, and so is which cuts are possible.
-/

namespace Atomo.Dsl

open String (utf8Len utf8EncodeChar)
open Utf8 (bytes code slice sliceFrom sliceTo)

/-! ## The scans over the characters -/

/-- How a scan ends: at the bracket that closes, or at the end of the text, there within a string or not.
`escaped` says that a backslash of the string came last. -/
inductive Ending where
  | closed (body rest : List Char)
  | unclosed
  | inString (escaped : Bool)
  deriving DecidableEq

def Ending.push (c : Char) : Ending → Ending
  | .closed body rest => .closed (c :: body) rest
  | e => e

/-- The scan of `balance`; `quote` is the quote of the string that it is in. -/
def ending (br : Brackets) : Nat → Option Char → Bool → List Char → Ending
  | _, none, _, [] => .unclosed
  | _, some _, escaped, [] => .inString escaped
  | depth, some q, escaped, c :: v =>
    if escaped then (ending br depth (some q) false v).push c
    else if c = q then (ending br depth none false v).push c
    else (ending br depth (some q) (c = '\\') v).push c
  | depth, none, _, c :: v =>
    if c = br.opening then (ending br (depth + 1) none false v).push c
    else if c = br.closing then if depth = 1 then .closed [] v else (ending br (depth - 1) none false v).push c
    else if c ∈ br.quotes then (ending br depth (some c) false v).push c
    else (ending br depth none false v).push c

theorem Ending.push_eq_closed {c : Char} {e : Ending} {body rest : List Char} :
    e.push c = .closed body rest ↔ ∃ body', e = .closed body' rest ∧ body = c :: body' := by
  cases e with
  | closed body' rest' =>
    constructor
    · intro h
      cases h
      exact ⟨body', rfl, rfl⟩
    · rintro ⟨_, h, rfl⟩
      cases h
      rfl
  | unclosed => simp [Ending.push]
  | inString escaped => simp [Ending.push]

theorem ending_closed {br : Brackets} {depth : Nat} {quote : Option Char} {escaped : Bool} {v body rest : List Char}
    (h : ending br depth quote escaped v = .closed body rest) : v = body ++ br.closing :: rest := by
  induction v generalizing depth quote escaped body with
  | nil => cases quote <;> cases h
  | cons c v ih =>
    have hstep : ∀ {depth' quote' escaped'}, (ending br depth' quote' escaped' v).push c = .closed body rest →
        c :: v = body ++ br.closing :: rest := by
      intro depth' quote' escaped' he
      obtain ⟨body', hending, rfl⟩ := Ending.push_eq_closed.1 he
      rw [List.cons_append, ← ih hending]
    cases quote with
    | some q =>
      rw [ending] at h
      split at h
      · exact hstep h
      · split at h <;> exact hstep h
    | none =>
      rw [ending] at h
      split at h
      · exact hstep h
      · split at h
        · rename_i hclosing
          split at h
          · cases h
            rw [hclosing, List.nil_append]
          · exact hstep h
        · split at h <;> exact hstep h

/-- The index that a scan of the text behind `before` ends with; past the end, a string that is not closed
counts as one byte more, and as two if a backslash comes last. -/
def Ending.stop (before total : Nat) : Ending → Nat
  | .closed body _ => before + utf8Len body + 1
  | .unclosed => total
  | .inString escaped => total + if escaped then 2 else 1

def Ending.isClosed : Ending → Bool
  | .closed _ _ => true
  | _ => false

theorem Ending.stop_push (c : Char) (before total : Nat) (e : Ending) :
    (e.push c).stop before total = e.stop (before + c.utf8Size) total := by
  cases e with
  | closed body rest =>
    simp only [Ending.push, Ending.stop, String.utf8Len_cons]
    omega
  | unclosed => rfl
  | inString escaped => rfl

@[simp] theorem Ending.isClosed_push (c : Char) (e : Ending) : (e.push c).isClosed = e.isClosed := by
  cases e <;> rfl

/-- A test for bytes, on the characters that are one byte. -/
def onAscii (p : UInt8 → Bool) (c : Char) : Bool :=
  c.toNat < 128 && p (code c)

/-- What follows the name of a call. -/
def afterName (l : List Char) : List Char :=
  (l.dropWhile (onAscii isNameByte)).dropWhile (onAscii isBlankByte)

theorem length_afterName_le (l : List Char) : (afterName l).length ≤ l.length :=
  Nat.le_trans (List.dropWhile_suffix (onAscii isBlankByte)).length_le
    (List.dropWhile_suffix (onAscii isNameByte)).length_le

/-- What is behind the chain of calls at the start of a text; no value where a string in one of the calls
does not end. -/
def chainRest (l : List Char) : Option (List Char) :=
  match l with
  | [] => some []
  | c :: v =>
    if onAscii isGapByte c then chainRest v
    else if c = '.' then
      match _ : afterName v with
      | [] => some []
      | d :: w =>
        if d = '(' then
          match _ : ending parens 1 none false w with
          | .closed _ rest => chainRest rest
          | .unclosed => some []
          | .inString _ => none
        else chainRest (d :: w)
    else some (c :: v)
termination_by l.length
decreasing_by
  · exact Nat.lt_succ_self _
  · rename_i hname _ _ hcall
    have hle := length_afterName_le v
    have hlen := congrArg List.length (ending_closed hcall)
    rw [hname, List.length_cons] at hle
    rw [List.length_append, List.length_cons] at hlen
    rw [List.length_cons]
    omega
  · rename_i hname _
    have hle := length_afterName_le v
    rw [hname, List.length_cons] at hle
    rw [List.length_cons, List.length_cons]
    omega

theorem chainRest_call {v w : List Char} (hafter : afterName v = '(' :: w) :
    chainRest ('.' :: v) =
      match ending parens 1 none false w with
      | .closed _ rest => chainRest rest
      | .unclosed => some []
      | .inString _ => none := by
  conv_lhs => rw [chainRest, if_neg (by decide), if_pos rfl]
  split
  · rename_i hnil
    rw [hafter] at hnil
    cases hnil
  · rename_i d w' hcons
    rw [hafter] at hcons
    cases hcons
    rw [if_pos rfl]
    split <;> rename_i hcall <;> rw [hcall]

theorem chainRest_member {v : List Char} (hafter : (afterName v).head? ≠ some '(') :
    chainRest ('.' :: v) = chainRest (afterName v) := by
  conv_lhs => rw [chainRest, if_neg (by decide), if_pos rfl]
  split
  · rename_i hnil
    rw [hnil, chainRest]
  · rename_i d w hcons
    rw [hcons] at hafter ⊢
    rw [if_neg fun h => hafter (congrArg some h)]

/-! ## The loops over UTF-8 -/

section Loops

variable {br : Brackets} {bs : List UInt8} {q : Char} {i : Nat}

theorem skipString_of_le (q : UInt8) (h : bs.length ≤ i) : skipString bs q i = i := by
  rw [skipString, dif_neg (by omega)]

theorem balance_of_le (depth : Nat) (h : bs.length ≤ i) : balance br bs depth i = (depth, i) := by
  rw [balance, dif_neg (by omega)]

/-- Bytes of 128 or more are none of those that a scan looks for. -/
theorem ne_code {b : UInt8} (hb : 128 ≤ b.toNat) {c : Char} (hc : c.toNat < 128) : b ≠ code c := by
  rintro rfl
  rw [Utf8.code_toNat hc] at hb
  omega

theorem skipString_wide (hq : q.toNat < 128) {n : Nat} (h : ∀ k < n, ∃ b, bs[i + k]? = some b ∧ 128 ≤ b.toNat) :
    skipString bs (code q) i = skipString bs (code q) (i + n) := by
  induction n with
  | zero => rfl
  | succ n ih =>
    rw [ih fun k hk => h k (by omega)]
    obtain ⟨b, hb, hwide⟩ := h n (by omega)
    obtain ⟨hlt, rfl⟩ := List.getElem?_eq_some_iff.1 hb
    rw [skipString, dif_pos hlt, if_neg (ne_code hwide hq), if_neg (ne_code hwide (by decide))]
    rfl

theorem isQuote_code {c : Char} (hc : c.toNat < 128) : br.isQuote (code c) = true ↔ c ∈ br.quotes := by
  unfold Brackets.isQuote
  rw [List.any_eq_true]
  constructor
  · rintro ⟨d, hd, heq⟩
    rw [decide_eq_true_eq, Utf8.code_inj (br.quote_lt hd) hc] at heq
    exact heq ▸ hd
  · intro h
    exact ⟨c, h, by simp⟩

theorem isQuote_wide {b : UInt8} (hb : 128 ≤ b.toNat) : br.isQuote b = false := by
  unfold Brackets.isQuote
  rw [List.any_eq_false]
  intro d hd heq
  exact ne_code hb (br.quote_lt hd) (of_decide_eq_true heq).symm

theorem balance_wide {depth : Nat} (hdepth : 0 < depth) {n : Nat}
    (h : ∀ k < n, ∃ b, bs[i + k]? = some b ∧ 128 ≤ b.toNat) :
    balance br bs depth i = balance br bs depth (i + n) := by
  induction n with
  | zero => rfl
  | succ n ih =>
    rw [ih fun k hk => h k (by omega)]
    obtain ⟨b, hb, hwide⟩ := h n (by omega)
    obtain ⟨hlt, rfl⟩ := List.getElem?_eq_some_iff.1 hb
    rw [balance, dif_pos ⟨hlt, hdepth⟩, if_neg (ne_code hwide br.opening_lt),
      if_neg (ne_code hwide br.closing_lt), isQuote_wide hwide]
    rfl

/-- The string goes on, over a byte that is neither its quote nor a backslash or with the byte behind one. -/
theorem utf8Len_push (u : List Char) (c : Char) : utf8Len (u ++ [c]) = utf8Len u + c.utf8Size := by
  rw [String.utf8Len_append, String.utf8Len_cons, String.utf8Len_nil, Nat.zero_add]

theorem skipString_step {c : Char} {u v : List Char} (hq : q.toNat < 128) (hc : c ≠ q) :
    skipString (bytes (u ++ c :: v)) (code q) (utf8Len u) =
      skipString (bytes (u ++ c :: v)) (code q)
        (utf8Len (u ++ [c]) + if c = '\\' then 1 else 0) := by
  rw [String.utf8Len_append, String.utf8Len_cons, String.utf8Len_nil]
  by_cases hwide : c.toNat < 128
  · obtain ⟨hlt, hb⟩ := List.getElem?_eq_some_iff.1 (Utf8.getElem?_bytes_ascii hwide u v)
    rw [skipString, dif_pos hlt, hb, if_neg (mt (Utf8.code_inj hwide hq).1 hc), Utf8.utf8Size_of_ascii hwide]
    congr 1
    simp only [Utf8.code_inj hwide (show ('\\').toNat < 128 by decide)]
    split <;> omega
  · have hslash : c ≠ '\\' := by
      rintro rfl
      exact hwide (by decide)
    rw [if_neg hslash, Nat.zero_add, Nat.add_zero]
    refine skipString_wide hq fun k hk => ?_
    have hlt : utf8Len u + k < (bytes (u ++ c :: v)).length := by
      rw [Utf8.length_bytes, String.utf8Len_append, String.utf8Len_cons]
      omega
    exact ⟨_, List.getElem?_eq_getElem hlt,
      Utf8.le_of_getElem?_bytes (by omega) hk (List.getElem?_eq_getElem hlt)⟩

/-- Whatever character the backslash takes along, the string goes on behind it. -/
theorem skipString_escaped (c : Char) (u v : List Char) (hq : q.toNat < 128) :
    skipString (bytes (u ++ c :: v)) (code q) (utf8Len u + 1) =
      skipString (bytes (u ++ c :: v)) (code q) (utf8Len (u ++ [c])) := by
  have hlen : utf8Len (u ++ [c]) = utf8Len u + 1 + (c.utf8Size - 1) := by
    have hpos := c.utf8Size_pos
    rw [String.utf8Len_append, String.utf8Len_cons, String.utf8Len_nil]
    omega
  rw [hlen]
  by_cases hwide : c.toNat < 128
  · rw [Utf8.utf8Size_of_ascii hwide, Nat.sub_self, Nat.add_zero]
  · refine skipString_wide hq fun k hk => ?_
    have hlt : utf8Len u + (1 + k) < (bytes (u ++ c :: v)).length := by
      rw [Utf8.length_bytes, String.utf8Len_append, String.utf8Len_cons]
      omega
    rw [Nat.add_assoc]
    exact ⟨_, List.getElem?_eq_getElem hlt,
      Utf8.le_of_getElem?_bytes (by omega) (by omega) (List.getElem?_eq_getElem hlt)⟩

theorem balance_step (br : Brackets) {depth : Nat} (hdepth : 0 < depth) (c : Char) (u v : List Char) :
    balance br (bytes (u ++ c :: v)) depth (utf8Len u) =
      if c = br.opening then balance br (bytes (u ++ c :: v)) (depth + 1) (utf8Len (u ++ [c]))
      else if c = br.closing then balance br (bytes (u ++ c :: v)) (depth - 1) (utf8Len (u ++ [c]))
      else if c ∈ br.quotes then
        balance br (bytes (u ++ c :: v)) depth
          (skipString (bytes (u ++ c :: v)) (code c) (utf8Len (u ++ [c])) + 1)
      else balance br (bytes (u ++ c :: v)) depth (utf8Len (u ++ [c])) := by
  have hopening := br.opening_lt
  have hclosing := br.closing_lt
  rw [String.utf8Len_append, String.utf8Len_cons, String.utf8Len_nil]
  by_cases hwide : c.toNat < 128
  · obtain ⟨hlt, hb⟩ := List.getElem?_eq_some_iff.1 (Utf8.getElem?_bytes_ascii hwide u v)
    rw [balance, dif_pos ⟨hlt, hdepth⟩, hb, Utf8.utf8Size_of_ascii hwide]
    simp only [Utf8.code_inj hwide hopening, Utf8.code_inj hwide hclosing, isQuote_code hwide, Nat.zero_add]
  · have hquotes : c ∉ br.quotes := fun h => hwide (br.quote_lt h)
    rw [if_neg (by rintro rfl; exact hwide hopening), if_neg (by rintro rfl; exact hwide hclosing),
      if_neg hquotes, Nat.zero_add]
    refine balance_wide hdepth fun k hk => ?_
    have hlt : utf8Len u + k < (bytes (u ++ c :: v)).length := by
      rw [Utf8.length_bytes, String.utf8Len_append, String.utf8Len_cons]
      omega
    exact ⟨_, List.getElem?_eq_getElem hlt,
      Utf8.le_of_getElem?_bytes (by omega) hk (List.getElem?_eq_getElem hlt)⟩

/-- The loop from within its course: in the string that `quote` opened, behind a backslash or not. -/
def resume (br : Brackets) (bs : List UInt8) (depth : Nat) : Option Char → Bool → Nat → Nat × Nat
  | none, _, i => balance br bs depth i
  | some q, escaped, i => balance br bs depth (skipString bs (code q) (if escaped then i + 1 else i) + 1)

/-- Where the loop ends is where the scan over the characters does. -/
theorem resume_eq (br : Brackets) {depth : Nat} (hdepth : 0 < depth) (quote : Option Char)
    (hquote : ∀ q ∈ quote, q.toNat < 128) (escaped : Bool) (u v : List Char) :
    (resume br (bytes (u ++ v)) depth quote escaped (utf8Len u)).2 =
        (ending br depth quote escaped v).stop (utf8Len u) (utf8Len (u ++ v)) ∧
      ((resume br (bytes (u ++ v)) depth quote escaped (utf8Len u)).1 = 0 ↔
        (ending br depth quote escaped v).isClosed = true) := by
  induction v generalizing depth quote escaped u with
  | nil =>
    have hbytes : (bytes (u ++ [])).length = utf8Len u := by rw [Utf8.length_bytes, List.append_nil]
    cases quote with
    | none =>
      rw [resume, balance_of_le depth (by omega), ending, List.append_nil]
      simp only [Ending.stop, Ending.isClosed, Bool.false_eq_true, iff_false, true_and]
      omega
    | some q =>
      have hskip : skipString (bytes (u ++ [])) (code q) (if escaped then utf8Len u + 1 else utf8Len u) =
          if escaped then utf8Len u + 1 else utf8Len u :=
        skipString_of_le _ (by split <;> omega)
      rw [resume, hskip, balance_of_le depth (by split <;> omega), ending, List.append_nil]
      simp only [Ending.stop, Ending.isClosed, Bool.false_eq_true, iff_false]
      refine ⟨?_, by omega⟩
      split <;> rfl
  | cons c v ih =>
    have hlen : utf8Len (u ++ [c]) = utf8Len u + c.utf8Size := by
      rw [String.utf8Len_append, String.utf8Len_cons, String.utf8Len_nil, Nat.zero_add]
    -- one character on, the loop and the scan stand in the same state again
    have hnext : ∀ depth' quote' escaped', 0 < depth' → (∀ q ∈ quote', q.toNat < 128) →
        resume br (bytes (u ++ c :: v)) depth quote escaped (utf8Len u) =
          resume br (bytes (u ++ c :: v)) depth' quote' escaped' (utf8Len (u ++ [c])) →
        ending br depth quote escaped (c :: v) = (ending br depth' quote' escaped' v).push c →
        (resume br (bytes (u ++ c :: v)) depth quote escaped (utf8Len u)).2 =
            (ending br depth quote escaped (c :: v)).stop (utf8Len u) (utf8Len (u ++ c :: v)) ∧
          ((resume br (bytes (u ++ c :: v)) depth quote escaped (utf8Len u)).1 = 0 ↔
            (ending br depth quote escaped (c :: v)).isClosed = true) := by
      intro depth' quote' escaped' hdepth' hquote' hresume hending
      have hrest := ih hdepth' quote' hquote' escaped' (u ++ [c])
      rw [List.append_assoc, List.singleton_append] at hrest
      rw [hresume, hending, Ending.stop_push, Ending.isClosed_push, ← hlen]
      exact hrest
    cases quote with
    | some q =>
      have hq : q.toNat < 128 := hquote q rfl
      cases escaped with
      | true =>
        refine hnext depth (some q) false hdepth hquote ?_ ?_
        · rw [resume, resume, if_pos rfl, if_neg (by decide), skipString_escaped c u v hq]
        · rw [ending, if_pos rfl]
      | false =>
        by_cases hc : c = q
        · subst hc
          refine hnext depth none false hdepth (by simp) ?_ ?_
          · obtain ⟨hlt, hb⟩ := List.getElem?_eq_some_iff.1 (Utf8.getElem?_bytes_ascii hq u v)
            rw [resume, resume, if_neg (by decide), skipString, dif_pos hlt, if_pos hb, hlen,
              Utf8.utf8Size_of_ascii hq]
          · rw [ending, if_neg (by decide), if_pos rfl]
        · refine hnext depth (some q) (c = '\\') hdepth hquote ?_ ?_
          · rw [resume, resume, if_neg (by decide), skipString_step hq hc]
            congr 3
            simp only [decide_eq_true_eq]
            split <;> omega
          · rw [ending, if_neg (by decide), if_neg hc]
    | none =>
      have hstep := balance_step br hdepth c u v
      by_cases hopening : c = br.opening
      · rw [if_pos hopening] at hstep
        refine hnext (depth + 1) none false (by omega) (by simp) hstep ?_
        rw [ending, if_pos hopening]
      · rw [if_neg hopening] at hstep
        by_cases hclosing : c = br.closing
        · rw [if_pos hclosing] at hstep
          by_cases hone : depth = 1
          · rw [resume, hstep, ending, if_neg hopening, if_pos hclosing, if_pos hone, hone, Nat.sub_self,
              balance, dif_neg (by omega), hlen, hclosing, Utf8.utf8Size_of_ascii br.closing_lt]
            simp only [Ending.stop, Ending.isClosed, String.utf8Len_nil, Nat.add_zero, iff_self, and_self]
          · refine hnext (depth - 1) none false (by omega) (by simp) hstep ?_
            rw [ending, if_neg hopening, if_pos hclosing, if_neg hone]
        · rw [if_neg hclosing] at hstep
          by_cases hmem : c ∈ br.quotes
          · rw [if_pos hmem] at hstep
            refine hnext depth (some c) false hdepth ?_ hstep ?_
            · intro q hq
              cases hq
              exact br.quote_lt hmem
            · rw [ending, if_neg hopening, if_neg hclosing, if_pos hmem]
          · rw [if_neg hmem] at hstep
            refine hnext depth none false hdepth (by simp) hstep ?_
            rw [ending, if_neg hopening, if_neg hclosing, if_neg hmem]

/-- Where `balance` ends behind an opening bracket. -/
theorem balance_eq (br : Brackets) (u v : List Char) :
    (balance br (bytes (u ++ v)) 1 (utf8Len u)).2 =
        (ending br 1 none false v).stop (utf8Len u) (utf8Len (u ++ v)) ∧
      ((balance br (bytes (u ++ v)) 1 (utf8Len u)).1 = 0 ↔ (ending br 1 none false v).isClosed = true) :=
  resume_eq br Nat.one_pos none (by simp) false u v

theorem skipWhile_eq {p : UInt8 → Bool} (hp : ∀ b : UInt8, 128 ≤ b.toNat → p b = false) (u v : List Char) :
    skipWhile p (bytes (u ++ v)) (utf8Len u) = utf8Len (u ++ v.takeWhile (onAscii p)) := by
  induction v generalizing u with
  | nil =>
    have hlen : (bytes (u ++ [])).length = utf8Len u := by rw [Utf8.length_bytes, List.append_nil]
    rw [skipWhile, dif_neg (by omega), List.takeWhile_nil, List.append_nil]
  | cons c v ih =>
    have hlt : utf8Len u < (bytes (u ++ c :: v)).length := by
      have hpos := c.utf8Size_pos
      rw [Utf8.length_bytes, String.utf8Len_append, String.utf8Len_cons]
      omega
    rw [skipWhile, dif_pos hlt, List.takeWhile_cons]
    by_cases hwide : c.toNat < 128
    · obtain ⟨_, hb⟩ := List.getElem?_eq_some_iff.1 (Utf8.getElem?_bytes_ascii hwide u v)
      have hnext : utf8Len u + 1 = utf8Len (u ++ [c]) := by
        rw [String.utf8Len_append, String.utf8Len_cons, String.utf8Len_nil, Utf8.utf8Size_of_ascii hwide]
      have honAscii : onAscii p c = p (code c) := by
        unfold onAscii
        rw [decide_eq_true hwide, Bool.true_and]
      rw [hb, honAscii]
      split
      · have hrest := ih (u ++ [c])
        rw [List.append_assoc, List.singleton_append] at hrest
        rw [hnext, hrest, List.append_assoc, List.singleton_append]
      · rw [List.append_nil]
    · have hbyte := Utf8.le_of_getElem?_bytes (u := u) (v := v) (Nat.le_of_not_lt hwide) c.utf8Size_pos
        (List.getElem?_eq_getElem hlt)
      have honAscii : onAscii p c = false := by
        unfold onAscii
        rw [decide_eq_false hwide, Bool.false_and]
      rw [hp _ hbyte, honAscii]
      simp only [Bool.false_eq_true, if_false, List.append_nil]

theorem isNameByte_wide (b : UInt8) (hb : 128 ≤ b.toNat) : isNameByte b = false := by
  have hb' : (128 : UInt8) ≤ b := hb
  unfold isNameByte
  grind

theorem isBlankByte_wide (b : UInt8) (hb : 128 ≤ b.toNat) : isBlankByte b = false := by
  have hb' : (128 : UInt8) ≤ b := hb
  unfold isBlankByte
  grind

theorem isGapByte_wide (b : UInt8) (hb : 128 ≤ b.toNat) : isGapByte b = false := by
  have hb' : (128 : UInt8) ≤ b := hb
  unfold isGapByte
  grind

theorem chainEnd_of_le (h : bs.length ≤ i) : chainEnd bs i = i := by
  rw [chainEnd, dif_neg (by omega)]

theorem chainEnd_gap {c : Char} (hgap : onAscii isGapByte c = true) (u v : List Char) :
    chainEnd (bytes (u ++ c :: v)) (utf8Len u) = chainEnd (bytes (u ++ c :: v)) (utf8Len (u ++ [c])) := by
  unfold onAscii at hgap
  rw [Bool.and_eq_true, decide_eq_true_eq] at hgap
  obtain ⟨hlt, hb⟩ := List.getElem?_eq_some_iff.1 (Utf8.getElem?_bytes_ascii hgap.1 u v)
  rw [chainEnd, dif_pos hlt, hb, if_pos hgap.2, utf8Len_push, Utf8.utf8Size_of_ascii hgap.1]

theorem chainEnd_stop {c : Char} (hgap : ¬onAscii isGapByte c = true) (hdot : c ≠ '.') (u v : List Char) :
    chainEnd (bytes (u ++ c :: v)) (utf8Len u) = utf8Len u := by
  have hlt : utf8Len u < (bytes (u ++ c :: v)).length := by
    have hpos := c.utf8Size_pos
    rw [Utf8.length_bytes, String.utf8Len_append, String.utf8Len_cons]
    omega
  rw [chainEnd, dif_pos hlt]
  by_cases hwide : c.toNat < 128
  · obtain ⟨_, hb⟩ := List.getElem?_eq_some_iff.1 (Utf8.getElem?_bytes_ascii hwide u v)
    rw [onAscii, decide_eq_true hwide, Bool.true_and] at hgap
    rw [hb, if_neg hgap, if_neg (mt (Utf8.code_inj hwide (by decide)).1 hdot)]
  · have hbyte := Utf8.le_of_getElem?_bytes (u := u) (v := v) (Nat.le_of_not_lt hwide) c.utf8Size_pos
      (List.getElem?_eq_getElem hlt)
    rw [isGapByte_wide _ hbyte, if_neg (by decide), if_neg (ne_code hbyte (by decide))]

/-- Behind the dot of a call stand its name and blanks. -/
theorem chainEnd_dot (u v : List Char) :
    ∃ name, v = name ++ afterName v ∧
      chainEnd (bytes (u ++ '.' :: v)) (utf8Len u) =
        if (bytes (u ++ '.' :: v))[utf8Len (u ++ '.' :: name)]? = some (code '(') then
          chainEnd (bytes (u ++ '.' :: v))
            (balance parens (bytes (u ++ '.' :: v)) 1 (utf8Len (u ++ '.' :: name) + 1)).2
        else chainEnd (bytes (u ++ '.' :: v)) (utf8Len (u ++ '.' :: name)) := by
  have hname : skipWhile isNameByte (bytes (u ++ '.' :: v)) (utf8Len u + 1) =
      utf8Len (u ++ '.' :: v.takeWhile (onAscii isNameByte)) := by
    have h := skipWhile_eq isNameByte_wide (u ++ ['.']) v
    rw [List.append_assoc, List.singleton_append, utf8Len_push, List.append_assoc, List.singleton_append] at h
    exact h
  have hblank : skipWhile isBlankByte (bytes (u ++ '.' :: v))
      (utf8Len (u ++ '.' :: v.takeWhile (onAscii isNameByte))) =
      utf8Len (u ++ '.' :: (v.takeWhile (onAscii isNameByte) ++
        (v.dropWhile (onAscii isNameByte)).takeWhile (onAscii isBlankByte))) := by
    have h := skipWhile_eq isBlankByte_wide (u ++ '.' :: v.takeWhile (onAscii isNameByte))
      (v.dropWhile (onAscii isNameByte))
    rw [List.append_assoc, List.cons_append, List.takeWhile_append_dropWhile, List.append_assoc,
      List.cons_append] at h
    exact h
  refine ⟨v.takeWhile (onAscii isNameByte) ++ (v.dropWhile (onAscii isNameByte)).takeWhile (onAscii isBlankByte),
    ?_, ?_⟩
  · rw [afterName, List.append_assoc, List.takeWhile_append_dropWhile, List.takeWhile_append_dropWhile]
  · obtain ⟨hlt, hb⟩ := List.getElem?_eq_some_iff.1 (Utf8.getElem?_bytes_ascii (c := '.') (by decide) u v)
    rw [chainEnd, dif_pos hlt, hb, if_neg (by decide), if_pos rfl, hname, hblank]

/-- A call: the end of its scan is that of the scan over its characters. -/
theorem chainEnd_call {v w : List Char} (hafter : afterName v = '(' :: w) (u : List Char) :
    ∃ name, v = name ++ '(' :: w ∧
      chainEnd (bytes (u ++ '.' :: v)) (utf8Len u) =
        chainEnd (bytes (u ++ '.' :: v))
          ((ending parens 1 none false w).stop (utf8Len (u ++ '.' :: name ++ ['('])) (utf8Len (u ++ '.' :: v))) := by
  obtain ⟨name, hv, hend⟩ := chainEnd_dot u v
  rw [hafter] at hv
  have hbytes : u ++ '.' :: v = u ++ '.' :: name ++ '(' :: w := by
    rw [hv, List.append_assoc, List.cons_append]
  have hopen : (bytes (u ++ '.' :: v))[utf8Len (u ++ '.' :: name)]? = some (code '(') := by
    rw [hbytes, Utf8.getElem?_bytes_ascii (by decide)]
  have hbalance := (balance_eq parens (u ++ '.' :: name ++ ['(']) w).1
  rw [List.append_assoc, List.singleton_append, ← hbytes, utf8Len_push] at hbalance
  refine ⟨name, hv, ?_⟩
  rw [hend, if_pos hopen, utf8Len_push, ← hbalance]
  rfl

/-- How `take_chain` ends behind a text. -/
theorem chainEnd_eq (u v : List Char) :
    (∀ r, chainRest v = some r → ∃ w, v = w ++ r ∧ chainEnd (bytes (u ++ v)) (utf8Len u) = utf8Len (u ++ w)) ∧
      (chainRest v = none → utf8Len (u ++ v) < chainEnd (bytes (u ++ v)) (utf8Len u)) := by
  induction v using chainRest.induct generalizing u with
  | case1 =>
    rw [chainRest, chainEnd_of_le (by rw [Utf8.length_bytes, List.append_nil])]
    refine ⟨fun r hr => ?_, nofun⟩
    cases hr
    exact ⟨[], rfl, by rw [List.append_nil]⟩
  | case2 c v hgap ih =>
    have hrest := ih (u ++ [c])
    rw [List.append_assoc, List.singleton_append] at hrest
    rw [chainRest, if_pos hgap, chainEnd_gap hgap]
    refine ⟨fun r hr => ?_, hrest.2⟩
    obtain ⟨w, rfl, hend⟩ := hrest.1 r hr
    exact ⟨c :: w, rfl, by rw [hend, List.append_assoc, List.singleton_append]⟩
  | case3 v hafter hgap =>
    have hrest : chainRest ('.' :: v) = some [] := by
      rw [chainRest_member (by rw [hafter]; nofun), hafter, chainRest]
    obtain ⟨name, hv, hend⟩ := chainEnd_dot u v
    rw [hafter, List.append_nil] at hv
    subst hv
    have hlen : (bytes (u ++ '.' :: v)).length = utf8Len (u ++ '.' :: v) := Utf8.length_bytes _
    rw [hrest, hend, List.getElem?_eq_none (by omega), if_neg nofun, chainEnd_of_le (by omega)]
    refine ⟨fun r hr => ?_, nofun⟩
    cases hr
    exact ⟨'.' :: v, (List.append_nil _).symm, rfl⟩
  | case4 v w body rest hcall hgap hafter ih =>
    have hrest : chainRest ('.' :: v) = chainRest rest := by
      rw [chainRest_call hafter, hcall]
    obtain ⟨name, hv, hend⟩ := chainEnd_call hafter u
    rw [hcall] at hend
    have hw := ending_closed hcall
    have hstop : Ending.stop (utf8Len (u ++ '.' :: name ++ ['('])) (utf8Len (u ++ '.' :: v)) (.closed body rest) =
        utf8Len (u ++ '.' :: name ++ '(' :: body ++ [')']) := by
      simp only [Ending.stop, String.utf8Len_append, String.utf8Len_cons, String.utf8Len_nil]
      have hparen : (')' : Char).utf8Size = 1 := rfl
      omega
    have htext : u ++ '.' :: v = u ++ '.' :: name ++ '(' :: body ++ [')'] ++ rest := by
      rw [hv, hw]
      simp [parens]
    have hih := ih (u ++ '.' :: name ++ '(' :: body ++ [')'])
    rw [← htext, ← hstop, ← hend] at hih
    rw [hrest]
    refine ⟨fun r hr => ?_, hih.2⟩
    obtain ⟨w', rfl, hend'⟩ := hih.1 r hr
    refine ⟨'.' :: name ++ '(' :: body ++ [')'] ++ w', ?_, ?_⟩
    · rw [hv, hw]
      simp [parens]
    · rw [hend']
      simp only [List.append_assoc, List.cons_append]
  | case5 v w hcall hgap hafter =>
    have hrest : chainRest ('.' :: v) = some [] := by
      rw [chainRest_call hafter, hcall]
    obtain ⟨name, hv, hend⟩ := chainEnd_call hafter u
    rw [hcall, Ending.stop, chainEnd_of_le (i := utf8Len (u ++ '.' :: v)) (by rw [Utf8.length_bytes])] at hend
    rw [hrest, hend]
    refine ⟨fun r hr => ?_, nofun⟩
    cases hr
    exact ⟨'.' :: v, (List.append_nil _).symm, rfl⟩
  | case6 v w escaped hcall hgap hafter =>
    have hrest : chainRest ('.' :: v) = none := by
      rw [chainRest_call hafter, hcall]
    obtain ⟨name, hv, hend⟩ := chainEnd_call hafter u
    have hlen : (bytes (u ++ '.' :: v)).length = utf8Len (u ++ '.' :: v) := Utf8.length_bytes _
    rw [hcall, Ending.stop, chainEnd_of_le (i := utf8Len (u ++ '.' :: v) + _) (by omega)] at hend
    rw [hrest, hend]
    refine ⟨nofun, fun _ => ?_⟩
    split <;> omega
  | case7 v d w hafter hd hgap ih =>
    have hrest : chainRest ('.' :: v) = chainRest (d :: w) := by
      rw [chainRest_member (by rw [hafter]; exact fun h => hd (Option.some.inj h)), hafter]
    obtain ⟨name, hv, hend⟩ := chainEnd_dot u v
    rw [hafter] at hv
    have htext : u ++ '.' :: v = u ++ '.' :: name ++ d :: w := by
      rw [hv, List.append_assoc, List.cons_append]
    have hopen : (bytes (u ++ '.' :: v))[utf8Len (u ++ '.' :: name)]? ≠ some (code '(') := by
      rw [htext]
      by_cases hwide : d.toNat < 128
      · rw [Utf8.getElem?_bytes_ascii hwide]
        exact fun h => hd ((Utf8.code_inj hwide (by decide)).1 (Option.some.inj h))
      · intro hbyte
        have hle := Utf8.le_of_getElem?_bytes (k := 0) (Nat.le_of_not_lt hwide) d.utf8Size_pos hbyte
        exact absurd hle (by decide)
    have hih := ih (u ++ '.' :: name)
    rw [← htext] at hih
    rw [hrest, hend, if_neg hopen]
    refine ⟨fun r hr => ?_, hih.2⟩
    obtain ⟨w', hw', hend'⟩ := hih.1 r hr
    refine ⟨'.' :: name ++ w', ?_, ?_⟩
    · rw [hv, hw', List.append_assoc, List.cons_append]
    · rw [hend', List.append_assoc]
  | case8 c v hgap hdot =>
    rw [chainRest, if_neg hgap, if_neg hdot, chainEnd_stop hgap hdot]
    refine ⟨fun r hr => ?_, nofun⟩
    cases hr
    exact ⟨[], rfl, by rw [List.append_nil]⟩

end Loops

/-! ## Where the cuts are possible -/

theorem takeChain_eq_some {s t : List Char} : takeChain s = some t ↔ ∃ r, chainRest s = some r ∧ s = t ++ r := by
  obtain ⟨hsome, hnone⟩ := chainEnd_eq [] s
  simp only [List.nil_append, String.utf8Len_nil] at hsome hnone
  unfold takeChain
  rw [Utf8.sliceTo_eq_some]
  constructor
  · rintro ⟨v, rfl, hlen⟩
    cases hrest : chainRest (t ++ v) with
    | none =>
      have hlt := hnone hrest
      rw [String.utf8Len_append] at hlt
      omega
    | some r =>
      obtain ⟨w, hw, hend⟩ := hsome r hrest
      rw [hend] at hlen
      obtain ⟨rfl, rfl⟩ := Utf8.append_inj_of_utf8Len hw hlen
      exact ⟨v, rfl, rfl⟩
  · rintro ⟨r, hrest, rfl⟩
    obtain ⟨w, hw, hend⟩ := hsome r hrest
    obtain rfl := List.append_cancel_right hw
    exact ⟨r, rfl, hend.symm⟩

theorem isSome_takeChain (s : List Char) : (takeChain s).isSome = (chainRest s).isSome := by
  rw [Bool.eq_iff_iff, Option.isSome_iff_exists, Option.isSome_iff_exists]
  constructor
  · rintro ⟨t, ht⟩
    obtain ⟨r, hr, -⟩ := takeChain_eq_some.1 ht
    exact ⟨r, hr⟩
  · rintro ⟨r, hr⟩
    obtain ⟨w, hw, -⟩ := (chainEnd_eq [] s).1 r hr
    exact ⟨w, takeChain_eq_some.2 ⟨r, hr, hw⟩⟩

def Ending.body? : Ending → Option (List Char)
  | .closed body _ => some body
  | _ => none

theorem balancedBody_append (br : Brackets) (u v : List Char) :
    balancedBody br (u ++ v) (utf8Len u) = some (ending br 1 none false v).body? := by
  obtain ⟨hstop, hdepth⟩ := balance_eq br u v
  unfold balancedBody
  cases hending : ending br 1 none false v with
  | closed body rest =>
    rw [hending] at hstop hdepth
    have hv := ending_closed hending
    simp only [Ending.stop, Ending.isClosed, iff_true] at hstop hdepth
    simp only [hdepth, hstop, if_true, Nat.add_sub_cancel]
    rw [hv, ← List.append_assoc, Utf8.slice_append]
    rfl
  | unclosed =>
    rw [hending] at hdepth
    simp only [Ending.isClosed, Bool.false_eq_true, iff_false] at hdepth
    simp only [if_neg hdepth, Ending.body?]
  | inString escaped =>
    rw [hending] at hdepth
    simp only [Ending.isClosed, Bool.false_eq_true, iff_false] at hdepth
    simp only [if_neg hdepth, Ending.body?]

/-- A scan that no bracket ends cuts off the last byte, if it stands by itself; in a string it cuts off
nothing, unless the backslash that came last took it behind the end. -/
def Ending.cut (v : List Char) : Ending → Option (List Char)
  | .closed body _ => some body
  | .unclosed => if Utf8.endsNarrow v then some v.dropLast else none
  | .inString escaped => if escaped then none else some v

theorem bodyTo_append (br : Brackets) {u : List Char} (hu : u ≠ []) (v : List Char) :
    bodyTo br (u ++ v) (utf8Len u) =
      ((ending br 1 none false v).cut v).map
        (·, (ending br 1 none false v).stop (utf8Len u) (utf8Len (u ++ v))) := by
  obtain ⟨hstop, -⟩ := balance_eq br u v
  unfold bodyTo
  simp only [hstop]
  congr 1
  cases hending : ending br 1 none false v with
  | closed body rest =>
    simp only [Ending.stop, Ending.cut, Nat.add_sub_cancel]
    rw [ending_closed hending, ← List.append_assoc, Utf8.slice_append]
  | unclosed =>
    exact Utf8.slice_dropLast hu v
  | inString escaped =>
    cases escaped with
    | true =>
      simp only [Ending.stop, Ending.cut, if_true]
      exact Utf8.slice_eq_none (by omega)
    | false =>
      have hwhole := Utf8.slice_append u v []
      rw [List.append_nil, ← String.utf8Len_append] at hwhole
      simp only [Ending.stop, Ending.cut, Bool.false_eq_true, if_false, Nat.add_sub_cancel]
      exact hwhole

/-- The entries between the commas outside brackets. -/
def commaEntries : Nat → List Char → List (List Char)
  | _, [] => [[]]
  | depth, c :: l =>
    if c = '(' ∨ c = '[' ∨ c = '{' then (commaEntries (depth + 1) l).modifyHead (c :: ·)
    else if c = ')' ∨ c = ']' ∨ c = '}' then (commaEntries (depth - 1) l).modifyHead (c :: ·)
    else if c = ',' ∧ depth = 0 then [] :: commaEntries depth l
    else (commaEntries depth l).modifyHead (c :: ·)

/-- What holds of the characters below 128 holds of those that `split_top_level_commas` looks for. -/
theorem forall_separator {P : Char → Prop} (h : ∀ c : Char, c.toNat < 128 → P c) :
    P '(' ∧ P '[' ∧ P '{' ∧ P ')' ∧ P ']' ∧ P '}' ∧ P ',' :=
  ⟨h _ (by decide), h _ (by decide), h _ (by decide), h _ (by decide), h _ (by decide), h _ (by decide),
    h _ (by decide)⟩

theorem splitCommas_wide {s : List Char} {w : List UInt8} (hw : ∀ b ∈ w, 128 ≤ b.toNat) (bs : List UInt8)
    (i depth start : Nat) :
    splitCommas s (w ++ bs) i depth start = splitCommas s bs (i + w.length) depth start := by
  induction w generalizing i with
  | nil => rfl
  | cons b w ih =>
    have hb := hw b List.mem_cons_self
    have hne := forall_separator (P := fun c => b ≠ code c) fun c hc => ne_code hb hc
    rw [List.cons_append, splitCommas]
    simp only [hne, or_self, false_and, if_false]
    rw [ih fun b hb => hw b (List.mem_cons_of_mem _ hb), List.length_cons]
    congr 1
    omega

theorem splitCommas_eq (a b v : List Char) (depth : Nat) :
    splitCommas (a ++ b ++ v) (bytes v) (utf8Len (a ++ b)) depth (utf8Len a) =
      some ((commaEntries depth v).modifyHead (b ++ ·)) := by
  induction v generalizing a b depth with
  | nil =>
    rw [List.append_nil, Utf8.bytes_nil, splitCommas, Utf8.sliceFrom_append, commaEntries]
    simp only [Option.map_some, List.modifyHead_cons, List.append_nil]
  | cons c v ih =>
    -- a character that separates nothing belongs to the entry before it
    have hgrow : ∀ depth' : Nat,
        splitCommas (a ++ b ++ c :: v) (bytes v) (utf8Len (a ++ b) + c.utf8Size) depth' (utf8Len a) =
          some (((commaEntries depth' v).modifyHead (c :: ·)).modifyHead (b ++ ·)) := by
      intro depth'
      have h := ih a (b ++ [c]) depth'
      rw [← List.append_assoc, utf8Len_push, List.append_assoc, List.singleton_append] at h
      rw [h, List.modifyHead_modifyHead]
      congr 2
      funext l
      simp
    by_cases hwide : c.toNat < 128
    · have hcode := forall_separator (P := fun d => code c = code d ↔ c = d) fun d hd =>
        Utf8.code_inj hwide hd
      rw [Utf8.utf8Size_of_ascii hwide] at hgrow
      rw [Utf8.bytes_cons, Utf8.encode_of_ascii hwide, List.singleton_append, splitCommas, commaEntries]
      simp only [hcode]
      split
      · exact hgrow (depth + 1)
      · split
        · exact hgrow (depth - 1)
        · split
          · have hslice := Utf8.slice_append a b (c :: v)
            have hrest := ih (a ++ b ++ [c]) [] depth
            rw [List.append_nil, utf8Len_push, List.append_assoc, List.singleton_append,
              Utf8.utf8Size_of_ascii hwide] at hrest
            rw [String.utf8Len_append, hslice, Option.bind_some, ← String.utf8Len_append, hrest]
            cases commaEntries depth v <;> simp
          · exact hgrow depth
    · have hw : ∀ x ∈ utf8EncodeChar c, 128 ≤ x.toNat := fun x hx =>
        Utf8.le_of_mem_encode (Nat.le_of_not_lt hwide) hx
      have hne := forall_separator (P := fun d => c ≠ d) fun d hd heq => hwide (heq ▸ hd)
      rw [Utf8.bytes_cons, splitCommas_wide hw, String.length_utf8EncodeChar, commaEntries]
      simp only [hne, or_self, false_and, if_false]
      exact hgrow depth

/-- `split_top_level_commas` never panics. -/
theorem splitTopLevelCommas_eq (s : List Char) : splitTopLevelCommas s = some (commaEntries 0 s) := by
  have h := splitCommas_eq [] [] s 0
  simp only [List.nil_append, String.utf8Len_nil] at h
  unfold splitTopLevelCommas
  rw [h]
  cases commaEntries 0 s <;> rfl

theorem ascii_of_mem_encode {c d : Char} (hd : d.toNat < 128) (h : code d ∈ utf8EncodeChar c) : c = d := by
  by_cases hwide : c.toNat < 128
  · rw [Utf8.encode_of_ascii hwide, List.mem_singleton] at h
    exact ((Utf8.code_inj hd hwide).1 h).symm
  · have hle := Utf8.le_of_mem_encode (Nat.le_of_not_lt hwide) h
    rw [Utf8.code_toNat hd] at hle
    omega

/-- A text between two quotes, told by its first and last byte. -/
theorem slice_quoted {t : List Char} {q : Char} (hq : q.toNat < 128) (hlen : 2 ≤ utf8Len t)
    (hhead : (bytes t).head? = some (code q)) (hlast : (bytes t).getLast? = some (code q)) :
    ∃ m, t = q :: m ++ [q] ∧ slice t 1 (utf8Len t - 1) = some m := by
  have hencode : ∀ c, utf8EncodeChar c ≠ [] := fun c h => by
    have hpos := c.utf8Size_pos
    rw [← String.length_utf8EncodeChar, h] at hpos
    exact absurd hpos (by decide)
  have hone := Utf8.utf8Size_of_ascii hq
  cases t with
  | nil => cases hhead
  | cons c t =>
    rw [Utf8.bytes_cons, List.head?_append_of_ne_nil _ (hencode c)] at hhead
    obtain rfl := ascii_of_mem_encode hq (List.mem_of_mem_head? hhead)
    rcases List.eq_nil_or_concat t with rfl | ⟨m, d, rfl⟩
    · rw [String.utf8Len_cons, String.utf8Len_nil, hone] at hlen
      omega
    · have hd : bytes [d] = utf8EncodeChar d := by rw [Utf8.bytes_cons, Utf8.bytes_nil, List.append_nil]
      rw [List.concat_eq_append, ← List.cons_append, Utf8.bytes_append, hd,
        List.getLast?_append_of_ne_nil _ (hencode d)] at hlast
      obtain rfl := ascii_of_mem_encode hq (List.mem_of_getLast? hlast)
      refine ⟨m, by rw [List.concat_eq_append, List.cons_append], ?_⟩
      have hslice := Utf8.slice_append [d] m [d]
      have hend : utf8Len (d :: m ++ [d]) - 1 = 1 + utf8Len m := by
        rw [utf8Len_push, String.utf8Len_cons, hone]
        omega
      rw [String.utf8Len_cons, String.utf8Len_nil, hone, Nat.zero_add] at hslice
      rw [List.concat_eq_append, ← List.cons_append, hend]
      exact hslice

/-- `constraint_sql_string` never panics. -/
theorem isSome_constraintSqlString (arg : List Char) : (constraintSqlString arg).isSome = true := by
  unfold constraintSqlString
  generalize trim arg = t
  simp only
  split
  · rfl
  · rename_i quote hhead
    split
    · rename_i hquoted
      obtain ⟨hlen, hquote, hlast⟩ := hquoted
      rw [Option.isSome_map]
      rcases hquote with rfl | rfl
      · obtain ⟨m, -, hslice⟩ := slice_quoted (by decide) hlen hhead hlast
        rw [hslice]
        rfl
      · obtain ⟨m, -, hslice⟩ := slice_quoted (by decide) hlen hhead hlast
        rw [hslice]
        rfl
    · rfl

end Atomo.Dsl
