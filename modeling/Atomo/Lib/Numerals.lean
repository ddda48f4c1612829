import Atomo.Lib.Filter
import Mathlib.Data.Nat.Digits.Lemmas

/-!
# Numerals

A number as a text of digits, the most significant first, and back: a number below `base ^ width` in `width`
digits, or a number in as many digits as it takes. The digits are written by a function and read by a partial
one, which may know more than one way to write a digit.
-/

namespace Numerals

variable (base : Nat) (digit : Nat → Char) (value : Char → Option Nat)

def write (width n : Nat) : List Char :=
  (Nat.digitsAppend base width n).reverse.map digit

/-- In as many digits as it takes. -/
def writeShort (n : Nat) : List Char :=
  (Nat.digits base n).reverse.map digit

def read (text : List Char) : Option Nat :=
  (text.mapM value).map fun digits => Nat.ofDigits base digits.reverse

variable {base digit value}

theorem length_write (hbase : 1 < base) {width n : Nat} (hn : n < base ^ width) : (write base digit width n).length = width := by
  unfold write
  rw [List.length_map, List.length_reverse, Nat.length_digitsAppend hbase width hn]

/-- What is written is read back. -/
theorem read_write (hbase : 1 < base) (hvalue : ∀ d, d < base → value (digit d) = some d) (width n : Nat) :
    read base value (write base digit width n) = some n := by
  have hread : (write base digit width n).mapM value = some (Nat.digitsAppend base width n).reverse := by
    have hdigits : ∀ d ∈ (Nat.digitsAppend base width n).reverse, (value ∘ digit) d = some (id d) :=
      fun d hd => hvalue d (Nat.lt_of_mem_digitsAppend hbase width d (List.mem_reverse.1 hd))
    unfold write
    rw [List.mapM_map, List.mapM_eq_some_map hdigits, List.map_id]
  unfold read
  rw [hread, Option.map_some, List.reverse_reverse]
  unfold Nat.digitsAppend
  rw [Nat.ofDigits_append_replicate_zero, Nat.ofDigits_digits]

theorem read_writeShort (hbase : 1 < base) (hvalue : ∀ d, d < base → value (digit d) = some d) (n : Nat) :
    read base value (writeShort base digit n) = some n := by
  have hread : (writeShort base digit n).mapM value = some (Nat.digits base n).reverse := by
    have hdigits : ∀ d ∈ (Nat.digits base n).reverse, (value ∘ digit) d = some (id d) :=
      fun d hd => hvalue d (Nat.digits_lt_base hbase (List.mem_reverse.1 hd))
    unfold writeShort
    rw [List.mapM_map, List.mapM_eq_some_map hdigits, List.map_id]
  unfold read
  rw [hread, Option.map_some, List.reverse_reverse, Nat.ofDigits_digits]

theorem of_mem_writeShort (hbase : 1 < base) {n : Nat} {c : Char} (h : c ∈ writeShort base digit n) :
    ∃ d, d < base ∧ c = digit d := by
  obtain ⟨d, hd, rfl⟩ := List.mem_map.1 h
  exact ⟨d, Nat.digits_lt_base hbase (List.mem_reverse.1 hd), rfl⟩

end Numerals
