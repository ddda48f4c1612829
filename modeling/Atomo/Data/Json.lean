import Mathlib.Algebra.Order.Field.Rat
import Mathlib.Data.List.Basic

/-!
# JSON values

`serde_json::Value` and its `Number`. An object is the list of its entries in iteration order. A
number is held as one of the three representations `Number` has (`PosInt`, `NegInt`, `Float`); a
finite double is held by the rational it denotes.
-/

namespace Atomo

/-- `serde_json::Number`: an unsigned integer, a negative integer or a finite double. -/
inductive Number where
  | posInt (n : UInt64)
  | negInt (i : Int64)
  | float (q : ℚ)
  deriving DecidableEq

/-- `Number::from` of a signed integer in the range of `i64`. -/
def Number.ofInt (i : Int) : Number :=
  if 0 ≤ i then .posInt (.ofNat i.toNat) else .negInt (.ofInt i)

/-- The double nearest to a natural number, an even significand where two are as near. -/
def doubleOfNat (n : Nat) : ℚ :=
  let shift := n.log2 - 52
  let unit := 2 ^ shift
  let significand := n / unit
  let rest := n % unit
  if 2 * rest < unit ∨ (2 * rest = unit ∧ significand % 2 = 0) then significand * unit
  else (significand + 1) * unit

namespace Number

/-- `Number::as_i64`. -/
def asI64? : Number → Option Int64
  | .posInt n => if n.toNat < 2 ^ 63 then some (.ofNat n.toNat) else none
  | .negInt i => some i
  | .float _ => none

/-- `Number::as_f64`. -/
def asF64 : Number → ℚ
  | .posInt n => doubleOfNat n.toNat
  | .negInt i => if i.toInt < 0 then -doubleOfNat (-i.toInt).toNat else doubleOfNat i.toInt.toNat
  | .float q => q

end Number

/-- `serde_json::Value`. -/
inductive Json where
  | null
  | bool (b : Bool)
  | number (n : Number)
  | string (s : String)
  | array (xs : List Json)
  | object (fields : List (String × Json))

namespace Json

mutual

/-- Equality of JSON values is decidable. -/
def decEq : (a b : Json) → Decidable (a = b)
  | .null, .null => .isTrue rfl
  | .bool a, .bool b => decidable_of_iff (a = b) (by simp)
  | .number a, .number b => decidable_of_iff (a = b) (by simp)
  | .string a, .string b => decidable_of_iff (a = b) (by simp)
  | .array a, .array b =>
    have := decEqList a b
    decidable_of_iff (a = b) (by simp)
  | .object a, .object b =>
    have := decEqFields a b
    decidable_of_iff (a = b) (by simp)
  | .null, .bool _ | .null, .number _ | .null, .string _ | .null, .array _ | .null, .object _
  | .bool _, .null | .bool _, .number _ | .bool _, .string _ | .bool _, .array _
  | .bool _, .object _ | .number _, .null | .number _, .bool _ | .number _, .string _
  | .number _, .array _ | .number _, .object _ | .string _, .null | .string _, .bool _
  | .string _, .number _ | .string _, .array _ | .string _, .object _ | .array _, .null
  | .array _, .bool _ | .array _, .number _ | .array _, .string _ | .array _, .object _
  | .object _, .null | .object _, .bool _ | .object _, .number _ | .object _, .string _
  | .object _, .array _ => .isFalse (by simp)

/-- Equality of lists of JSON values is decidable. -/
def decEqList : (a b : List Json) → Decidable (a = b)
  | [], [] => .isTrue rfl
  | [], _ :: _ | _ :: _, [] => .isFalse (by simp)
  | x :: xs, y :: ys =>
    have := decEq x y
    have := decEqList xs ys
    decidable_of_iff (x = y ∧ xs = ys) (by simp)

/-- Equality of the entries of two objects is decidable. -/
def decEqFields : (a b : List (String × Json)) → Decidable (a = b)
  | [], [] => .isTrue rfl
  | [], _ :: _ | _ :: _, [] => .isFalse (by simp)
  | (k, x) :: xs, (l, y) :: ys =>
    have := decEq x y
    have := decEqFields xs ys
    decidable_of_iff ((k = l ∧ x = y) ∧ xs = ys) (by simp)

end

instance : DecidableEq Json := decEq

/-- `Value::get`: the entry of an object under `key`; none for any other value. -/
def get? (key : String) : Json → Option Json
  | .object fields => (fields.find? (·.1 = key)).map (·.2)
  | _ => none

/-- `Value::as_str`. -/
def asStr? : Json → Option String
  | .string s => some s
  | _ => none

/-- `Value::is_null`. -/
def isNull : Json → Bool
  | .null => true
  | _ => false

/-- `Value::is_string`. -/
def isString : Json → Bool
  | .string _ => true
  | _ => false

/-- `Value::as_array`. -/
def asArray? : Json → Option (List Json)
  | .array xs => some xs
  | _ => none

/-- `Value::as_bool`. -/
def asBool? : Json → Option Bool
  | .bool b => some b
  | _ => none

end Json

end Atomo
