/-!
# Names in both casings

`to_snake_case` and `snake_to_camel`. Which characters are upper case, and what they become, is Unicode
data of the standard library and a parameter here (`CharCase`); `CharCase.ascii` knows the letters of
ASCII only.
-/

namespace Atomo

theorem isUpper_iff {c : Char} : c.isUpper = true ↔ 65 ≤ c.toNat ∧ c.toNat < 91 := by
  have heq : c.isUpper = decide (c.val ≥ 'A'.val ∧ c.val ≤ 'Z'.val) := rfl
  rw [heq, decide_eq_true_iff, ge_iff_le, UInt32.le_iff_toNat_le, UInt32.le_iff_toNat_le]
  exact and_congr_right' Nat.lt_succ_iff.symm

theorem isLower_iff {c : Char} : c.isLower = true ↔ 97 ≤ c.toNat ∧ c.toNat < 123 := by
  have heq : c.isLower = (decide (c.val ≥ 'a'.val) && decide (c.val ≤ 'z'.val)) := rfl
  rw [heq, Bool.and_eq_true, decide_eq_true_iff, decide_eq_true_iff, ge_iff_le, UInt32.le_iff_toNat_le,
    UInt32.le_iff_toNat_le]
  exact and_congr_right' Nat.lt_succ_iff.symm

theorem not_isUpper_of_isLower {c : Char} (h : c.isLower = true) : c.isUpper = false := by
  rw [Bool.eq_false_iff, Ne, isUpper_iff]
  have hlower := isLower_iff.1 h
  omega

theorem isAlphanum_of_isLower {c : Char} (h : c.isLower = true) : c.isAlphanum = true := by
  show (c.isUpper || c.isLower || c.isDigit) = true
  simp [h]

/-- `char::is_uppercase`, the first character of `char::to_lowercase`, and `char::to_uppercase`. -/
structure CharCase where
  isUppercase : Char → Bool
  toLowercase : Char → Char
  toUppercase : Char → List Char
  lower : ∀ c, c.isLower = true ∨ c = '_' → isUppercase c = false ∧ toLowercase c = c

theorem CharCase.lower_ascii {c : Char} (h : c.isLower = true ∨ c = '_') : c.isUpper = false ∧ c.toLower = c := by
  have hupper : c.isUpper = false := by
    rcases h with hlower | rfl
    · exact not_isUpper_of_isLower hlower
    · decide
  exact ⟨hupper, dif_neg (of_decide_eq_false hupper)⟩

def CharCase.ascii : CharCase where
  isUppercase := Char.isUpper
  toLowercase := Char.toLower
  toUppercase c := [c.toUpper]
  lower _ := lower_ascii

variable (cc : CharCase)

/-- `to_snake_case`. -/
def toSnakeCase (s : String) : String :=
  .ofList <| s.toList.foldl
    (fun result c =>
      (if cc.isUppercase c && !result.isEmpty then result ++ ['_'] else result) ++ [cc.toLowercase c]) []

/-- `snake_to_camel`; `upperNext` says that an underscore came last. -/
def snakeToCamelFrom : Bool → List Char → List Char
  | _, [] => []
  | upperNext, c :: l =>
    if c = '_' then snakeToCamelFrom true l
    else if upperNext then cc.toUppercase c ++ snakeToCamelFrom false l
    else c :: snakeToCamelFrom upperNext l

def snakeToCamel (s : String) : String :=
  .ofList (snakeToCamelFrom cc false s.toList)

/-- A name in lower case is its own. -/
theorem toSnakeCase_of_lower {s : String} (h : s.toList.all (fun c => c.isLower || c = '_') = true) :
    toSnakeCase cc s = s := by
  have hlower : ∀ c ∈ s.toList, c.isLower = true ∨ c = '_' := by simpa using h
  have hfold : ∀ (l result : List Char), (∀ c ∈ l, c.isLower = true ∨ c = '_') →
      l.foldl (fun result c =>
        (if cc.isUppercase c && !result.isEmpty then result ++ ['_'] else result) ++ [cc.toLowercase c]) result =
      result ++ l := by
    intro l
    induction l with
    | nil =>
      intro result _
      exact (List.append_nil result).symm
    | cons c l ih =>
      intro result hl
      obtain ⟨hupper, hlower⟩ := cc.lower c (hl c List.mem_cons_self)
      rw [List.foldl_cons, ih _ fun d hd => hl d (List.mem_cons_of_mem c hd), hupper, hlower]
      simp
  unfold toSnakeCase
  rw [hfold _ _ hlower, List.nil_append, String.ofList_toList]

@[simp] theorem toSnakeCase_tenant_id : toSnakeCase cc "tenant_id" = "tenant_id" :=
  toSnakeCase_of_lower cc (by decide)

@[simp] theorem toSnakeCase_deleted_at : toSnakeCase cc "deleted_at" = "deleted_at" :=
  toSnakeCase_of_lower cc (by decide)

example : toSnakeCase .ascii "tenantId" = "tenant_id" := by decide

end Atomo
