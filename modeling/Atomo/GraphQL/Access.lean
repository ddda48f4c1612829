import Atomo.GraphQL.Context

/-!
# What an access rule lets through

`AccessRule::decide` and its two callers, `check_access` of the resolvers and `enforce_access` of the data layer,
against the meaning of a rule for a principal and a row. A boolean rule is decided as it is meant. The others are
not evaluated: they let every request through (`let_through_iff`).
-/

namespace Atomo.GraphQL

open Schema (AccessRule QueryCondition AccessDecision AccessControl Model splitAt eqIgnoreAsciiCase)
open Client (Env Record World)

/-- Who makes a request: the role, if the request is authenticated, and the properties that a rule may refer to. -/
structure Principal where
  role : Option String
  properties : Record

/-- The role string of a rule names a role: `public` names every one and no role as well, `authenticated` every one,
and another string the roles between its bars. -/
def Names (code : String) (role : Option String) : Prop :=
  code = "public" ∨ ∃ r, role = some r ∧
    (code = "authenticated" ∨ ∃ name ∈ splitAt '|' code.toList, eqIgnoreAsciiCase name r.toList = true)

section

/-! ## The meaning of a rule -/

-- what a condition on a row says of a principal is left open
variable (holds : QueryCondition → Principal → Record → Prop) (p : Principal) (row : Record)

mutual

/-- The rule is true of a principal and a row. -/
def Satisfies : AccessRule → Prop
  | .boolean code => Names code p.role
  | .query condition => holds condition p row
  | .and rules => SatisfiesAll rules
  | .or rules => SatisfiesAny rules

def SatisfiesAll : List AccessRule → Prop
  | [] => True
  | rule :: rules => Satisfies rule ∧ SatisfiesAll rules

def SatisfiesAny : List AccessRule → Prop
  | [] => False
  | rule :: rules => Satisfies rule ∨ SatisfiesAny rules

end

theorem satisfies_and_iff (rules : List AccessRule) :
    Satisfies holds p row (.and rules) ↔ ∀ rule ∈ rules, Satisfies holds p row rule := by
  rw [Satisfies]
  induction rules with
  | nil => simp [SatisfiesAll]
  | cons rule rules ih => rw [SatisfiesAll, ih, List.forall_mem_cons]

end

/-! ## The decision -/

def IsBoolean : AccessRule → Prop
  | .boolean _ => True
  | .query _ | .and _ | .or _ => False

/-- A boolean rule is decided as it is meant. -/
theorem decide_boolean_iff (code : String) (role : Option String) :
    (AccessRule.boolean code).decide role = .allow ↔ Names code role := by
  unfold AccessRule.decide Names
  dsimp only
  by_cases hpublic : code = "public"
  · rw [if_pos hpublic]
    exact ⟨fun _ => .inl hpublic, fun _ => rfl⟩
  · rw [if_neg hpublic]
    by_cases hauthenticated : code = "authenticated"
    · rw [if_pos hauthenticated]
      cases role with
      | none => simp [hpublic]
      | some r => simp [hauthenticated]
    · rw [if_neg hauthenticated]
      cases role with
      | none => simp [hpublic]
      | some r => simp [hpublic, hauthenticated]

/-- The rules of a request that are evaluated are true of its principal and row. -/
def Admitted (holds : QueryCondition → Principal → Record → Prop) (schema : Atomo.Schema)
    (modelName action : String) (p : Principal) (row : Record) : Prop :=
  ∀ access, (schema.model? modelName).bind (·.access) = some access →
    ∀ rule, access.ruleFor action = some rule → IsBoolean rule → Satisfies holds p row rule

theorem admitted_iff (holds : QueryCondition → Principal → Record → Prop) (schema : Atomo.Schema)
    (modelName action : String) (p : Principal) (row : Record) :
    Admitted holds schema modelName action p row ↔
      ∀ access, (schema.model? modelName).bind (·.access) = some access → access.decide action p.role = .allow := by
  have hrule : ∀ rule : AccessRule, (IsBoolean rule → Satisfies holds p row rule) ↔ rule.decide p.role = .allow := by
    intro rule
    cases rule with
    | boolean code => rw [decide_boolean_iff, Satisfies, IsBoolean, true_imp_iff]
    | query condition => exact ⟨fun _ => rfl, fun _ h => h.elim⟩
    | and rules => exact ⟨fun _ => rfl, fun _ h => h.elim⟩
    | or rules => exact ⟨fun _ => rfl, fun _ h => h.elim⟩
  refine forall_congr' fun access => imp_congr_right fun _ => ?_
  unfold AccessControl.decide
  cases access.ruleFor action with
  | none => simp
  | some rule => simp [hrule rule]

/-- `check_access` and `enforce_access` let a request through to a row exactly when the boolean rule of the model for
the action is true of its principal; where the rule is a condition or a combination, they let every request
through. -/
theorem let_through_iff (holds : QueryCondition → Principal → Record → Prop) (env : Env) (modelName action : String)
    (properties row : Record) (w : World) :
    (∀ ctx : Ctx, checkAccess env.schema modelName action ctx w = .ok () w ↔
      Admitted holds env.schema modelName action ⟨ctx.userRole, properties⟩ row) ∧
    ∀ role : Option String, Client.enforceAccess env modelName action role w = .ok () w ↔
      Admitted holds env.schema modelName action ⟨role, properties⟩ row := by
  constructor
  · intro ctx
    rw [admitted_iff]
    unfold checkAccess
    cases (env.schema.model? modelName).bind (·.access) with
    | none => exact ⟨fun _ _ h => (by cases h), fun _ => rfl⟩
    | some access =>
      simp only [Option.some.injEq, forall_eq']
      cases access.decide action ctx.userRole with
      | allow => exact ⟨fun _ => rfl, fun _ => rfl⟩
      | forbidden => exact ⟨fun h => (by cases h), fun h => (by cases h)⟩
      | needsAuth => exact ⟨fun h => (by cases h), fun h => (by cases h)⟩
  · intro role
    rw [admitted_iff]
    unfold Client.enforceAccess
    cases (env.schema.model? modelName).bind (·.access) with
    | none => exact ⟨fun _ _ h => (by cases h), fun _ => rfl⟩
    | some access =>
      simp only [Option.some.injEq, forall_eq']
      cases access.decide action role with
      | allow => exact ⟨fun _ => rfl, fun _ => rfl⟩
      | forbidden => exact ⟨fun h => (by cases h), fun h => (by cases h)⟩
      | needsAuth => exact ⟨fun h => (by cases h), fun h => (by cases h)⟩

/-- Deals are updated by admins who own them. -/
def dealSchema : Atomo.Schema where
  models := [("Deal", { name := "Deal", access := some {
    create := none
    read := none
    update := some (.and [.boolean "admin", .query ⟨"owner_id", .equals, .userProperty "user.id"⟩])
    delete := none } })]

/-- A request without a role is let through to a deal, whatever its condition means. -/
theorem and_rule_let_through : ¬∀ (holds : QueryCondition → Principal → Record → Prop) (ctx : Ctx) (row : Record)
    (rule : AccessRule) (w : World), checkAccess dealSchema "Deal" "update" ctx w = .ok () w →
    ((dealSchema.model? "Deal").bind (·.access)).bind (·.ruleFor "update") = some rule →
    Satisfies holds ⟨ctx.userRole, []⟩ row rule := by
  intro h
  have hand := h (fun _ _ _ => True) {} [] _ (Client.noteWorld []) rfl rfl
  rw [satisfies_and_iff] at hand
  have hadmin := hand (.boolean "admin") List.mem_cons_self
  rw [Satisfies, Names] at hadmin
  revert hadmin
  decide

end Atomo.GraphQL
