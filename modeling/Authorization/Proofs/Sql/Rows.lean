import Authorization.Proofs.Condition.Names
import Authorization.Proofs.Condition.Truth
import Authorization.Proofs.Sql.Expressions
import Authorization.Sql.Filter
import Mathlib.Logic.Basic

/-!
# Conditions on rows and on records

A row of a table, with the rows of memberships, is presented as a record: the
fields are columns, null where a column has no value, and the membership is that
of the session's user (`Presented`). What the predicate for a condition says of
the row is then true just where the condition holds for the record
(`truth_ofCondition`), as far as fields are compared with texts, null, integers
of 64 bits and the user (`Check.queryable`).

A subquery calls the table of memberships `m`, so the table of the objects has
to go by another name.
-/

namespace Authorization.Sql

open Condition

/-! ### Truth of what predicates say -/

variable {tables : Tables} {scope : Scope}

theorem compared_eq_true {x y : Option Value} :
    compared x y = .true ↔ ∃ v, x = some v ∧ y = some v := by
  rcases x with _ | v <;> rcases y with _ | w
  · exact ⟨nofun, nofun⟩
  · exact ⟨nofun, nofun⟩
  · exact ⟨nofun, nofun⟩
  · rw [compared, Truth.ofBool_eq_true, beq_iff_eq]
    constructor
    · rintro rfl
      exact ⟨v, rfl, rfl⟩
    · rintro ⟨u, hv, hw⟩
      rw [Option.some.inj hv, Option.some.inj hw]

@[simp] theorem truth_decided (b : Bool) :
    (Expr.decided b).truth tables scope = .true ↔ b = true := by
  cases b
  · exact ⟨nofun, nofun⟩
  · exact ⟨fun _ => rfl, fun _ => rfl⟩

theorem truth_isIn {x : Term} {values : List Value} :
    (Expr.isIn x values).truth tables scope = .true ↔ ∃ v ∈ values, x.value? scope = some v := by
  rw [Expr.truth]
  induction values with
  | nil => exact ⟨nofun, fun ⟨_, h, _⟩ => absurd h List.not_mem_nil⟩
  | cons v vs ih =>
    rw [List.map_cons, List.foldr_cons, Truth.or_eq_true, ih, compared_eq_true]
    constructor
    · rintro (⟨w, hx, hw⟩ | ⟨w, hw, hx⟩)
      · cases hw
        exact ⟨v, List.mem_cons_self, hx⟩
      · exact ⟨w, List.mem_cons_of_mem _ hw, hx⟩
    · rintro ⟨w, hw, hx⟩
      rcases List.mem_cons.1 hw with rfl | hw
      · exact .inl ⟨w, hx, rfl⟩
      · exact .inr ⟨w, hw, hx⟩

theorem truth_joined_and {es : List Expr} :
    (Expr.joined .and true es).truth tables scope = .true ↔
      ∀ e ∈ es, e.truth tables scope = .true := by
  induction es with
  | nil => exact ⟨fun _ _ h => absurd h List.not_mem_nil, fun _ => rfl⟩
  | cons e es ih =>
    cases es with
    | nil => rw [Expr.joined, List.forall_mem_singleton]
    | cons f fs =>
      rw [Expr.joined, Expr.truth, Truth.and_eq_true, ih]
      · exact (List.forall_mem_cons (p := fun e : Expr => e.truth tables scope = .true)).symm
      · exact List.cons_ne_nil _ _

theorem truth_joined_or {es : List Expr} :
    (Expr.joined .or false es).truth tables scope = .true ↔
      ∃ e ∈ es, e.truth tables scope = .true := by
  induction es with
  | nil => exact ⟨nofun, fun ⟨_, h, _⟩ => absurd h List.not_mem_nil⟩
  | cons e es ih =>
    cases es with
    | nil => simp [Expr.joined]
    | cons f fs =>
      rw [Expr.joined, Expr.truth, Truth.or_eq_true, ih]
      · simp
      · exact List.cons_ne_nil _ _

/-! ### Names of tables -/

theorem sameName_self (a : String) : sameName a a = true := beq_iff_eq.2 rfl

theorem eq_of_toLower_eq_m {c : Char} (h : c.toLower = 'm') : c = 'm' ∨ c = 'M' := by
  unfold Char.toLower at h
  split at h
  · -- An upper case letter is moved to the lower case one.
    have hval : c.val + ('a'.val - 'A'.val) = 'm'.val := congrArg Char.val h
    have hm : 'm'.val = 'M'.val + ('a'.val - 'A'.val) := by decide
    rw [hm] at hval
    exact .inr (Char.ext ((UInt32.add_left_inj _).1 hval))
  · exact .inl h

/-- Only two names are that of the table of memberships. -/
theorem sameName_m {q : String} (hlower : q ≠ "m") (hupper : q ≠ "M") : sameName q "m" = false := by
  rw [sameName, beq_eq_false_iff_ne]
  intro h
  obtain ⟨c, hc, hm⟩ := List.map_eq_singleton_iff.1 h
  have hq : q = .ofList [c] := by rw [← hc, String.ofList_toList]
  rcases eq_of_toLower_eq_m hm with rfl | rfl
  · exact hlower (hq.trans (by decide))
  · exact hupper (hq.trans (by decide))

/-! ### Presenting rows -/

/-- A value as a field shows it. -/
def Value.toJson : Value → Json
  | .text s => .string s
  | .integer n => .number (.integer n)
  | .real d => .number (.real d)

/-- What a column has as a field shows it: null where there is no value. -/
def fieldOf : Option Value → Json
  | some v => v.toJson
  | none => .null

/-- What a column has as a name. -/
def nameOf? : Option Value → Option String
  | some (.text s) => some s
  | _ => none

/-- A row of the table of memberships is one of the object in a row and the user. -/
def IsMembership (ctx : Context) (row m : Row) : Prop :=
  (∃ id, m "resource_id" = some id ∧ row ctx.storage.idColumn = some id) ∧
    ∃ u, ctx.session.user = some u ∧ m "user_id" = some (.text u.text)

/-- A record presents a row, and the memberships of the session's user: its fields are columns,
    the variant is in the column for it, and the roles of the memberships are known. -/
structure Presented (ctx : Context) (tables : Tables) (row : Row) (r : Record) : Prop where
  /-- Fields show what is in the columns of their names. -/
  fields : ∀ name v, r.fields.get? name = some v → v = fieldOf (row name)
  /-- The variant is in its column. -/
  variant : r.variant = nameOf? (row ctx.storage.variantColumn)
  /-- The user is a member if there is a row that says so. -/
  member : r.member = true ↔
    ∃ m ∈ tables ctx.storage.membershipTable, IsMembership ctx row m
  /-- The roles are those in such rows. -/
  roles : ∃ held, r.membershipRoles = some held ∧ ∀ role, role ∈ held ↔
    ∃ m ∈ tables ctx.storage.membershipTable, IsMembership ctx row m ∧
      m "role" = some (.text role)

end Authorization.Sql

namespace Authorization

/-- Whether a field may be compared with the operand in queries: the user, null, a text or an
    integer of 64 bits. -/
def Operand.isQueryable : Operand → Bool
  | .requester | .value .null | .value (.string _) => true
  | .value (.number n) => n.toInt64?.isSome
  | .value _ => false

/-- Fields are compared with what they may be compared with in queries. -/
def Check.queryable : Check := ⟨fun _ => true, fun _ operand => operand.isQueryable⟩

/-- Fields are those that a record has. -/
def Check.fieldsOf (r : Record) : Check := ⟨fun _ => true, fun name _ => r.fields.contains name⟩

end Authorization

namespace Authorization.Sql

open Condition

variable {ctx : Context} {tables : Tables} {row : Row} {r : Record}

/-! ### Tests of the row -/

theorem value?_column (name : String) :
    (Term.column (ctx.column name)).value? [(ctx.qualifier, row)] = row name := by
  have hfind : [(ctx.qualifier, row)].find? (sameName ctx.qualifier ·.1) =
      some (ctx.qualifier, row) := List.find?_cons_of_pos (sameName_self ctx.qualifier)
  rw [Term.value?, Context.column, hfind, Option.bind_some]

theorem fieldOf_same_text {x : Option Value} {s : String} :
    (fieldOf x).same (.string s) = true ↔ x = some (.text s) := by
  rcases x with _ | _ | _ | _ <;> simp [fieldOf, Value.toJson, Json.same]

theorem fieldOf_same_integer {x : Option Value} {n : Int} :
    (fieldOf x).same (.number (.integer n)) = true ↔ x = some (.integer n) := by
  rcases x with _ | _ | _ | _ <;> simp [fieldOf, Value.toJson, Json.same, Number.same]

theorem fieldOf_same_null {x : Option Value} : (fieldOf x).same .null = true ↔ x = none := by
  rcases x with _ | _ | _ | _ <;> simp [fieldOf, Value.toJson, Json.same]

theorem truth_equals {name : String} {v : Value} :
    (Expr.equals (.column (ctx.column name)) (.value v)).truth tables [(ctx.qualifier, row)] =
      .true ↔ row name = some v := by
  rw [Expr.truth, value?_column, Term.value?, compared_eq_true]
  constructor
  · rintro ⟨w, hw, hv⟩
    rw [hw, hv]
  · exact fun h => ⟨v, h, rfl⟩

/-- The comparison of a column is true where that of the field holds. -/
theorem truth_comparison (h : Presented ctx tables row r) {name : String} {v : Json}
    (hfield : r.fields.contains name = true) (hv : (Operand.value v).isQueryable = true) :
    (comparison (ctx.column name) v).expr.truth tables [(ctx.qualifier, row)] = .true ↔
      fieldHolds ctx.session r name (.value v) = true := by
  obtain ⟨actual, hactual⟩ := Option.isSome_iff_exists.1 hfield
  rw [fieldHolds, hactual, h.fields name actual hactual]
  -- Null is tested for: a comparison with it would be unknown.
  cases v with
  | null =>
    rw [comparison, Predicate.expr, Expr.truth, value?_column, Truth.ofBool_eq_true]
    show _ ↔ (fieldOf (row name)).same .null = true
    rw [fieldOf_same_null, Option.isNone_iff_eq_none]
  | string s =>
    rw [comparison, Predicate.expr, truth_equals]
    exact fieldOf_same_text.symm
  | number n =>
    obtain ⟨i, hi⟩ := Option.isSome_iff_exists.1 hv
    have hn : n = .integer i := by
      cases n with
      | integer m =>
        rw [Number.toInt64?] at hi
        split at hi
        · rw [Option.some.inj hi]
        · cases hi
      | real d => cases hi
    rw [comparison, Predicate.expr, truth_equals, Value.ofNumber, hi, hn]
    exact fieldOf_same_integer.symm
  | bool b => cases hv
  | array items => cases hv
  | object fields => cases hv

/-- The list of variants has the one in the column where the variant of the record is among
    them. -/
theorem truth_oneOf (h : Presented ctx tables row r) (names : NameSet) :
    (Expr.isIn (.column (ctx.column ctx.storage.variantColumn))
      (names.toList.map .text)).truth tables [(ctx.qualifier, row)] = .true ↔
      variantHolds r names = true := by
  rw [truth_isIn, value?_column, variantHolds, h.variant, Option.any_eq_true]
  constructor
  · rintro ⟨v, hv, hrow⟩
    obtain ⟨n, hn, rfl⟩ := List.mem_map.1 hv
    exact ⟨n, by rw [hrow]; rfl, SortedSet.contains_eq_true.2 hn⟩
  · rintro ⟨n, hn, hnames⟩
    refine ⟨.text n, List.mem_map_of_mem (SortedSet.contains_eq_true.1 hnames), ?_⟩
    cases hrow : row ctx.storage.variantColumn with
    | none =>
      rw [hrow] at hn
      cases hn
    | some v =>
      rw [hrow] at hn
      cases v with
      | text s => cases hn; rfl
      | integer i => cases hn
      | real d => cases hn

/-! ### Tests of memberships -/

theorem value?_m (m : Row) (name : String) :
    (Term.column ⟨"m", name⟩).value? [("m", m), (ctx.qualifier, row)] = m name := by
  have hfind : [("m", m), (ctx.qualifier, row)].find? (sameName "m" ·.1) = some ("m", m) :=
    List.find?_cons_of_pos (sameName_self "m")
  rw [Term.value?, hfind, Option.bind_some]

theorem value?_outer (m : Row) (name : String) (hm : sameName ctx.qualifier "m" = false) :
    (Term.column (ctx.column name)).value? [("m", m), (ctx.qualifier, row)] = row name := by
  have hfind : [("m", m), (ctx.qualifier, row)].find? (sameName ctx.qualifier ·.1) =
      some (ctx.qualifier, row) := by
    rw [List.find?_cons_of_neg (by rw [hm]; exact Bool.false_ne_true)]
    exact List.find?_cons_of_pos (sameName_self ctx.qualifier)
  rw [Term.value?, Context.column, hfind, Option.bind_some]

/-- The roles that a membership has to have, as they are tested. -/
def HasRole (roles : Option NameSet) (m : Row) : Prop :=
  ∀ names, roles = some names → ∃ n ∈ names, m "role" = some (.text n)

theorem truth_withRoles {scope : Scope} {e : Expr} {m : Row} (roles : Option NameSet)
    (hm : ∀ name, (Term.column ⟨"m", name⟩).value? scope = m name) :
    (Expr.withRoles e (roles.map fun names => names.toList.map .text)).truth tables scope = .true ↔
      e.truth tables scope = .true ∧ HasRole roles m := by
  cases roles with
  | none => exact ⟨fun h => ⟨h, nofun⟩, fun h => h.1⟩
  | some names =>
    have hnames : HasRole (some names) m ↔ ∃ n ∈ names.toList, m "role" = some (.text n) :=
      ⟨fun h => h names rfl, fun h _ hsome => Option.some.inj hsome ▸ h⟩
    rw [hnames, Option.map_some]
    cases hlist : names.toList with
    | nil =>
      rw [List.map_nil, Expr.withRoles, Expr.truth, Truth.and_eq_true, truth_decided]
      refine ⟨fun h => absurd h.2 Bool.false_ne_true, ?_⟩
      rintro ⟨_, _, h, _⟩
      exact absurd h List.not_mem_nil
    | cons n ns =>
      rw [List.map_cons, Expr.withRoles, Expr.truth, Truth.and_eq_true, truth_isIn, hm,
        ← List.map_cons]
      · simp only [List.mem_map, exists_exists_and_eq_and]
      · exact List.cons_ne_nil _ _

/-- The subquery finds the memberships of the user with one of the roles. -/
theorem truth_membership (hm : sameName ctx.qualifier "m" = false) {user : Uuid}
    (huser : ctx.session.user = some user) (roles : Option NameSet) :
    (Predicate.membership ctx.storage.membershipTable (ctx.column ctx.storage.idColumn)
      (.text user.text) (roles.map fun names => names.toList.map .text)).expr.truth tables
        [(ctx.qualifier, row)] = .true ↔
      ∃ m ∈ tables ctx.storage.membershipTable, IsMembership ctx row m ∧ HasRole roles m := by
  rw [Predicate.expr, Expr.truth, Truth.ofBool_eq_true, List.any_eq_true]
  refine exists_congr fun m => and_congr_right fun _ => ?_
  rw [decide_eq_true_eq, Expr.truth, Truth.and_eq_true, truth_withRoles roles fun n => value?_m m n,
    Expr.truth, Expr.truth, compared_eq_true, compared_eq_true, value?_m, value?_m,
    value?_outer m _ hm, IsMembership, huser, and_assoc]
  refine and_congr_right fun _ => and_congr_left fun _ => ?_
  constructor
  · rintro ⟨v, hv, huser'⟩
    cases huser'
    exact ⟨user, rfl, hv⟩
  · rintro ⟨u, hu, hv⟩
    cases hu
    exact ⟨_, hv, rfl⟩

/-- The subquery finds a membership where the record has one. -/
theorem memberHolds_iff (h : Presented ctx tables row r) (roles : Option NameSet) :
    memberHolds r roles = true ↔
      ∃ m ∈ tables ctx.storage.membershipTable, IsMembership ctx row m ∧ HasRole roles m := by
  obtain ⟨held, hheld, hroles⟩ := h.roles
  cases roles with
  | none =>
    rw [memberHolds_none, h.member]
    exact ⟨fun ⟨m, hm, his⟩ => ⟨m, hm, his, nofun⟩, fun ⟨m, hm, his, _⟩ => ⟨m, hm, his⟩⟩
  | some names =>
    rw [memberHolds_of_known hheld, Bool.and_eq_true, h.member, SortedSet.meets_eq_true]
    constructor
    · -- A role that is held is that of a row, and the row is one of a membership.
      rintro ⟨_, n, hn, hheld'⟩
      obtain ⟨m, hm, his, hrole⟩ := (hroles n).1 hheld'
      refine ⟨m, hm, his, ?_⟩
      rintro _ ⟨⟩
      exact ⟨n, hn, hrole⟩
    · rintro ⟨m, hm, his, hrole⟩
      obtain ⟨n, hn, hrole⟩ := hrole names rfl
      exact ⟨⟨m, hm, his⟩, n, hn, (hroles n).2 ⟨m, hm, his, hrole⟩⟩

/-! ### Conditions -/

@[simp] theorem ofConditions_eq_map (cs : List Condition) :
    Predicate.ofConditions ctx cs = cs.map (Predicate.ofCondition ctx) := by
  induction cs with
  | nil => rw [Predicate.ofConditions, List.map_nil]
  | cons c cs ih => rw [Predicate.ofConditions, List.map_cons, ih]

/-- No variant is among none: then the predicate is decided. -/
theorem truth_variant (h : Presented ctx tables row r) (names : NameSet) :
    (Predicate.ofCondition ctx (.variant names)).expr.truth tables [(ctx.qualifier, row)] = .true ↔
      variantHolds r names = true := by
  rw [Predicate.ofCondition]
  split
  · rename_i hempty
    have hnone : names.toList = [] := List.isEmpty_iff.1 hempty
    rw [Predicate.expr, truth_decided, variantHolds, Option.any_eq_true]
    constructor
    · intro h
      cases h
    rintro ⟨n, _, hn⟩
    rw [SortedSet.contains_eq_true, SortedSet.mem_def, hnone] at hn
    exact absurd hn List.not_mem_nil
  · exact truth_oneOf h names

/-- A session without a user is a member of nothing. -/
theorem truth_member (h : Presented ctx tables row r) (hm : sameName ctx.qualifier "m" = false)
    (roles : Option NameSet) :
    (Predicate.ofCondition ctx (.member roles)).expr.truth tables [(ctx.qualifier, row)] = .true ↔
      memberHolds r roles = true := by
  rw [Predicate.ofCondition, memberHolds_iff h, Context.user?]
  cases huser : ctx.session.user with
  | some user => exact truth_membership hm huser roles
  | none =>
    refine (truth_decided false).trans ⟨nofun, ?_⟩
    rintro ⟨m, _, ⟨_, u, hu, _⟩, _⟩
    rw [huser] at hu
    cases hu

/-- A field names the user by the text of the identifier, as a value of the column does. -/
theorem truth_requester (h : Presented ctx tables row r) {name : String}
    (hfield : r.fields.contains name = true) :
    (Predicate.ofCondition ctx (.field name .requester)).expr.truth tables
      [(ctx.qualifier, row)] = .true ↔ fieldHolds ctx.session r name .requester = true := by
  obtain ⟨actual, hactual⟩ := Option.isSome_iff_exists.1 hfield
  rw [Predicate.ofCondition, fieldHolds, Context.user?, hactual, h.fields name actual hactual,
    Option.bind_some]
  cases ctx.session.user with
  | none => exact (truth_decided false).trans ⟨nofun, nofun⟩
  | some user =>
    refine truth_equals.trans ?_
    cases row name with
    | none => exact ⟨nofun, nofun⟩
    | some v =>
      cases v with
      | text s => simp [fieldOf, Value.toJson, Json.text?]
      | integer i => exact ⟨nofun, nofun⟩
      | real d => exact ⟨nofun, nofun⟩

/-- The predicate for a condition says of a row what the condition says of the record. -/
theorem truth_ofCondition (h : Presented ctx tables row r)
    (hm : sameName ctx.qualifier "m" = false) : ∀ c : Condition, c.passes .queryable = true →
    c.passes (.fieldsOf r) = true →
    ((Predicate.ofCondition ctx c).expr.truth tables [(ctx.qualifier, row)] = .true ↔
      c.holdsOn ctx.session r = true) := by
  refine byParts (fun _ _ _ => truth_decided _) (fun names _ _ => truth_variant h names)
    (fun roles _ _ => truth_member h hm roles) ?field (fun _ _ => truth_decided false) ?allOf ?anyOf
  case field =>
    intro name operand hqueryable hfield
    cases operand with
    | value v => exact truth_comparison h hfield hqueryable
    | requester => exact truth_requester h hfield
  -- `AND` and `OR` are true in three-valued logic where they are in two-valued logic.
  case allOf =>
    intro parts ih hqueryable hfields
    rw [passes_allOf] at hqueryable hfields
    rw [Predicate.ofCondition, Predicate.expr, Predicate.exprs_eq_map, ofConditions_eq_map,
      truth_joined_and, holdsOn_allOf, List.all_eq_true]
    simp only [List.forall_mem_map]
    exact forall₂_congr fun c hc => ih c hc (hqueryable c hc) (hfields c hc)
  case anyOf =>
    intro parts ih hqueryable hfields
    rw [passes_anyOf] at hqueryable hfields
    rw [Predicate.ofCondition, Predicate.expr, Predicate.exprs_eq_map, ofConditions_eq_map,
      truth_joined_or, holdsOn_anyOf, List.any_eq_true]
    simp only [List.mem_map, exists_exists_and_eq_and]
    exact exists_congr fun c => and_congr_right fun hc =>
      ih c hc (hqueryable c hc) (hfields c hc)

end Authorization.Sql
