import Authorization.Cypher.Filter
import Authorization.Proofs.Cypher.Expressions
import Authorization.Proofs.Cypher.Graphs
import Authorization.Proofs.Sql.Rows

/-!
# Conditions on nodes and on records

A node, with the memberships around it, is presented as a record: the fields are
properties, null where the node does not have one, and the membership is that of
the session's user (`Presented`). What the predicate for a condition says of the
node is then true just where the condition holds for the record, but for fields
that are compared with null: null is what a comparison with null never finds
(`truth_ofCondition`, `withoutNulls`).

Queries compare numbers by their value, where a check tells an integer from a
double; so fields that are compared with an integer have no double of its value
(`Check.exact`).
-/

namespace Authorization.Cypher

open Condition

/-! ### Presenting nodes -/

/-- A value as a document shows it. -/
def Scalar.toJson : Scalar → Json
  | boolean b => .bool b
  | integer n => .number (.integer n)
  | real d => .number (.real d)
  | text s => .string s

namespace Datum

/-- A datum as a field shows it. -/
def toJson : Datum → Json
  | null => .null
  | one v => v.toJson
  | list vs => .array (vs.map Scalar.toJson)

/-- A datum as a name. -/
def name? : Datum → Option String
  | one (.text s) => some s
  | _ => none

theorem name?_eq_some {d : Datum} {n : String} : d.name? = some n ↔ d = one (.text n) := by
  rcases d with _ | w | _
  · simp [name?]
  · cases w <;> simp [name?]
  · simp [name?]

theorem text?_toJson (d : Datum) : d.toJson.text? = d.name? := by
  rcases d with _ | w | _
  · rfl
  · cases w <;> rfl
  · rfl

/-- Whether a datum is a double of the value of an integer. -/
def isDoubleOf (n : Int) : Datum → Bool
  | one (.real d) => isValueOf n d
  | _ => false

end Datum

variable (g : Graph)

/-- The node `m` is a membership of the node `id`, that of the user with an identifier. -/
def IsMembershipOf (user : String) (id m : Nat) : Prop :=
  ⟨m, "membership", id⟩ ∈ g.relationships ∧ "Member" ∈ g.labels m ∧
    ∃ n, ⟨m, "user", n⟩ ∈ g.relationships ∧ "User" ∈ g.labels n ∧
      g.property n "id" = .one (.text user)

/-- The node `m` is a membership of the node `id`, that of the session's user. -/
def IsMembership (s : Session) (id m : Nat) : Prop :=
  ∃ user, s.user = some user ∧ IsMembershipOf g user.text id m

/-- The node `m` lists a role. -/
def ListsRole (m : Nat) (role : String) : Prop :=
  ∃ items, g.property m "roles" = .list items ∧ .text role ∈ items

/-- A record presents a node, and the memberships of the session's user: its fields are properties,
    the variant is in the property for it, and the roles of the memberships are known. -/
structure Presented (s : Session) (id : Nat) (r : Record) : Prop where
  /-- Fields show what is in the properties of their names. -/
  fields : ∀ name v, r.fields.get? name = some v → v = (g.property id name).toJson
  /-- The variant is in its property. -/
  variant : r.variant = (g.property id "variant").name?
  /-- The user is a member if there is a node that says so. -/
  member : r.member = true ↔ ∃ m, IsMembership g s id m
  /-- The roles are those in the lists of such nodes. -/
  roles : ∃ held, r.membershipRoles = some held ∧
    ∀ role, role ∈ held ↔ ∃ m, IsMembership g s id m ∧ ListsRole g m role

end Authorization.Cypher

namespace Authorization

namespace Operand

/-- Whether the operand is null. -/
def isNull : Operand → Bool
  | .value .null => true
  | _ => false

/-- Whether the operand is the user, null, a boolean, a text or an integer. -/
def isScalar : Operand → Bool
  | .requester | .value .null | .value (.bool _) | .value (.string _) => true
  | .value (.number (.integer _)) => true
  | .value _ => false

/-- Whether the operand is no integer that a datum is a double of. -/
def isExact (d : Cypher.Datum) : Operand → Bool
  | .value (.number (.integer n)) => !d.isDoubleOf n
  | _ => true

end Operand

namespace Check

/-- Fields are compared with the user, null, booleans, texts or integers. -/
def scalar : Check := ⟨fun _ => true, fun _ operand => operand.isScalar⟩

/-- Fields are not compared with null. -/
def nonNull : Check := ⟨fun _ => true, fun _ operand => !operand.isNull⟩

/-- Fields have names that can stand in a query on graphs. -/
def wordsOf (a : Cypher.Alphabet) : Check := ⟨fun _ => true, fun name _ => a.isName name⟩

/-- Fields are not compared with an integer where a node has a double of its value. -/
def exact (g : Cypher.Graph) (id : Nat) : Check :=
  ⟨fun _ => true, fun name operand => operand.isExact (g.property id name)⟩

end Check

namespace Condition

mutual

/-- The condition without what compares a field with null: that never holds. -/
def withoutNulls : Condition → Condition
  | .field name operand => if operand.isNull then .calculated else .field name operand
  | .allOf parts => .allOf (eachWithoutNulls parts)
  | .anyOf parts => .anyOf (eachWithoutNulls parts)
  | c => c

/-- The conditions without what compares a field with null. -/
def eachWithoutNulls : List Condition → List Condition
  | [] => []
  | c :: cs => withoutNulls c :: eachWithoutNulls cs

end

@[simp] theorem eachWithoutNulls_eq_map (cs : List Condition) :
    eachWithoutNulls cs = cs.map withoutNulls := by
  induction cs with
  | nil => rw [eachWithoutNulls, List.map_nil]
  | cons c cs ih => rw [eachWithoutNulls, List.map_cons, ih]

/-- Without comparisons with null, there is nothing to leave out. -/
theorem withoutNulls_eq_self : ∀ c : Condition, c.passes .nonNull = true → c.withoutNulls = c := by
  refine byParts (fun _ _ => rfl) (fun _ _ => rfl) (fun _ _ => rfl) ?field (fun _ => rfl) ?allOf
    ?anyOf
  case field =>
    intro name operand h
    have hnull : operand.isNull = false := Bool.not_eq_eq_eq_not.1 h
    rw [withoutNulls, hnull]
    rfl
  case allOf =>
    intro parts ih h
    rw [passes_allOf] at h
    rw [withoutNulls, eachWithoutNulls_eq_map, List.map_congr_left fun c hc => ih c hc (h c hc),
      List.map_id']
  case anyOf =>
    intro parts ih h
    rw [passes_anyOf] at h
    rw [withoutNulls, eachWithoutNulls_eq_map, List.map_congr_left fun c hc => ih c hc (h c hc),
      List.map_id']

/-- What holds without comparisons with null holds with them. -/
theorem holdsOn_of_withoutNulls {s : Session} {r : Record} :
    ∀ c : Condition, c.withoutNulls.holdsOn s r = true → c.holdsOn s r = true := by
  refine byParts (fun _ h => h) (fun _ h => h) (fun _ h => h) ?field (fun h => h) ?allOf ?anyOf
  case field =>
    intro name operand h
    rw [withoutNulls] at h
    split at h
    · cases h
    · exact h
  case allOf =>
    intro parts ih h
    rw [withoutNulls, eachWithoutNulls_eq_map, holdsOn_allOf, List.all_map, List.all_eq_true] at h
    rw [holdsOn_allOf, List.all_eq_true]
    exact fun c hc => ih c hc (h c hc)
  case anyOf =>
    intro parts ih h
    rw [withoutNulls, eachWithoutNulls_eq_map, holdsOn_anyOf, List.any_map, List.any_eq_true] at h
    obtain ⟨c, hc, hholds⟩ := h
    rw [holdsOn_anyOf, List.any_eq_true]
    exact ⟨c, hc, ih c hc hholds⟩

end Condition

end Authorization

namespace Authorization.Cypher

open Condition

variable {g : Graph} {s : Session} {node : String} {id : Nat} {r : Record}

/-! ### Values and document values -/

theorem ofJson?_toJson (x : Scalar) : Datum.ofJson? x.toJson = some (.one x) := by
  cases x <;> rfl

theorem ofJson?_ofTexts (ts : List String) :
    Datum.ofJson? (.ofTexts ts) = some (.list (ts.map .text)) := by
  have hitems : (ts.map Json.string).mapM Scalar.ofJson? = some (ts.map .text) := by
    induction ts with
    | nil => rfl
    | cons t ts ih =>
      rw [List.map_cons, List.mapM_cons, ih]
      rfl
  rw [Json.ofTexts, Datum.ofJson?, hitems]
  rfl

/-- What a field is compared with is null, or a value that is no double. -/
theorem eq_null_or_toJson {v : Json} (hv : (Operand.value v).isScalar = true) :
    v = .null ∨ ∃ x : Scalar, v = x.toJson ∧ ∀ d, x ≠ .real d := by
  cases v with
  | null => exact .inl rfl
  | bool b => exact .inr ⟨.boolean b, rfl, nofun⟩
  | string t => exact .inr ⟨.text t, rfl, nofun⟩
  | number n =>
    cases n with
    | integer n => exact .inr ⟨.integer n, rfl, nofun⟩
    | real d => cases hv
  | array items => cases hv
  | object fields => cases hv

/-- A field shows a value that is no double only where the property has it. -/
theorem toJson_same {d : Datum} {x : Scalar} (hx : ∀ e, x ≠ .real e) :
    d.toJson.same x.toJson = true ↔ d = .one x := by
  rcases d with _ | w | ws
  · cases x <;> simp [Datum.toJson, Scalar.toJson, Json.same]
  · cases x with
    | real e => exact absurd rfl (hx e)
    | _ => cases w <;> simp [Datum.toJson, Scalar.toJson, Json.same, Number.same]
  · cases x <;> simp [Datum.toJson, Scalar.toJson, Json.same]

/-- A query finds the value there too, unless there is a double of the value of an integer. -/
theorem equal_of_isExact {d : Datum} {x : Scalar} (hx : ∀ e, x ≠ .real e)
    (hexact : (Operand.value x.toJson).isExact d = true) :
    d.equal (.one x) = .true ↔ d = .one x := by
  rw [Datum.equal_one]
  cases x with
  | real e => exact absurd rfl (hx e)
  | boolean b => simp only [Scalar.equal_boolean, exists_eq_right]
  | text t => simp only [Scalar.equal_text, exists_eq_right]
  | integer n =>
    constructor
    · rintro ⟨w, rfl, hw⟩
      rcases Scalar.equal_integer.1 hw with rfl | ⟨e, rfl, he⟩
      · rfl
      · rw [Scalar.toJson, Operand.isExact, Datum.isDoubleOf, he] at hexact
        cases hexact
    · exact fun h => ⟨_, h, Scalar.equal_integer.2 (.inl rfl)⟩

/-! ### Tests of the node -/

theorem datum_property {scope : Scope} {n : Nat} (h : scope.lookup node = some (.node n))
    (key : String) : (Term.property node key).datum g scope = g.property n key := by
  rw [Term.datum, h]

theorem datum_node (key : String) :
    (Term.property node key).datum g [(node, .node id)] = g.property id key :=
  datum_property List.lookup_cons_self key

/-- A property is found to have a value where the field shows it; nothing is found to be null. -/
theorem truth_equals (h : Presented g s id r) {name : String} {v : Json}
    (hfield : r.fields.contains name = true) (hv : (Operand.value v).isScalar = true)
    (hexact : (Operand.value v).isExact (g.property id name) = true) :
    ((Predicate.equals name (.numbered name v)).expr node).truth g [(node, .node id)] = .true ↔
      (Condition.field name (.value v)).withoutNulls.holdsOn s r = true := by
  obtain ⟨actual, hactual⟩ := Option.isSome_iff_exists.1 hfield
  rw [Predicate.expr, Expr.truth, datum_node, Term.datum, Parameter.datum, Parameter.value]
  rcases eq_null_or_toJson hv with rfl | ⟨x, rfl, hx⟩
  · -- With null, every comparison is unknown.
    cases g.property id name <;> constructor <;> rintro ⟨⟩
  · have hnull : (Operand.value x.toJson).isNull = false := by cases x <;> rfl
    rw [withoutNulls, hnull, if_neg Bool.false_ne_true, holdsOn, fieldHolds, hactual,
      h.fields name actual hactual, ofJson?_toJson, Option.getD_some,
      equal_of_isExact hx hexact]
    exact (toJson_same hx).symm

/-- A field names the user by the text of the identifier, as the property does. -/
theorem truth_requester (h : Presented g s id r) {name : String}
    (hfield : r.fields.contains name = true) :
    ((Predicate.ofCondition s (.field name .requester)).expr node).truth g
      [(node, .node id)] = .true ↔ fieldHolds s r name .requester = true := by
  obtain ⟨actual, hactual⟩ := Option.isSome_iff_exists.1 hfield
  rw [Predicate.ofCondition, fieldHolds, requester?, hactual, h.fields name actual hactual,
    Option.bind_some, Datum.text?_toJson]
  cases s.user with
  | none => constructor <;> rintro ⟨⟩
  | some user =>
    show (Expr.equals _ (.value (.one (.text user.text)))).truth g _ = .true ↔ _
    rw [Expr.truth, datum_node, Term.datum, Datum.equal_one]
    simp only [Scalar.equal_text, exists_eq_right]
    rw [← Datum.name?_eq_some]
    cases (g.property id name).name? with
    | none => constructor <;> rintro ⟨⟩
    | some actual => simp

/-- A name is in a list of names as a text is. -/
theorem isIn_texts {d : Datum} {names : NameSet} :
    d.isIn (.list (names.toList.map .text)) = .true ↔ ∃ n ∈ names, d = .one (.text n) := by
  rw [Datum.isIn_list]
  simp only [List.mem_map, exists_exists_and_eq_and, Datum.equal_one, Scalar.equal_text,
    exists_eq_right]
  exact Iff.rfl

theorem datum_namesParameter (stem : String) (names : NameSet) :
    (namesParameter stem names).datum = .list (names.toList.map .text) := by
  rw [namesParameter, Parameter.datum, Parameter.value, ofJson?_ofTexts, Option.getD_some]

/-- The list of variants has the one of the node where the variant of the record is among them. -/
theorem truth_variant (h : Presented g s id r) (names : NameSet) :
    ((Predicate.ofCondition s (.variant names)).expr node).truth g [(node, .node id)] = .true ↔
      variantHolds r names = true := by
  rw [Predicate.ofCondition, Predicate.expr, Expr.truth, datum_node, Term.datum,
    datum_namesParameter, isIn_texts, variantHolds, h.variant, Option.any_eq_true]
  simp only [Datum.name?_eq_some, SortedSet.contains_eq_true]
  exact exists_congr fun _ => and_comm

/-! ### Tests of memberships -/

/-- The scope in which the name of a membership, if there is one, stands for a node. -/
def memberScope (node : String) (id : Nat) (member : Option String) (m : Nat) : Scope :=
  (member.map fun name => (name, Binding.node m)).toList ++ [(node, .node id)]

/-- The path is found where there are memberships of the user. -/
theorem mem_matches_membershipPath {member : Option String} (hmember : member ≠ some node)
    {user : String} {scope : Scope} :
    scope ∈ (membershipPath node member (.one (.text user))).matches g [(node, .node id)] ↔
      id ∈ g.nodes ∧ ∃ m, IsMembershipOf g user id m ∧ memberScope node id member m = scope := by
  have hfirst : ∀ n next, NodePattern.bind? g ⟨some node, none, none⟩ n [(node, .node id)] =
      some next ↔ id = n ∧ [(node, .node id)] = next := fun n next =>
    (NodePattern.bind?_of_known rfl List.lookup_cons_self).trans (and_iff_right rfl)
  have hsecond : ∀ m next, NodePattern.bind? g ⟨member, some "Member", none⟩ m
      [(node, .node id)] = some next ↔ "Member" ∈ g.labels m ∧
        memberScope node id member m = next := by
    intro m next
    have hfits : NodePattern.fits g ⟨member, some "Member", none⟩ m = true ↔
        "Member" ∈ g.labels m := by simp [NodePattern.fits]
    cases member with
    | none => exact (NodePattern.bind?_of_unnamed rfl).trans (and_congr_left fun _ => hfits)
    | some name =>
      have hnew : [(node, Binding.node id)].lookup name = none := by
        rw [List.lookup_cons, beq_eq_false_iff_ne.2 fun hname => hmember (congrArg some hname)]
        rfl
      exact (NodePattern.bind?_of_new rfl hnew).trans (and_congr_left fun _ => hfits)
  have hthird : ∀ n scope next, NodePattern.bind? g
      ⟨none, some "User", some ("id", .one (.text user))⟩ n scope = some next ↔
        ("User" ∈ g.labels n ∧ g.property n "id" = .one (.text user)) ∧ scope = next := by
    intro n scope next
    have hfits : NodePattern.fits g ⟨none, some "User", some ("id", .one (.text user))⟩ n = true ↔
        "User" ∈ g.labels n ∧ g.property n "id" = .one (.text user) := by
      simp [NodePattern.fits, Datum.equal_one, Scalar.equal_text]
    exact (NodePattern.bind?_of_unnamed rfl).trans (and_congr_left fun _ => hfits)
  rw [mem_matches]
  constructor
  · rintro ⟨_, hid, _, hnode, h⟩
    obtain ⟨rfl, rfl⟩ := (hfirst _ _).1 hnode
    obtain ⟨m, hm, _, hnext, h⟩ := mem_follow_cons.1 h
    obtain ⟨hlabel, rfl⟩ := (hsecond _ _).1 hnext
    obtain ⟨n, hn, _, hnext, h⟩ := mem_follow_cons.1 h
    obtain ⟨huser, rfl⟩ := (hthird _ _ _).1 hnext
    exact ⟨hid, m, ⟨mem_next_backward.1 hm, hlabel, n, mem_next_forward.1 hn, huser⟩,
      mem_follow_nil.1 h⟩
  · rintro ⟨hid, m, ⟨hm, hlabel, n, hn, huser⟩, hscope⟩
    refine ⟨id, hid, _, (hfirst _ _).2 ⟨rfl, rfl⟩, ?_⟩
    refine mem_follow_cons.2 ⟨m, mem_next_backward.2 hm, _, (hsecond _ _).2 ⟨hlabel, rfl⟩, ?_⟩
    exact mem_follow_cons.2 ⟨n, mem_next_forward.2 hn, _, (hthird _ _ _).2 ⟨huser, rfl⟩,
      mem_follow_nil.2 hscope⟩

/-- A subquery asks for memberships of the user of which the test is true. -/
theorem truth_hasPath {member : Option String} (hmember : member ≠ some node) {user : String}
    {test : Expr} :
    (Expr.hasPath (membershipPath node member (.one (.text user))) test).truth g
        [(node, .node id)] = .true ↔
      id ∈ g.nodes ∧ ∃ m, IsMembershipOf g user id m ∧
        test.truth g (memberScope node id member m) = .true := by
  rw [Expr.truth, Sql.Truth.ofBool_eq_true, List.any_eq_true]
  simp only [mem_matches_membershipPath hmember, decide_eq_true_eq]
  constructor
  · rintro ⟨_, ⟨hid, m, hm, rfl⟩, htest⟩
    exact ⟨hid, m, hm, htest⟩
  · rintro ⟨hid, m, hm, htest⟩
    exact ⟨_, ⟨hid, m, hm, rfl⟩, htest⟩

/-- The test of the roles is true of a membership that lists one of them. -/
theorem truth_rolesTest {m : Nat} {names : NameSet} :
    (rolesTest (.list (names.toList.map .text))).truth g (memberScope node id (some "m") m) =
        .true ↔ ∃ n ∈ names, ListsRole g m n := by
  have hlist : (Term.property "m" "roles").datum g (memberScope node id (some "m") m) =
      g.property m "roles" := datum_property List.lookup_cons_self "roles"
  rw [rolesTest, Expr.truth, hlist]
  cases hroles : g.property m "roles" with
  | list items =>
    have hitem : ∀ v, (Expr.isIn (.item "role") (.value (.list (names.toList.map .text)))).truth g
        (("role", .item v) :: memberScope node id (some "m") m) =
          (Datum.one v).isIn (.list (names.toList.map .text)) := fun v => rfl
    simp only [Datum.items?, Datum.anyTrue_eq_true, List.mem_map, hitem, isIn_texts]
    constructor
    · rintro ⟨v, hv, n, hn, hvalue⟩
      cases hvalue
      exact ⟨n, hn, items, hroles, hv⟩
    · rintro ⟨n, hn, items', hitems, hlisted⟩
      cases hroles.symm.trans hitems
      exact ⟨.text n, hlisted, n, hn, rfl⟩
  -- What is no list has no items, and lists no role.
  | null =>
    refine ⟨by rintro ⟨⟩, ?_⟩
    rintro ⟨n, _, items, hitems, _⟩
    cases hroles.symm.trans hitems
  | one v =>
    refine ⟨by rintro ⟨⟩, ?_⟩
    rintro ⟨n, _, items, hitems, _⟩
    cases hroles.symm.trans hitems

/-- A record has a membership with one of the roles where a node is one that lists it. -/
theorem memberHolds_iff (h : Presented g s id r) (roles : Option NameSet) :
    memberHolds r roles = true ↔ ∃ m, IsMembership g s id m ∧
      ∀ names, roles = some names → ∃ n ∈ names, ListsRole g m n := by
  obtain ⟨held, hheld, hroles⟩ := h.roles
  cases roles with
  | none =>
    rw [memberHolds_none, h.member]
    exact ⟨fun ⟨m, hm⟩ => ⟨m, hm, nofun⟩, fun ⟨m, hm, _⟩ => ⟨m, hm⟩⟩
  | some names =>
    rw [memberHolds_of_known hheld, Bool.and_eq_true, h.member, SortedSet.meets_eq_true]
    constructor
    · -- A role that is held is one that a membership lists.
      rintro ⟨_, n, hn, hheld'⟩
      obtain ⟨m, hm, hlists⟩ := (hroles n).1 hheld'
      refine ⟨m, hm, ?_⟩
      rintro _ ⟨⟩
      exact ⟨n, hn, hlists⟩
    · rintro ⟨m, hm, hlists⟩
      obtain ⟨n, hn, hlists⟩ := hlists names rfl
      exact ⟨⟨m, hm⟩, n, hn, (hroles n).2 ⟨m, hm, hlists⟩⟩

/-- A session without a user is a member of nothing. -/
theorem truth_member (h : Presented g s id r) (hid : id ∈ g.nodes) (hm : node ≠ "m")
    (roles : Option NameSet) :
    ((Predicate.ofCondition s (.member roles)).expr node).truth g [(node, .node id)] = .true ↔
      memberHolds r roles = true := by
  rw [Predicate.ofCondition, memberHolds_iff h, requester?]
  cases huser : s.user with
  | none =>
    refine ⟨nofun, ?_⟩
    rintro ⟨m, ⟨user, huser', _⟩, _⟩
    cases huser.symm.trans huser'
  | some user =>
    have hmembership : ∀ m, IsMembershipOf g user.text id m ↔ IsMembership g s id m := fun m =>
      ⟨fun hm => ⟨user, huser, hm⟩, fun ⟨_, huser', hm⟩ =>
        Option.some.inj (huser.symm.trans huser') ▸ hm⟩
    cases roles with
    | none =>
      have hrefer : none ≠ some node := nofun
      refine (truth_hasPath hrefer).trans ((and_iff_right hid).trans (exists_congr fun m => ?_))
      exact and_congr (hmembership m) ⟨fun _ => nofun, fun _ => rfl⟩
    | some names =>
      have hrefer : some "m" ≠ some node := fun hname => hm (Option.some.inj hname).symm
      refine (truth_hasPath hrefer).trans ((and_iff_right hid).trans (exists_congr fun m => ?_))
      rw [datum_namesParameter]
      refine and_congr (hmembership m) (truth_rolesTest.trans ⟨?_, fun hlists => hlists names rfl⟩)
      rintro hlists _ ⟨⟩
      exact hlists

/-! ### Conditions -/

@[simp] theorem ofConditions_eq_map (cs : List Condition) :
    Predicate.ofConditions s cs = cs.map (Predicate.ofCondition s) := by
  induction cs with
  | nil => rw [Predicate.ofConditions, List.map_nil]
  | cons c cs ih => rw [Predicate.ofConditions, List.map_cons, ih]

theorem truth_joined_and {scope : Scope} {es : List Expr} :
    (Expr.joined .and true es).truth g scope = .true ↔ ∀ e ∈ es, e.truth g scope = .true := by
  induction es with
  | nil => exact ⟨fun _ _ h => absurd h List.not_mem_nil, fun _ => rfl⟩
  | cons e es ih =>
    cases es with
    | nil => rw [Expr.joined, List.forall_mem_singleton]
    | cons f fs =>
      rw [Expr.joined, Expr.truth, Sql.Truth.and_eq_true, ih]
      · exact (List.forall_mem_cons (p := fun e : Expr => e.truth g scope = .true)).symm
      · exact List.cons_ne_nil _ _

theorem truth_joined_or {scope : Scope} {es : List Expr} :
    (Expr.joined .or false es).truth g scope = .true ↔ ∃ e ∈ es, e.truth g scope = .true := by
  induction es with
  | nil => exact ⟨nofun, fun ⟨_, h, _⟩ => absurd h List.not_mem_nil⟩
  | cons e es ih =>
    cases es with
    | nil => simp [Expr.joined]
    | cons f fs =>
      rw [Expr.joined, Expr.truth, Sql.Truth.or_eq_true, ih]
      · simp
      · exact List.cons_ne_nil _ _

/-- The predicate for a condition says of a node what the condition says of the record, as far as
    it is not about null. -/
theorem truth_ofCondition (h : Presented g s id r) (hid : id ∈ g.nodes) (hm : node ≠ "m") :
    ∀ c : Condition, c.passes .scalar = true → c.passes (.exact g id) = true →
      c.passes (.fieldsOf r) = true →
      (((Predicate.ofCondition s c).expr node).truth g [(node, .node id)] = .true ↔
        c.withoutNulls.holdsOn s r = true) := by
  refine byParts (fun _ _ _ _ => Sql.Truth.ofBool_eq_true)
    (fun names _ _ _ => truth_variant h names) (fun roles _ _ _ => truth_member h hid hm roles)
    ?field (fun _ _ _ => Sql.Truth.ofBool_eq_true) ?allOf ?anyOf
  case field =>
    intro name operand hscalar hexact hfield
    cases operand with
    | value v => exact truth_equals h hfield hscalar hexact
    | requester => exact truth_requester h hfield
  -- `AND` and `OR` are true in three-valued logic where they are in two-valued logic.
  case allOf =>
    intro parts ih hscalar hexact hfields
    rw [passes_allOf] at hscalar hexact hfields
    rw [Predicate.ofCondition, Predicate.expr, Predicate.exprs_eq_map, ofConditions_eq_map,
      truth_joined_and, withoutNulls, eachWithoutNulls_eq_map, holdsOn_allOf, List.all_map,
      List.all_eq_true]
    simp only [List.forall_mem_map]
    exact forall₂_congr fun c hc => ih c hc (hscalar c hc) (hexact c hc) (hfields c hc)
  case anyOf =>
    intro parts ih hscalar hexact hfields
    rw [passes_anyOf] at hscalar hexact hfields
    rw [Predicate.ofCondition, Predicate.expr, Predicate.exprs_eq_map, ofConditions_eq_map,
      truth_joined_or, withoutNulls, eachWithoutNulls_eq_map, holdsOn_anyOf, List.any_map,
      List.any_eq_true]
    simp only [List.mem_map, exists_exists_and_eq_and]
    exact exists_congr fun c => and_congr_right fun hc =>
      ih c hc (hscalar c hc) (hexact c hc) (hfields c hc)

end Authorization.Cypher
