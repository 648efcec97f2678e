import Authorization.Proofs.Cypher.Nodes
import Authorization.Proofs.Sorted.Entries

/-!
# Graph filters select what conditions allow

The filter for a condition, put into a query on nodes, selects a node just where
the condition holds for the record that presents the node, once comparisons with
null are left out (`selects_iff_holds`): SQL tests for null by itself, but a query
on graphs compares with it, which is never true. So it may select less than the
condition allows (`forgotten_note`), but never more.

This takes names that can stand in a query as they are, a name for the node that
the text does not use itself, and numbers that are written alike (`mismatches`).
-/

namespace Authorization.Cypher

open Condition

variable {a : Alphabet} {g : Graph} {s : Session} {node : String}

/-! ### What conditions supply -/

mutual

/-- The values that a condition supplies for the references in its text, in their order. -/
def supplied (s : Session) : Condition → List Json
  | .role _ | .calculated => []
  | .variant names => [.ofTexts names.toList]
  | .member roles =>
    match s.user with
    | none => []
    | some user => .string user.text :: (roles.map fun names => Json.ofTexts names.toList).toList
  | .field _ .requester => (s.user.map fun user => Json.string user.text).toList
  | .field _ (.value v) => [v]
  | .allOf parts | .anyOf parts => suppliedByEach s parts

/-- The values that conditions supply, one condition after the other. -/
def suppliedByEach (s : Session) : List Condition → List Json
  | [] => []
  | c :: cs => supplied s c ++ suppliedByEach s cs

end

@[simp] theorem suppliedByEach_eq_flatMap (cs : List Condition) :
    suppliedByEach s cs = cs.flatMap (supplied s) := by
  induction cs with
  | nil => rw [suppliedByEach, List.flatMap_nil]
  | cons c cs ih => rw [suppliedByEach, List.flatMap_cons, ih]

theorem valuesOfEach_ofConditions {parts : List Condition}
    (h : ∀ c ∈ parts, (Predicate.ofCondition s c).values = supplied s c) :
    Predicate.valuesOfEach (Predicate.ofConditions s parts) = suppliedByEach s parts := by
  rw [ofConditions_eq_map, Predicate.valuesOfEach_eq_flatMap, suppliedByEach_eq_flatMap,
    List.flatMap_map]
  exact List.flatMap_congr h

/-- The parameters of the predicate for a condition have the values that the condition supplies. -/
theorem values_ofCondition :
    ∀ c : Condition, (Predicate.ofCondition s c).values = supplied s c := by
  refine byParts (fun _ => rfl) (fun _ => rfl) ?member ?field rfl
    (fun _ => valuesOfEach_ofConditions) (fun _ => valuesOfEach_ofConditions)
  case member =>
    intro roles
    rw [Predicate.ofCondition, supplied, requester?]
    cases s.user with
    | none => rfl
    | some user => cases roles <;> rfl
  case field =>
    intro name operand
    cases operand with
    | value v => rfl
    | requester =>
      rw [Predicate.ofCondition, supplied, requester?]
      cases s.user <;> rfl

/-! ### Names and variables -/

theorem isLegible_namesParameter {stem : String} (h : a.isName stem = true) (names : NameSet) :
    (namesParameter stem names).isLegible a = true := by
  rw [namesParameter, Parameter.isLegible, h, ofJson?_ofTexts]
  rfl

/-- A query can have the text of a field, if it can have the name of the field. -/
theorem isLegible_field {name : String} (hname : a.isName name = true) {v : Json}
    (hv : (Operand.value v).isScalar = true) :
    (Predicate.equals name (.numbered name v)).isLegible a = true := by
  have hdatum : (Datum.ofJson? v).isSome = true := by
    rcases eq_null_or_toJson hv with rfl | ⟨x, rfl, _⟩
    · rfl
    · rw [ofJson?_toJson]
      rfl
  rw [Predicate.isLegible, Parameter.isLegible, hname, hdatum]
  rfl

theorem areLegible_ofConditions {parts : List Condition}
    (h : ∀ c ∈ parts, (Predicate.ofCondition s c).isLegible a = true) :
    Predicate.areLegible a (Predicate.ofConditions s parts) = true := by
  rw [ofConditions_eq_map, Predicate.areLegible_eq_all, List.all_map]
  exact List.all_eq_true.2 h

theorem isLegible_ofCondition : ∀ c : Condition, c.passes .scalar = true →
    c.passes (.wordsOf a) = true → (Predicate.ofCondition s c).isLegible a = true := by
  refine byParts (fun _ _ _ => rfl) ?variant ?member ?field (fun _ _ => rfl) ?allOf ?anyOf
  case variant =>
    intro names _ _
    have hname : a.isName "variant" = true := rfl
    rw [Predicate.ofCondition, Predicate.isLegible, hname, isLegible_namesParameter rfl]
    rfl
  case member =>
    intro roles _ _
    rw [Predicate.ofCondition, requester?]
    cases s.user with
    | none => rfl
    | some user =>
      cases roles with
      | none => rfl
      | some names =>
        have hstem : a.isName "memberRoles" = true := rfl
        exact isLegible_namesParameter hstem names
  case field =>
    intro name operand hscalar hname
    cases operand with
    | value v => exact isLegible_field hname hscalar
    | requester =>
      rw [Predicate.ofCondition, requester?]
      cases s.user with
      | none => rfl
      | some user =>
        have hname' : a.isName name = true := hname
        show (Predicate.equals name (.requester user.text)).isLegible a = true
        rw [Predicate.isLegible, hname']
        rfl
  case allOf =>
    intro parts ih hscalar hname
    rw [passes_allOf] at hscalar hname
    exact areLegible_ofConditions fun c hc => ih c hc (hscalar c hc) (hname c hc)
  case anyOf =>
    intro parts ih hscalar hname
    rw [passes_anyOf] at hscalar hname
    exact areLegible_ofConditions fun c hc => ih c hc (hscalar c hc) (hname c hc)

theorem isClosed_joined {operator : Expr → Expr → Expr} {names : List String}
    (hop : ∀ e f, (operator e f).isClosed names = (e.isClosed names && f.isClosed names))
    (unit : Bool) {es : List Expr} (h : ∀ e ∈ es, e.isClosed names = true) :
    (Expr.joined operator unit es).isClosed names = true := by
  induction es with
  | nil => rfl
  | cons e es ih =>
    cases es with
    | nil => exact h e List.mem_cons_self
    | cons f fs =>
      rw [Expr.joined, hop, h e List.mem_cons_self, ih fun g hg => h g (List.mem_cons_of_mem _ hg)]
      · rfl
      · exact List.cons_ne_nil _ _

theorem isKnown_node (key : String) : (Term.property node key).isKnown [node] = true :=
  List.elem_cons_self

/-- The test of the roles is on variables of the path and of the list. -/
theorem isClosed_membership (user : Parameter) (roles : Option Parameter) :
    ((Predicate.membership user roles).expr node).isClosed [node] = true := by
  cases roles with
  | none => rfl
  | some roles =>
    rw [Predicate.expr, rolesTest, Expr.isClosed, Expr.isClosed, Expr.isClosed]
    simp [Term.isKnown, membershipPath, Path.names]

theorem forall_mem_exprs_ofConditions {P : Expr → Prop} {parts : List Condition}
    (h : ∀ c ∈ parts, P ((Predicate.ofCondition s c).expr node)) :
    ∀ e ∈ Predicate.exprs node (Predicate.ofConditions s parts), P e := by
  intro e he
  rw [Predicate.exprs_eq_map, ofConditions_eq_map] at he
  obtain ⟨p, hp, rfl⟩ := List.mem_map.1 he
  obtain ⟨c, hc, rfl⟩ := List.mem_map.1 hp
  exact h c hc

/-- The variables in the text of a condition are the node, or those that it brings in. -/
theorem isClosed_ofCondition :
    ∀ c : Condition, ((Predicate.ofCondition s c).expr node).isClosed [node] = true := by
  refine byParts (fun _ => rfl) ?variant ?member ?field rfl ?allOf ?anyOf
  case variant => exact fun _ => Bool.and_eq_true_iff.2 ⟨isKnown_node _, rfl⟩
  case member =>
    intro roles
    rw [Predicate.ofCondition]
    cases requester? s with
    | none => rfl
    | some user => exact isClosed_membership user _
  case field =>
    intro name operand
    cases operand with
    | value v => exact Bool.and_eq_true_iff.2 ⟨isKnown_node _, rfl⟩
    | requester =>
      rw [Predicate.ofCondition]
      cases requester? s with
      | none => rfl
      | some user => exact Bool.and_eq_true_iff.2 ⟨isKnown_node _, rfl⟩
  case allOf =>
    exact fun parts ih => isClosed_joined (fun _ _ => rfl) true (forall_mem_exprs_ofConditions ih)
  case anyOf =>
    exact fun parts ih => isClosed_joined (fun _ _ => rfl) false (forall_mem_exprs_ofConditions ih)

/-! ### Filters -/

/-- The filter for a condition, with the values that the condition supplies, is read as a test of
    the node. It is true of a node just where the condition holds for the record that presents
    the node, but for comparisons with null, of which it finds none. -/
theorem selects_iff_holds (hnode : a.isVariable node = true) (hm : node ≠ "m") {id : Nat}
    (hid : id ∈ g.nodes) {r : Record} (hr : Presented g s id r) {c : Condition}
    (hscalar : c.passes .scalar = true) (hwords : c.passes (.wordsOf a) = true)
    (hfields : c.passes (.fieldsOf r) = true) (hexact : c.passes (.exact g id) = true) :
    ∃ test, Expr.read? a (fragment node s c).text (supplied s c) = some test ∧
      test.isClosed [node] = true ∧
      (test.truth g [(node, .node id)] = .true ↔ c.withoutNulls.holds s (some r) = .ok true) ∧
      (test.truth g [(node, .node id)] = .true → c.holds s (some r) = .ok true) ∧
      (c.passes .nonNull = true →
        (test.truth g [(node, .node id)] = .true ↔ c.holds s (some r) = .ok true)) := by
  have hread := read?_fragment hnode (isLegible_ofCondition (s := s) c hscalar hwords)
  have htruth := truth_ofCondition hr hid hm c hscalar hexact hfields
  rw [values_ofCondition] at hread
  simp only [holds_some, Except.ok.injEq]
  refine ⟨_, hread, isClosed_ofCondition c, htruth, ?_, ?_⟩
  · exact fun h => holdsOn_of_withoutNulls c (htruth.1 h)
  · intro hnonNull
    rw [htruth, withoutNulls_eq_self c hnonNull]

/-! ### A note with a member -/

/-- No letters beyond ASCII. -/
def ascii : Alphabet := ⟨fun _ => false, fun _ => false⟩

/-- The session of the user 7. -/
def writer : Session := .ofUser ⟨7⟩

/-- The note 0 of some pages, its membership 1, and the user 2. -/
def noteGraph (pages : Scalar) : Graph where
  nodes := [0, 1, 2]
  labels n := [["Note"], ["Member"], ["User"]].getD n []
  property n key :=
    match n, key with
    | 0, "author" => .one (.text (Uuid.mk 7).text)
    | 0, "pages" => .one pages
    | 0, "variant" => .one (.text "shared")
    | 1, "roles" => .list [.text "editor", .text "reader"]
    | 2, "id" => .one (.text (Uuid.mk 7).text)
    | _, _ => .null
  relationships := [⟨1, "membership", 0⟩, ⟨1, "user", 2⟩]

/-- The note as a record. -/
def noteRecord (pages : Scalar) : Record where
  fields := .ofList
    [("author", .string (Uuid.mk 7).text), ("deleted", .null), ("pages", pages.toJson)]
  variant := some "shared"
  member := true
  membershipRoles := some (.ofList ["editor", "reader"])

theorem isMembership_noteGraph {pages : Scalar} {m : Nat} :
    IsMembership (noteGraph pages) writer 0 m ↔ m = 1 := by
  constructor
  · rintro ⟨_, _, h, _⟩
    rcases List.mem_pair.1 h with h | h
    · exact congrArg Relationship.source h
    · have hkind : "membership" = "user" := congrArg Relationship.kind h
      exact absurd hkind (by decide)
  · rintro rfl
    exact ⟨⟨7⟩, rfl, List.mem_cons_self, List.mem_cons_self, 2,
      List.mem_cons_of_mem _ List.mem_cons_self, List.mem_cons_self, rfl⟩

theorem presented_noteRecord (pages : Scalar) :
    Presented (noteGraph pages) writer 0 (noteRecord pages) where
  fields := by
    intro name v h
    have hmem := (SortedMap.mem_of_get?_insertAll h).resolve_right nofun
    simp only [List.mem_cons, List.not_mem_nil, or_false, Prod.mk.injEq] at hmem
    rcases hmem with ⟨rfl, rfl⟩ | ⟨rfl, rfl⟩ | ⟨rfl, rfl⟩
    · rfl
    · rfl
    · rfl
  variant := rfl
  member := ⟨fun _ => ⟨1, isMembership_noteGraph.2 rfl⟩, fun _ => rfl⟩
  roles := by
    refine ⟨_, rfl, fun role => ?_⟩
    simp only [isMembership_noteGraph, exists_eq_left, SortedSet.mem_ofList]
    have hroles : (noteGraph pages).property 1 "roles" =
      .list [.text "editor", .text "reader"] := rfl
    simp [ListsRole, hroles]

/-- Editors among the members of the object. -/
def byEditors : Condition := .member (some (.ofList ["editor"]))

/-- Three pages. -/
def ofThreePages : Condition := .field "pages" (.value (.ofInt 3))

/-- A note is not deleted where the field is null. -/
def undeleted : Condition := .field "deleted" (.value .null)

/-- What may be edited: shared notes of three pages, by editors, unless somebody else's is
    deleted. -/
def editable : Condition :=
  .allOf [.variant (.ofList ["shared"]), byEditors, ofThreePages,
    .anyOf [undeleted, .owner "author"]]

/-- The filter for notes that may be edited selects the note. -/
theorem selects_note : ∃ test,
    Expr.read? ascii (fragment "n" writer editable).text (supplied writer editable) = some test ∧
      test.truth (noteGraph (.integer 3)) [("n", .node 0)] = .true := by
  have hvariable : ascii.isVariable "n" = true := rfl
  have hm : "n" ≠ "m" := by decide
  have hnote : 0 ∈ (noteGraph (.integer 3)).nodes := List.mem_cons_self
  have hscalar : editable.passes .scalar = true := rfl
  have hwords : editable.passes (.wordsOf ascii) = true := rfl
  have hfields : editable.passes (.fieldsOf (noteRecord (.integer 3))) = true := rfl
  have hexact : editable.passes (.exact (noteGraph (.integer 3)) 0) = true := rfl
  obtain ⟨test, hread, _, htruth, _⟩ := selects_iff_holds hvariable hm hnote
    (presented_noteRecord _) hscalar hwords hfields hexact
  exact ⟨test, hread, htruth.2 rfl⟩

/-- The note is not deleted, but the filter for notes that are not does not select it. -/
theorem forgotten_note : Presented (noteGraph (.integer 3)) writer 0 (noteRecord (.integer 3)) ∧
    undeleted.holds writer (some (noteRecord (.integer 3))) = .ok true ∧ ∃ test,
      Expr.read? ascii (fragment "n" writer undeleted).text (supplied writer undeleted) =
        some test ∧ test.truth (noteGraph (.integer 3)) [("n", .node 0)] = .unknown := by
  refine ⟨presented_noteRecord _, rfl, .equals (.property "n" "deleted") (.value .null), ?_, rfl⟩
  exact read?_fragment (a := ascii) (p := .equals "deleted" (.numbered "deleted" .null)) rfl rfl

/-- The double-precision number 3. -/
def three : Decimal := ⟨false, 3, 0, by decide⟩

/-- What else keeps filters from saying what conditions say: a double of the value of an integer,
    a node by the name of memberships, and a field whose name is no word. -/
theorem mismatches :
    (ofThreePages.holds writer (some (noteRecord (.real three))) = .ok false ∧
      ∃ test, Expr.read? ascii (fragment "n" writer ofThreePages).text
        (supplied writer ofThreePages) = some test ∧
        test.truth (noteGraph (.real three)) [("n", .node 0)] = .true) ∧
    (byEditors.holds writer (some (noteRecord (.integer 3))) = .ok true ∧
      ∃ test, Expr.read? ascii (fragment "m" writer byEditors).text (supplied writer byEditors) =
        some test ∧ test.truth (noteGraph (.integer 3)) [("m", .node 0)] = .false) ∧
    Expr.read? ascii (fragment "n" writer (.field "due date" (.value .null))).text [.null] =
      none := by
  have hpages : Expr.read? ascii (fragment "n" writer ofThreePages).text
      (supplied writer ofThreePages) =
        some (.equals (.property "n" "pages") (.value (.one (.integer 3)))) :=
    read?_fragment (a := ascii) (p := Predicate.ofCondition writer ofThreePages) rfl rfl
  have heditors : Expr.read? ascii (fragment "m" writer byEditors).text
      (supplied writer byEditors) =
        some (.hasPath (membershipPath "m" (some "m") (.one (.text (Uuid.mk 7).text)))
          (rolesTest (.list [.text "editor"]))) :=
    read?_fragment (a := ascii) (p := Predicate.ofCondition writer byEditors) rfl rfl
  exact ⟨⟨rfl, _, hpages, by decide⟩, ⟨rfl, _, heditors, by decide⟩, by decide⟩

end Authorization.Cypher
