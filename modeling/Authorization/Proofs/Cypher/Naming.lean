import Authorization.Proofs.Condition.Leaves
import Authorization.Proofs.Cypher.Nodes
import Authorization.Proofs.Sorted.Entries
import Authorization.Proofs.Text.Pieces

/-!
# Names of parameters

The values that conditions supply for a query on graphs are numbered in the order
of its text, and each goes by its stem and its number (`Supply.name`). In the text
every condition refers to its value by that name (`written`), and the parameters
are the values under their names, and the user of the session where a condition is
on the user (`mem_paramsFrom_iff`).

A stem is free to end in digits, so a later name may be the same as an earlier
one, and its value stands in the place of the other (`overwritten`). Names are the
same only where the stem of the earlier one is that of the later one with the first
digits of the later number (`name_eq_iff`). Otherwise nothing is lost
(`params_kept`): so it is for the first ten values, and where no stem ends in a
digit.
-/

namespace Authorization.Cypher

open Condition

/-! ### What conditions supply -/

/-- A value for a numbered parameter. -/
structure Supply where
  /-- What the name begins with. -/
  stem : String
  /-- The value. -/
  value : Json

/-- The name of a value, where `n` is its number. -/
def Supply.name (x : Supply) (n : Nat) : String := x.stem ++ toString n

/-- The value that a leaf supplies for a numbered parameter, if it does. -/
def supply? (s : Session) : Condition → Option Supply
  | .variant names => some ⟨"variants", .ofTexts names.toList⟩
  | .member roles =>
    s.user.bind fun _ => roles.map fun names => ⟨"memberRoles", .ofTexts names.toList⟩
  | .field name (.value v) => some ⟨name, v⟩
  | _ => none

/-- The values that a condition supplies, in the order of the leaves that supply them. -/
def supplies (s : Session) (c : Condition) : List Supply := c.leaves.filterMap (supply? s)

/-- The values under their names, where `n` is the first number. -/
def namedFrom (n : Nat) (xs : List Supply) : List (String × Json) :=
  xs.mapIdx fun i x => (x.name (n + i), x.value)

/-- The names of the values of a condition. -/
def names (s : Session) (c : Condition) : List String := (namedFrom 0 (supplies s c)).map Prod.fst

/-- The user to whom a leaf refers, if it does. -/
def user? (s : Session) : Condition → Option String
  | .member _ | .field _ .requester => s.user.map Uuid.text
  | _ => none

@[simp] theorem namedFrom_nil (n : Nat) : namedFrom n [] = [] := rfl

@[simp] theorem namedFrom_cons (n : Nat) (x : Supply) (xs : List Supply) :
    namedFrom n (x :: xs) = (x.name n, x.value) :: namedFrom (n + 1) xs := by
  simp only [namedFrom, List.mapIdx_cons, Nat.add_zero, Nat.add_assoc, Nat.add_comm 1]

/-! ### What pieces refer to -/

theorem joined_cons_cons (operator : String) (unit : Bool) (ps qs : List Piece)
    (pss : List (List Piece)) : joined operator unit (ps :: qs :: pss) =
      .fixed "(" :: [Piece.fixed operator].intercalate (ps :: qs :: pss) ++ [.fixed ")"] := rfl

/-- The value for a numbered parameter to which a piece refers, if it does. -/
def Piece.supply? : Piece → Option Supply
  | reference (.numbered stem v) => some ⟨stem, v⟩
  | _ => none

/-- The user to whom a piece refers, if it does. -/
def Piece.user? : Piece → Option String
  | reference (.requester user) => some user
  | _ => none

section Joined

variable {β : Type} {read : Piece → Option β} (hfixed : ∀ t, read (.fixed t) = none)
include hfixed

/-- What joins parts refers to nothing. -/
theorem filterMap_joined (operator : String) (unit : Bool) (parts : List (List Piece)) :
    (joined operator unit parts).filterMap read = parts.flatMap (List.filterMap read) := by
  match parts with
  | [] => exact List.filterMap_cons_none (hfixed _)
  | [ps] => exact (List.flatMap_singleton _ _).symm
  | ps :: qs :: pss =>
    rw [joined_cons_cons, List.cons_append, List.filterMap_cons_none (hfixed _),
      List.filterMap_append, Text.filterMap_intercalate (hfixed _),
      List.filterMap_cons_none (hfixed _), List.filterMap_nil, List.append_nil]

/-- What the text of a condition refers to is what the texts of its leaves refer to. -/
theorem filterMap_pieces {node : String} {s : Session} {ofLeaf : Condition → Option β}
    (hleaf : ∀ d, d.parts? = none →
      ((Predicate.ofCondition s d).pieces node).filterMap read = (ofLeaf d).toList)
    (c : Condition) :
    ((Predicate.ofCondition s c).pieces node).filterMap read = c.leaves.filterMap ofLeaf := by
  rw [List.filterMap_eq_flatMap_toList ofLeaf]
  refine eq_flatMap_leaves (fun d => ((Predicate.ofCondition s d).pieces node).filterMap read)
    _ hleaf ?_ ?_ c
  all_goals
    intro parts
    rw [Predicate.ofCondition, Predicate.pieces, filterMap_joined hfixed,
      Predicate.piecesOfEach_eq_map, ofConditions_eq_map, List.flatMap_map, List.flatMap_map]

end Joined

variable {node : String} {s : Session}

/-- The text of a condition refers to the values that it supplies. -/
theorem filterMap_supply? (c : Condition) :
    ((Predicate.ofCondition s c).pieces node).filterMap Piece.supply? = supplies s c := by
  refine filterMap_pieces (fun _ => rfl) (fun d hd => ?_) c
  cases d with
  | allOf => cases hd
  | anyOf => cases hd
  | member roles =>
    rw [Predicate.ofCondition, requester?, supply?]
    cases s.user <;> cases roles <;> rfl
  | field name operand =>
    cases operand with
    | value v => rfl
    | requester =>
      rw [Predicate.ofCondition, requester?]
      cases s.user <;> rfl
  | _ => rfl

/-- The text of a condition refers to the user where one of its leaves does. -/
theorem filterMap_user? (c : Condition) :
    ((Predicate.ofCondition s c).pieces node).filterMap Piece.user? =
      c.leaves.filterMap (user? s) := by
  refine filterMap_pieces (fun _ => rfl) (fun d hd => ?_) c
  cases d with
  | allOf => cases hd
  | anyOf => cases hd
  | member roles =>
    rw [Predicate.ofCondition, requester?, user?]
    cases s.user <;> cases roles <;> rfl
  | field name operand =>
    cases operand with
    | value v => rfl
    | requester =>
      rw [Predicate.ofCondition, requester?, user?]
      cases s.user <;> rfl
  | _ => rfl

/-! ### The text -/

/-- How many numbered parameters pieces refer to. -/
abbrev numbered (ps : List Piece) : Nat := (ps.filterMap Piece.supply?).length

theorem textFrom_append (n : Nat) (ps qs : List Piece) :
    textFrom n (ps ++ qs) = textFrom n ps ++ textFrom (n + numbered ps) qs := by
  induction ps generalizing n with
  | nil => rw [List.nil_append, textFrom, String.empty_append]; rfl
  | cons p ps ih =>
    rw [List.cons_append]
    cases p with
    | fixed t => rw [textFrom, textFrom, ih, String.append_assoc]; rfl
    | reference p =>
      rw [textFrom, textFrom, ih, String.append_assoc]
      cases p with
      | requester user => rfl
      | numbered stem v =>
        have hcount : numbered (.reference (.numbered stem v) :: ps) = numbered ps + 1 := rfl
        rw [hcount, Parameter.next, Nat.add_assoc, Nat.add_comm 1, String.append_assoc,
          String.append_assoc]

/-- Texts joined by an operator, in parentheses unless there is only one; none are decided by
    `unit`. -/
def joinedText (operator : String) (unit : Bool) : List String → String
  | [] => decided unit
  | [t] => t
  | ts => "(" ++ operator.intercalate ts ++ ")"

/-- A reference to a parameter, as it stands in the text. -/
def mark (name : String) : String := "$" ++ name

/-- The text of a membership, which goes by `member`. -/
def memberText (node member : String) : String :=
  "EXISTS \x7b MATCH (" ++ node ++ ")<-[:membership]-(" ++ member ++
    ":Member)-[:user]->(:User \x7b id: " ++ (mark "requestingUser" ++ " \x7d)")

mutual

/-- The text of a condition on `node`, where `n` is the next number. -/
def written (node : String) (s : Session) (n : Nat) : Condition → String
  | .role names => decided (s.hasAnyRole names)
  | .variant _ => node ++ "." ++ "variant" ++ " IN " ++ mark ("variants" ++ toString n)
  | .member roles =>
    if s.user.isSome then
      match roles with
      | none => memberText node "" ++ " \x7d"
      | some _ =>
        memberText node "m" ++ " WHERE any(role IN m.roles WHERE role IN " ++
          mark ("memberRoles" ++ toString n) ++ ") \x7d"
    else decided false
  | .field name .requester =>
    if s.user.isSome then node ++ "." ++ name ++ " = " ++ mark "requestingUser" else decided false
  | .field name (.value _) => node ++ "." ++ name ++ " = " ++ mark (name ++ toString n)
  | .calculated => decided false
  | .allOf parts => joinedText " AND " true (writtenEach node s n parts)
  | .anyOf parts => joinedText " OR " false (writtenEach node s n parts)

/-- The texts of conditions on `node`: each takes as many numbers as it supplies values. -/
def writtenEach (node : String) (s : Session) (n : Nat) : List Condition → List String
  | [] => []
  | c :: cs => written node s n c :: writtenEach node s (n + (supplies s c).length) cs

end

theorem textFrom_pattern (member user : String) (n : Nat) (ps : List Piece) :
    textFrom n (pattern node member (.requester user) ++ ps) =
      memberText node member ++ textFrom n ps := by
  have hnone : numbered (pattern node member (.requester user)) = 0 := rfl
  rw [textFrom_append, hnone, Nat.add_zero, pattern, textFrom, textFrom, textFrom, textFrom,
    String.append_empty, Parameter.name]
  unfold memberText
  rfl

section Parts

variable {parts : List Condition} (h : ∀ c ∈ parts, ∀ n,
  textFrom n ((Predicate.ofCondition s c).pieces node) = written node s n c)
include h

/-- The texts of parts follow each other with an operator between them. -/
theorem textFrom_intercalate (operator : String) (n : Nat) :
    textFrom n ([Piece.fixed operator].intercalate
        (parts.map fun c => (Predicate.ofCondition s c).pieces node)) =
      operator.intercalate (writtenEach node s n parts) := by
  induction parts generalizing n with
  | nil => rfl
  | cons c cs ih =>
    obtain ⟨hc, hcs⟩ := List.forall_mem_cons.1 h
    by_cases hnil : cs = []
    · rw [hnil, List.map_singleton, List.intercalate_singleton, hc, writtenEach, writtenEach,
        String.intercalate_singleton]
    · have htexts : writtenEach node s (n + (supplies s c).length) cs ≠ [] := by
        obtain ⟨d, ds, rfl⟩ := List.exists_cons_of_ne_nil hnil
        exact List.cons_ne_nil _ _
      rw [List.map_cons, List.intercalate_cons_of_ne_nil (mt List.map_eq_nil_iff.1 hnil),
        List.append_assoc, textFrom_append, hc, numbered, filterMap_supply?,
        List.singleton_append, textFrom, ih hcs, writtenEach,
        String.intercalate_cons_of_ne_nil htexts, String.append_assoc]

theorem textFrom_joined (operator : String) (unit : Bool) (n : Nat) :
    textFrom n (joined operator unit
        (parts.map fun c => (Predicate.ofCondition s c).pieces node)) =
      joinedText operator unit (writtenEach node s n parts) := by
  match parts, h with
  | [], _ => exact String.append_empty
  | [c], h => exact h c List.mem_cons_self n
  | c :: d :: ds, h =>
    have hall := textFrom_intercalate h operator n
    rw [List.map_cons, List.map_cons] at hall ⊢
    rw [joined_cons_cons, List.cons_append, textFrom, textFrom_append, hall, textFrom, textFrom,
      String.append_empty]
    rfl

end Parts

/-- The text of a condition is written with the names of the values that it supplies. -/
theorem textFrom_pieces : ∀ (c : Condition) (n : Nat),
    textFrom n ((Predicate.ofCondition s c).pieces node) = written node s n c := by
  refine byParts (fun _ _ => String.append_empty) ?variant ?member ?field
    (fun _ => String.append_empty) ?allOf ?anyOf
  case variant =>
    intro names n
    rw [Predicate.ofCondition, Predicate.pieces, textFrom, textFrom, textFrom, String.append_empty]
    rfl
  case member =>
    intro roles n
    rw [Predicate.ofCondition, requester?]
    cases roles with
    | none =>
      rw [written]
      cases s.user with
      | none => exact String.append_empty
      | some user =>
        rw [Option.map_some, Option.map_none, Predicate.pieces, textFrom_pattern, textFrom,
          textFrom, String.append_empty]
        rfl
    | some names =>
      rw [written]
      cases s.user with
      | none => exact String.append_empty
      | some user =>
        rw [Option.map_some, Option.map_some, Predicate.pieces, textFrom_pattern, textFrom,
          textFrom, textFrom, textFrom, String.append_empty]
        simp only [String.append_assoc]
        rfl
  case field =>
    intro name operand n
    cases operand with
    | value v =>
      rw [Predicate.ofCondition, Predicate.pieces, textFrom, textFrom, textFrom,
        String.append_empty]
      rfl
    | requester =>
      rw [Predicate.ofCondition, requester?, written]
      cases s.user with
      | none => exact String.append_empty
      | some user =>
        show textFrom n ((Predicate.equals name (.requester user.text)).pieces node) = _
        rw [Predicate.pieces, textFrom, textFrom, textFrom, String.append_empty]
        rfl
  case allOf =>
    intro parts ih n
    rw [Predicate.ofCondition, Predicate.pieces, Predicate.piecesOfEach_eq_map,
      ofConditions_eq_map, List.map_map, written]
    exact textFrom_joined ih " AND " true n
  case anyOf =>
    intro parts ih n
    rw [Predicate.ofCondition, Predicate.pieces, Predicate.piecesOfEach_eq_map,
      ofConditions_eq_map, List.map_map, written]
    exact textFrom_joined ih " OR " false n

/-! ### The parameters -/

/-- The parameters are the values under their names, and the user where a piece refers to it. -/
theorem mem_paramsFrom_iff {ps : List Piece} {n : Nat} {e : String × Json} :
    e ∈ paramsFrom n ps ↔ e ∈ namedFrom n (ps.filterMap Piece.supply?) ∨
      ∃ user ∈ ps.filterMap Piece.user?, e = ("requestingUser", .string user) := by
  induction ps generalizing n with
  | nil =>
    constructor
    · exact nofun
    · rintro (h | ⟨_, h, _⟩) <;> cases h
  | cons p ps ih =>
    match p with
    | .fixed t => exact ih
    | .reference (.requester user) =>
      have hsupply : (Piece.reference (.requester user)).supply? = none := rfl
      have huser : (Piece.reference (.requester user)).user? = some user := rfl
      rw [paramsFrom, List.mem_cons, ih, List.filterMap_cons_none hsupply,
        List.filterMap_cons_some huser, List.exists_mem_cons_iff, or_left_comm]
      rfl
    | .reference (.numbered stem v) =>
      have hsupply : (Piece.reference (.numbered stem v)).supply? = some ⟨stem, v⟩ := rfl
      have huser : (Piece.reference (.numbered stem v)).user? = none := rfl
      rw [paramsFrom, List.mem_cons, ih, List.filterMap_cons_some hsupply,
        List.filterMap_cons_none huser, namedFrom_cons, List.mem_cons, or_assoc]
      rfl

/-- The entries of the parameters of a condition. -/
theorem mem_params_iff {c : Condition} {e : String × Json} :
    e ∈ paramsFrom 0 ((Predicate.ofCondition s c).pieces node) ↔
      e ∈ namedFrom 0 (supplies s c) ∨
        ∃ d ∈ c.leaves, ∃ user, user? s d = some user ∧ e = ("requestingUser", .string user) := by
  rw [mem_paramsFrom_iff, filterMap_supply?, filterMap_user?]
  simp only [List.mem_filterMap]
  constructor
  · rintro (h | ⟨user, ⟨d, hd, huser⟩, h⟩)
    · exact .inl h
    · exact .inr ⟨d, hd, user, huser, h⟩
  · rintro (h | ⟨d, hd, user, huser, h⟩)
    · exact .inl h
    · exact .inr ⟨user, ⟨d, hd, huser⟩, h⟩

/-- Every leaf that refers to a user refers to that of the session. -/
theorem eq_of_user? {d d' : Condition} {user user' : String} (h : user? s d = some user)
    (h' : user? s d' = some user') : user = user' := by
  have hsession : ∀ {d : Condition} {user : String}, user? s d = some user →
      s.user.map Uuid.text = some user := by
    intro d user h
    unfold user? at h
    split at h
    · exact h
    · exact h
    · cases h
  exact Option.some.inj ((hsession h).symm.trans (hsession h'))

/-! ### Names that are the same -/

theorem toList_name (x : Supply) (n : Nat) :
    (x.name n).toList = x.stem.toList ++ n.repr.toList := by
  unfold Supply.name
  rw [String.toList_append]
  rfl

theorem repr_ne_nil (n : Nat) : n.repr.toList ≠ [] := by
  rw [Nat.toList_repr]
  exact Nat.toDigits_ne_nil

/-- A name ends in a digit, so it is not that of the user. -/
theorem name_ne (x : Supply) (n : Nat) : x.name n ≠ "requestingUser" := by
  intro h
  have hlist := congrArg String.toList h
  rw [toList_name] at hlist
  have hr : 'r' ∈ n.repr.toList := by
    have hlast := congrArg List.getLast? hlist
    rw [List.getLast?_append_of_ne_nil _ (repr_ne_nil n)] at hlast
    exact List.mem_of_getLast? hlast
  exact absurd (Decimal.isDigit_of_mem_repr 'r' hr) (by decide)

theorem length_repr_le {i j : Nat} (h : i ≤ j) : i.repr.length ≤ j.repr.length := by
  have hj : j < 10 ^ j.repr.length := (Nat.length_repr_le_iff Nat.length_repr_pos).1 le_rfl
  exact (Nat.length_repr_le_iff Nat.length_repr_pos).2 (h.trans_lt hj)

/-- A later name is the same as an earlier one just where the stem of the earlier one is that of
    the later one and some digits more, with which the later number begins. -/
theorem name_eq_iff {x y : Supply} {i j : Nat} (h : i < j) :
    x.name i = y.name j ↔
      ∃ digits, x.stem = y.stem ++ digits ∧ toString j = digits ++ toString i := by
  constructor
  · intro hname
    have hlist := congrArg String.toList hname
    rw [toList_name, toList_name, List.append_eq_append_iff] at hlist
    rcases hlist with ⟨ds, hstem, hnumber⟩ | ⟨ds, hstem, hnumber⟩
    · -- The earlier number has no more digits than the later one, so there is nothing between.
      have hlength := congrArg List.length hnumber
      have hle := length_repr_le h.le
      rw [List.length_append, String.length_toList, String.length_toList] at hlength
      have hnil : ds = [] := List.length_eq_zero_iff.1 (by omega)
      rw [hnil, List.nil_append, String.toList_inj, Nat.repr_inj] at hnumber
      omega
    · refine ⟨.ofList ds, String.toList_inj.1 ?_, String.toList_inj.1 ?_⟩
      · rw [String.toList_append, String.toList_ofList, hstem]
      · rw [String.toList_append, String.toList_ofList]
        exact hnumber
  · rintro ⟨digits, hstem, hnumber⟩
    unfold Supply.name
    rw [hstem, hnumber, String.append_assoc]

/-- Numbered in their order, no two of the stems make one name. -/
def Apart (stems : List String) : Prop :=
  ∀ (i j : Nat) (x y : String), i < j → stems[i]? = some x → stems[j]? = some y →
    ∀ digits, x = y ++ digits → toString j ≠ digits ++ toString i

/-- The names of values differ just where their stems are apart. -/
theorem nodup_names_iff (xs : List Supply) :
    ((namedFrom 0 xs).map Prod.fst).Nodup ↔ Apart (xs.map Supply.stem) := by
  have hname : ∀ i, ((namedFrom 0 xs).map Prod.fst)[i]? = xs[i]?.map (Supply.name · i) := by
    intro i
    rw [List.getElem?_map, namedFrom, List.getElem?_mapIdx, Option.map_map, Nat.zero_add]
    rfl
  rw [List.nodup_iff_getElem?_ne_getElem?]
  constructor
  · intro h i j x y hij hx hy digits hstem hnumber
    rw [List.getElem?_map, Option.map_eq_some_iff] at hx hy
    obtain ⟨x, hx, rfl⟩ := hx
    obtain ⟨y, hy, rfl⟩ := hy
    have hlength : j < ((namedFrom 0 xs).map Prod.fst).length := by
      rw [List.length_map, namedFrom, List.length_mapIdx]
      exact (List.getElem?_eq_some_iff.1 hy).1
    refine h i j hij hlength ?_
    rw [hname, hname, hx, hy]
    exact congrArg some ((name_eq_iff hij).2 ⟨digits, hstem, hnumber⟩)
  · intro h i j hij hlength heq
    rw [List.length_map, namedFrom, List.length_mapIdx] at hlength
    rw [hname, hname, List.getElem?_eq_getElem hlength,
      List.getElem?_eq_getElem (hij.trans hlength)] at heq
    obtain ⟨digits, hstem, hnumber⟩ := (name_eq_iff hij).1 (Option.some.inj heq)
    refine h i j _ _ hij ?_ ?_ digits hstem hnumber
    · rw [List.getElem?_map, List.getElem?_eq_getElem (hij.trans hlength)]
      rfl
    · rw [List.getElem?_map, List.getElem?_eq_getElem hlength]
      rfl

/-- The first ten numbers have one digit each, so no stem can take over any of it. -/
theorem Apart.of_length_le {stems : List String} (h : stems.length ≤ 10) : Apart stems := by
  intro i j x y hij _ hy digits _ hnumber
  have hj : j < 10 ^ 1 := ((List.getElem?_eq_some_iff.1 hy).1.trans_le h)
  have hlength := congrArg String.length hnumber
  have hone : j.repr.length ≤ 1 := (Nat.length_repr_le_iff Nat.one_pos).2 hj
  have hpos : 0 < i.repr.length := Nat.length_repr_pos
  rw [String.length_append] at hlength
  have hnil : digits = "" := String.length_eq_zero_iff.1 (by
    change j.repr.length = digits.length + i.repr.length at hlength
    omega)
  rw [hnil, String.empty_append] at hnumber
  have hsame : j = i := Nat.repr_inj.1 hnumber
  omega

/-- A stem that does not end in a digit has taken over none. -/
theorem Apart.of_not_isDigit {stems : List String}
    (h : ∀ x ∈ stems, ∀ c ∈ x.toList.getLast?, c.isDigit = false) : Apart stems := by
  intro i j x y hij hx _ digits hstem hnumber
  have hne : digits.toList ≠ [] := by
    intro hnil
    rw [String.toList_eq_nil_iff.1 hnil, String.empty_append] at hnumber
    have hsame : j = i := Nat.repr_inj.1 hnumber
    omega
  have hlast := h x (List.mem_of_getElem? hx)
  rw [hstem, String.toList_append, List.getLast?_append_of_ne_nil _ hne,
    List.getLast?_eq_some_getLast hne] at hlast
  have hmem : digits.toList.getLast hne ∈ j.repr.toList := by
    have hlist := congrArg String.toList hnumber
    rw [String.toList_append] at hlist
    exact hlist ▸ List.mem_append_left _ (List.getLast_mem hne)
  have hdigit := Decimal.isDigit_of_mem_repr _ hmem
  rw [hlast _ rfl] at hdigit
  cases hdigit

/-! ### What is kept -/

/-- The parameters have the names of the values, and that of the user where a leaf refers to it. -/
theorem contains_params_iff {c : Condition} {key : String} :
    (fragment node s c).params.contains key = true ↔
      key ∈ names s c ∨ key = "requestingUser" ∧ ∃ d ∈ c.leaves, (user? s d).isSome = true := by
  refine (SortedMap.contains_insertAll (m := .empty)).trans ?_
  have hempty : (SortedMap.empty : NameMap Json).contains key = false := rfl
  rw [hempty, or_iff_left Bool.false_ne_true]
  simp only [mem_params_iff, exists_or, names, List.mem_map, Option.isSome_iff_exists,
    Prod.mk.injEq]
  constructor
  · rintro (⟨v, hv⟩ | ⟨v, d, hd, user, huser, hkey, -⟩)
    · exact .inl ⟨_, hv, rfl⟩
    · exact .inr ⟨hkey, d, hd, user, huser⟩
  · rintro (⟨e, he, rfl⟩ | ⟨hkey, d, hd, user, huser⟩)
    · exact .inl ⟨e.2, he⟩
    · exact .inr ⟨_, d, hd, user, huser, hkey, rfl⟩

theorem not_mem_names (c : Condition) : "requestingUser" ∉ names s c := by
  intro h
  obtain ⟨e, he, hname⟩ := List.mem_map.1 h
  obtain ⟨i, _, rfl⟩ := List.mem_mapIdx.1 he
  exact name_ne _ _ hname

/-- Where no two values go by one name, each is found under its name, and so is the user. -/
theorem get?_params_iff {c : Condition} (h : (names s c).Nodup) {key : String} {v : Json} :
    (fragment node s c).params.get? key = some v ↔
      (key, v) ∈ namedFrom 0 (supplies s c) ∨ key = "requestingUser" ∧
        ∃ d ∈ c.leaves, ∃ user, user? s d = some user ∧ v = .string user := by
  have hentries : ∀ v, (key, v) ∈ paramsFrom 0 ((Predicate.ofCondition s c).pieces node) ↔
      (key, v) ∈ namedFrom 0 (supplies s c) ∨ key = "requestingUser" ∧
        ∃ d ∈ c.leaves, ∃ user, user? s d = some user ∧ v = .string user := by
    intro v
    rw [mem_params_iff]
    simp only [Prod.mk.injEq]
    constructor
    · rintro (h | ⟨d, hd, user, huser, hkey, hv⟩)
      · exact .inl h
      · exact .inr ⟨hkey, d, hd, user, huser, hv⟩
    · rintro (h | ⟨hkey, d, hd, user, huser, hv⟩)
      · exact .inl h
      · exact .inr ⟨d, hd, user, huser, hkey, hv⟩
  -- A name has one value, and the user is the same wherever it is referred to.
  have hunique : ∀ v w, (key, v) ∈ paramsFrom 0 ((Predicate.ofCondition s c).pieces node) →
      (key, w) ∈ paramsFrom 0 ((Predicate.ofCondition s c).pieces node) → w = v := by
    intro v w hv hw
    rcases (hentries v).1 hv with hv | ⟨hkey, d, _, user, huser, rfl⟩ <;>
      rcases (hentries w).1 hw with hw | ⟨hkey', d', _, user', huser', rfl⟩
    · exact congrArg Prod.snd (List.inj_on_of_nodup_map h hw hv rfl)
    · exact absurd (hkey' ▸ List.mem_map_of_mem hv) (not_mem_names c)
    · exact absurd (hkey ▸ List.mem_map_of_mem hw) (not_mem_names c)
    · rw [eq_of_user? huser huser']
  rw [← hentries]
  constructor
  · intro hv
    exact (SortedMap.mem_of_get?_insertAll hv).resolve_right nofun
  · exact fun hv => SortedMap.get?_insertAll_of_mem hv fun w hw => hunique v w hv hw

/-- The text of a filter refers to each value by its name, no name is that of the user, and the
    parameters have no other names. Names differ just where their stems are apart; and then the
    parameters are the values under their names, and the user where the condition is on the
    user. -/
theorem params_kept (node : String) (s : Session) (c : Condition) :
    (fragment node s c).text = written node s 0 c ∧
      "requestingUser" ∉ names s c ∧
      (∀ key, (fragment node s c).params.contains key = true ↔
        key ∈ names s c ∨ key = "requestingUser" ∧ ∃ d ∈ c.leaves, (user? s d).isSome = true) ∧
      ((names s c).Nodup ↔ Apart ((supplies s c).map Supply.stem)) ∧
      (Apart ((supplies s c).map Supply.stem) → ∀ key v,
        (fragment node s c).params.get? key = some v ↔
          (key, v) ∈ namedFrom 0 (supplies s c) ∨ key = "requestingUser" ∧
            ∃ d ∈ c.leaves, ∃ user, user? s d = some user ∧ v = .string user) ∧
      ((supplies s c).length ≤ 10 ∨
          (∀ x ∈ supplies s c, ∀ l ∈ x.stem.toList.getLast?, l.isDigit = false) →
        Apart ((supplies s c).map Supply.stem)) := by
  refine ⟨textFrom_pieces c 0, not_mem_names c, fun _ => contains_params_iff, nodup_names_iff _,
    fun h _ _ => get?_params_iff ((nodup_names_iff _).2 h), ?_⟩
  rintro (h | h)
  · exact .of_length_le (by rwa [List.length_map])
  · exact .of_not_isDigit (List.forall_mem_map.2 h)

/-! ### A value that is lost -/

/-- A field that is compared with a text. -/
def compared (field text : String) : Condition := .field field (.value (.string text))

/-- What is filed under two codes; the first and the last field make one name with their
    numbers. -/
def filed : Condition :=
  .allOf (compared "code1" "first" :: List.replicate 9 (compared "note" "") ++
    [compared "code" "last"])

/-- The first and the last value go by one name, and the last one is what it stands for. -/
theorem overwritten : (namedFrom 0 (supplies .blank filed))[0]? = some ("code10", .string "first") ∧
    (namedFrom 0 (supplies .blank filed))[10]? = some ("code10", .string "last") ∧
    (fragment "n" .blank filed).params.get? "code10" = some (.string "last") := by
  refine ⟨rfl, rfl, rfl⟩

/-- Fewer values under the same codes, of what the user has filed. -/
def filedByUser : Condition :=
  .allOf [compared "code1" "first", compared "code" "last", .owner "author"]

/-- Names that look alike are apart, as long as the values are few. -/
theorem kept_filedByUser :
    (names (.ofUser ⟨7⟩) filedByUser) = ["code10", "code1"] ∧
      (fragment "n" (.ofUser ⟨7⟩) filedByUser).params.get? "code10" = some (.string "first") ∧
      (fragment "n" (.ofUser ⟨7⟩) filedByUser).params.get? "code1" = some (.string "last") ∧
      (fragment "n" (.ofUser ⟨7⟩) filedByUser).params.get? "requestingUser" =
        some (.string (Uuid.mk 7).text) := by
  obtain ⟨_, _, _, _, hget, hapart⟩ := params_kept "n" (.ofUser ⟨7⟩) filedByUser
  have hfew : (supplies (.ofUser ⟨7⟩) filedByUser).length ≤ 10 := by decide
  have hfound := hget (hapart (.inl hfew))
  refine ⟨rfl, (hfound _ _).2 (.inl ?_), (hfound _ _).2 (.inl ?_), (hfound _ _).2 (.inr ?_)⟩
  · exact List.mem_cons_self
  · exact List.mem_cons_of_mem _ List.mem_cons_self
  · have howner : Condition.owner "author" ∈ filedByUser.leaves :=
      List.mem_cons_of_mem _ (List.mem_cons_of_mem _ List.mem_cons_self)
    exact ⟨rfl, _, howner, _, rfl, rfl⟩

end Authorization.Cypher
