import Authorization.Proofs.Condition.Leaves
import Authorization.Proofs.Sql.Rows
import Authorization.Proofs.Text.Pieces

/-!
# Values stay out of the text

What a filter puts into a query is text and bound values. The text depends on the
*shape* of the condition only (`sameShape`): on names of fields, on how many names
are in a set and on what kind of operand a field is compared with, but not on any
value, and on the session only by which roles conditions hold and whether there is
a user. Whatever may stand in names, there are as many question marks outside of
them as there are bound values (`questionMarks_pieces`), and these are the values of
the leaves in their order (`binds_eq`).

A filter is put into a query step by step: text is appended, and each value leaves
a question mark (`pushCondition`). This comes to the same as appending the text and
the values of the filter, whatever the query has before (`pushCondition_eq`).

* `Filter.values_bound`: all of this for any filters.
-/

namespace Authorization.Sql

open Condition

/-! ### Shapes -/

/-- Whether a value is null. -/
def isNull : Json → Bool
  | .null => true
  | _ => false

/-- Whether two operands are of one kind: the user, null, or another value. -/
def sameKind : Operand → Operand → Bool
  | .requester, .requester => true
  | .value v, .value w => isNull v == isNull w
  | _, _ => false

mutual

/-- Whether two conditions are built alike, each for its session: on the same fields, with as many
    names in each set, and with conditions on roles that hold alike. -/
def sameShape (s t : Session) : Condition → Condition → Bool
  | .role a, .role b => s.hasAnyRole a == t.hasAnyRole b
  | .variant a, .variant b => a.toList.length == b.toList.length
  | .member a, .member b => a.map (·.toList.length) == b.map (·.toList.length)
  | .field f v, .field g w => f == g && sameKind v w
  | .calculated, .calculated => true
  | .allOf a, .allOf b | .anyOf a, .anyOf b => sameShapes s t a b
  | _, _ => false

/-- Whether the conditions of two lists are built alike, one by one. -/
def sameShapes (s t : Session) : List Condition → List Condition → Bool
  | [], [] => true
  | a :: as, b :: bs => sameShape s t a b && sameShapes s t as bs
  | _, _ => false

end

/-! ### The text -/

/-- The texts of pieces. -/
abbrev texts (ps : List Piece) : List String := ps.map Piece.text

/-- Of bound values the text shows only how many there are. -/
theorem texts_listed {vs ws : List Value} (h : vs.length = ws.length) :
    texts (listed vs) = texts (listed ws) := by
  have hmarks : ∀ us : List Value, (us.map fun v => [Piece.bind v]).map texts =
      List.replicate us.length ["?"] := by
    intro us
    rw [List.map_map]
    exact List.map_eq_replicate_iff.2 fun _ _ => rfl
  rw [listed, listed, texts, texts, List.cons_append, List.cons_append, List.map_cons,
    List.map_cons, List.map_append, List.map_append, Text.map_intercalate, Text.map_intercalate,
    hmarks, hmarks, h]

theorem length_values {a b : NameSet} (h : a.toList.length = b.toList.length) :
    (a.toList.map Value.text).length = (b.toList.map Value.text).length := by
  rw [List.length_map, List.length_map, h]

/-- A comparison shows of the value only whether it is null. -/
theorem texts_comparison (column : Column) {v w : Json} (h : isNull v = isNull w) :
    texts (comparison column v).pieces = texts (comparison column w).pieces := by
  cases v <;> cases w <;> first | rfl | cases h

theorem texts_membership (table : String) (object : Column) (user user' : Value)
    {roles roles' : Option (List Value)} (h : texts (roleTest roles) = texts (roleTest roles')) :
    texts (Predicate.membership table object user roles).pieces =
      texts (Predicate.membership table object user' roles').pieces := by
  rw [Predicate.pieces, Predicate.pieces]
  simp only [texts, List.map_append] at h ⊢
  rw [h]
  rfl

theorem texts_roleTest {vs ws : List Value} (h : vs.length = ws.length) :
    texts (roleTest (some vs)) = texts (roleTest (some ws)) := by
  match vs, ws with
  | [], [] => rfl
  | [], _ :: _ => cases h
  | _ :: _, [] => cases h
  | v :: vs, w :: ws => exact congrArg (List.cons " AND m.role IN ") (texts_listed h)

/-- Of parts that are joined the text shows their texts. -/
theorem texts_joined {operator : String} {unit : Bool} {pss qss : List (List Piece)}
    (h : pss.map texts = qss.map texts) :
    texts (joined operator unit pss) = texts (joined operator unit qss) := by
  match pss, qss with
  | [], [] => rfl
  | [], _ :: _ => cases h
  | _ :: _, [] => cases h
  | ps :: pss, qs :: qss =>
    have hjoined : ∀ (ps : List Piece) (pss : List (List Piece)),
        texts (joined operator unit (ps :: pss)) =
          "(" :: [operator].intercalate ((ps :: pss).map texts) ++ [")"] := by
      intro ps pss
      show texts (.fixed "(" :: [Piece.fixed operator].intercalate (ps :: pss) ++ [.fixed ")"]) = _
      rw [texts, List.cons_append, List.map_cons, List.map_append, Text.map_intercalate]
      rfl
    rw [hjoined, hjoined, h]

theorem piecesOfEach_ofConditions (ctx : Context) (parts : List Condition) :
    Predicate.piecesOfEach (Predicate.ofConditions ctx parts) =
      parts.map fun c => (Predicate.ofCondition ctx c).pieces := by
  rw [Predicate.piecesOfEach_eq_map, ofConditions_eq_map, List.map_map]
  rfl

variable {ctx ctx' : Context}

/-- For conditions of one shape the same texts are put together, whatever values they have. -/
theorem texts_pieces (hqualifier : ctx.qualifier = ctx'.qualifier)
    (hstorage : ctx.storage = ctx'.storage)
    (huser : ctx.session.user.isSome = ctx'.session.user.isSome) : ∀ c d : Condition,
    sameShape ctx.session ctx'.session c d = true →
      texts (Predicate.ofCondition ctx c).pieces = texts (Predicate.ofCondition ctx' d).pieces := by
  have hcolumn : ∀ name, ctx.column name = ctx'.column name := fun name => by
    rw [Context.column, Context.column, hqualifier]
  have husers : (ctx.user? = none ∧ ctx'.user? = none) ∨
      ∃ u u', ctx.user? = some u ∧ ctx'.user? = some u' := by
    rw [Context.user?, Context.user?]
    cases hs : ctx.session.user <;> cases hs' : ctx'.session.user
    · exact .inl ⟨rfl, rfl⟩
    · rw [hs, hs'] at huser
      cases huser
    · rw [hs, hs'] at huser
      cases huser
    · exact .inr ⟨_, _, rfl, rfl⟩
  have hparts : ∀ as bs : List Condition, (∀ a ∈ as, ∀ b,
      sameShape ctx.session ctx'.session a b = true →
        texts (Predicate.ofCondition ctx a).pieces = texts (Predicate.ofCondition ctx' b).pieces) →
      sameShapes ctx.session ctx'.session as bs = true →
      (as.map fun a => (Predicate.ofCondition ctx a).pieces).map texts =
        (bs.map fun b => (Predicate.ofCondition ctx' b).pieces).map texts := by
    intro as
    induction as with
    | nil =>
      intro bs _ h
      cases bs with
      | nil => rfl
      | cons => cases h
    | cons a as ih =>
      intro bs has h
      cases bs with
      | nil => cases h
      | cons b bs =>
        obtain ⟨ha, has⟩ := List.forall_mem_cons.1 has
        rw [sameShapes, Bool.and_eq_true] at h
        rw [List.map_cons, List.map_cons, List.map_cons, List.map_cons, ha b h.1, ih bs has h.2]
  refine byParts ?role ?variant ?member ?field ?calculated ?allOf ?anyOf
  case role =>
    intro a d h
    cases d <;> try cases h
    rename_i b
    have hholds : ctx.session.hasAnyRole a = ctx'.session.hasAnyRole b := beq_iff_eq.1 h
    rw [Predicate.ofCondition, Predicate.ofCondition, hholds]
  case variant =>
    intro a d h
    cases d <;> try cases h
    rename_i b
    have hlength : a.toList.length = b.toList.length := beq_iff_eq.1 h
    have hempty : a.isEmpty = b.isEmpty := by
      rw [SortedSet.isEmpty, SortedSet.isEmpty, Bool.eq_iff_iff, List.isEmpty_iff_length_eq_zero,
        List.isEmpty_iff_length_eq_zero, hlength]
    rw [Predicate.ofCondition, Predicate.ofCondition, hempty]
    split
    · rfl
    · have hlisted := texts_listed (length_values hlength)
      rw [Predicate.pieces, Predicate.pieces, hcolumn, hstorage]
      simp only [texts, List.map_append, List.map_cons] at hlisted ⊢
      rw [hlisted]
  case member =>
    intro a d h
    cases d <;> try cases h
    rename_i b
    have hsize : a.map (·.toList.length) = b.map (·.toList.length) := beq_iff_eq.1 h
    have hroles : texts (roleTest (a.map fun names => names.toList.map .text)) =
        texts (roleTest (b.map fun names => names.toList.map .text)) := by
      cases a with
      | none =>
        cases b with
        | none => rfl
        | some => cases hsize
      | some names =>
        cases b with
        | none => cases hsize
        | some names' => exact texts_roleTest (length_values (Option.some.inj hsize))
    rw [Predicate.ofCondition, Predicate.ofCondition]
    rcases husers with ⟨hnone, hnone'⟩ | ⟨u, u', hsome, hsome'⟩
    · rw [hnone, hnone']
    · rw [hsome, hsome', hstorage, hcolumn]
      exact texts_membership _ _ _ _ hroles
  case field =>
    intro name v d h
    cases d <;> try cases h
    rename_i name' w
    obtain ⟨hname, hkind⟩ := Bool.and_eq_true_iff.1 h
    rw [beq_iff_eq.1 hname]
    cases v <;> cases w <;> try cases hkind
    · rw [Predicate.ofCondition, Predicate.ofCondition]
      rcases husers with ⟨hnone, hnone'⟩ | ⟨u, u', hsome, hsome'⟩
      · rw [hnone, hnone']
      · rw [hsome, hsome', hcolumn]
        rfl
    · rw [Predicate.ofCondition, Predicate.ofCondition, hcolumn]
      exact texts_comparison _ (beq_iff_eq.1 hkind)
  case calculated =>
    intro d h
    cases d <;> try cases h
    rfl
  case allOf =>
    intro as ih d h
    cases d <;> try cases h
    rename_i bs
    rw [Predicate.ofCondition, Predicate.ofCondition, Predicate.pieces, Predicate.pieces,
      piecesOfEach_ofConditions, piecesOfEach_ofConditions]
    exact texts_joined (hparts as bs ih h)
  case anyOf =>
    intro as ih d h
    cases d <;> try cases h
    rename_i bs
    rw [Predicate.ofCondition, Predicate.ofCondition, Predicate.pieces, Predicate.pieces,
      piecesOfEach_ofConditions, piecesOfEach_ofConditions]
    exact texts_joined (hparts as bs ih h)

/-! ### Question marks -/

/-- The question marks outside of names; `named` tells whether the text begins inside a name. -/
def questionMarks (named : Bool) : List Char → Nat
  | [] => 0
  | '"' :: cs => questionMarks (!named) cs
  | '?' :: cs => questionMarks named cs + if named then 0 else 1
  | _ :: cs => questionMarks named cs

/-- No fixed text has a quote or a question mark in it. -/
theorem plain_of_mem_fixedTexts : ∀ s ∈ fixedTexts, ∀ c ∈ s.toList, c ≠ '"' ∧ c ≠ '?' := by
  have h : ∀ s ∈ fixedTexts, s.toList.all (fun c => c != '"' && c != '?') = true := by decide
  intro s hs c hc
  simpa using List.all_eq_true.1 (h s hs) c hc

theorem questionMarks_cons {c : Char} (hquote : c ≠ '"') (named : Bool) (cs : List Char) :
    questionMarks named (c :: cs) =
      questionMarks named cs + if c = '?' ∧ named = false then 1 else 0 := by
  by_cases hmark : c = '?'
  · rw [hmark, questionMarks]
    cases named <;> rfl
  · rw [questionMarks, if_neg fun h => hmark h.1, Nat.add_zero]
    · exact hquote
    · exact hmark

theorem questionMarks_plain {cs : List Char} (h : ∀ c ∈ cs, c ≠ '"' ∧ c ≠ '?') (ds : List Char) :
    questionMarks false (cs ++ ds) = questionMarks false ds := by
  induction cs with
  | nil => rfl
  | cons c cs ih =>
    obtain ⟨⟨hquote, hmark⟩, hcs⟩ := List.forall_mem_cons.1 h
    rw [List.cons_append, questionMarks_cons hquote, if_neg fun h => hmark h.1, Nat.add_zero,
      ih hcs]

/-- A name ends where its quote ends, and nothing in it counts. -/
theorem questionMarks_double (n ds : List Char) :
    questionMarks true (Text.double '"' n ++ '"' :: ds) = questionMarks false ds := by
  induction n with
  | nil => rfl
  | cons c n ih =>
    rw [Text.double]
    split
    · -- The first quote of two seems to end the name, and the second begins it again.
      exact ih
    · rename_i hquote
      rw [List.cons_append, questionMarks_cons hquote, if_neg (fun h => Bool.noConfusion h.2),
        Nat.add_zero, ih]

/-- The text of pieces has a question mark for each value that they bind. -/
theorem questionMarks_pieces {ps : List Piece} (h : ps.all Piece.isUsual = true) :
    questionMarks false (ps.flatMap Piece.chars) = (ps.filterMap Piece.bound?).length := by
  induction ps with
  | nil => rfl
  | cons p ps ih =>
    rw [List.all_cons, Bool.and_eq_true] at h
    rw [List.flatMap_cons]
    cases p with
    | fixed s =>
      rw [Piece.chars, Piece.text,
        questionMarks_plain (plain_of_mem_fixedTexts s (List.contains_iff_mem.1 h.1)), ih h.2]
      rfl
    | name n =>
      have hchars : (Piece.name n).chars = '"' :: (Text.double '"' n.toList ++ ['"']) :=
        String.toList_ofList
      rw [hchars, List.cons_append, List.append_assoc, List.singleton_append, questionMarks,
        Bool.not_false, questionMarks_double, ih h.2]
      rfl
    | bind v =>
      have hchars : (Piece.bind v).chars = ['?'] := by
        rw [Piece.chars, Piece.text]
        decide
      rw [hchars, List.singleton_append, questionMarks, ih h.2]
      rfl

/-! ### The bound values -/

/-- The value that a comparison binds: none for null, and texts for lists and objects. -/
def boundOf? : Json → Option Value
  | .null => none
  | .bool b => some (.integer b.toInt)
  | .number n => some (.ofNumber n)
  | .string s => some (.text s)
  | v => some (.text v.compact)

/-- The values that a leaf binds in a session. -/
def boundBy (s : Session) : Condition → List Value
  | .variant names => names.toList.map .text
  | .member roles =>
    match s.user with
    | none => []
    | some user => .text user.text :: (roles.map fun names => names.toList.map Value.text).getD []
  | .field _ .requester => (s.user.map fun user => Value.text user.text).toList
  | .field _ (.value v) => (boundOf? v).toList
  | _ => []

/-- The values that pieces bind. -/
abbrev bounds (ps : List Piece) : List Value := ps.filterMap Piece.bound?

theorem bounds_listed (vs : List Value) : bounds (listed vs) = vs := by
  rw [listed, bounds, List.cons_append, List.filterMap_cons_none rfl, List.filterMap_append,
    Text.filterMap_intercalate rfl, List.flatMap_map]
  exact (List.append_nil _).trans (List.flatMap_singleton' vs)

theorem bounds_roleTest (roles : Option (List Value)) :
    bounds (roleTest roles) = roles.getD [] := by
  match roles with
  | none => rfl
  | some [] => rfl
  | some (v :: vs) => exact bounds_listed (v :: vs)

theorem bounds_joined (operator : String) (unit : Bool) (parts : List (List Piece)) :
    bounds (joined operator unit parts) = parts.flatMap bounds := by
  cases parts with
  | nil => rfl
  | cons ps pss =>
    show bounds (.fixed "(" :: [Piece.fixed operator].intercalate (ps :: pss) ++ [.fixed ")"]) = _
    rw [bounds, List.cons_append, List.filterMap_cons_none rfl, List.filterMap_append,
      Text.filterMap_intercalate rfl]
    exact List.append_nil _

theorem bounds_comparison (column : Column) (v : Json) :
    bounds (comparison column v).pieces = (boundOf? v).toList := by
  cases v <;> rfl

theorem bounds_membership (table : String) (object : Column) (user : Value)
    (roles : Option (List Value)) :
    bounds (Predicate.membership table object user roles).pieces = user :: roles.getD [] := by
  rw [Predicate.pieces, bounds, List.filterMap_append, List.filterMap_append, ← bounds_roleTest]
  exact List.append_nil _

/-- The bound values are those of the leaves, in their order. -/
theorem binds_eq (ctx : Context) (c : Condition) :
    bounds (Predicate.ofCondition ctx c).pieces = c.leaves.flatMap (boundBy ctx.session) := by
  have hparts : ∀ (operator : String) (unit : Bool) (parts : List Condition),
      bounds (joined operator unit (Predicate.piecesOfEach (Predicate.ofConditions ctx parts))) =
        parts.flatMap fun c => bounds (Predicate.ofCondition ctx c).pieces := by
    intro operator unit parts
    rw [bounds_joined, piecesOfEach_ofConditions, List.flatMap_map]
  refine eq_flatMap_leaves (fun c => bounds (Predicate.ofCondition ctx c).pieces)
    (boundBy ctx.session) ?_ (fun parts => ?_) (fun parts => ?_) c
  · intro c hc
    cases c with
    | role => rfl
    | calculated => rfl
    | allOf => cases hc
    | anyOf => cases hc
    | variant names =>
      rw [Predicate.ofCondition]
      split
      · rename_i hempty
        rw [boundBy, List.isEmpty_iff.1 hempty]
        rfl
      · exact bounds_listed _
    | member roles =>
      rw [Predicate.ofCondition, Context.user?, boundBy]
      cases ctx.session.user with
      | none => rfl
      | some user => exact bounds_membership _ _ _ _
    | field name v =>
      cases v with
      | value v => exact bounds_comparison _ v
      | requester =>
        rw [Predicate.ofCondition, Context.user?, boundBy]
        cases ctx.session.user with
        | none => rfl
        | some user => rfl
  · exact hparts _ _ parts
  · exact hparts _ _ parts

/-! ### Queries under construction -/

namespace Fragment

/-- Text appended to a query. -/
def push (q : Fragment) (s : String) : Fragment := ⟨q.text ++ s, q.binds⟩

/-- A value appended to a query: a question mark, and the value beside it. -/
def pushBind (q : Fragment) (v : Value) : Fragment := ⟨q.text ++ "?", q.binds ++ [v]⟩

/-- Items appended one by one, with the separator before each that comes later. -/
def pushEach {α : Type} (separator : String) (put : α → Fragment → Fragment) :
    Bool → List α → Fragment → Fragment
  | _, [], q => q
  | later, a :: as, q =>
    pushEach separator put true as (put a (if later then q.push separator else q))

/-- Values appended in parentheses, with commas between. -/
def pushListed (q : Fragment) (vs : List Value) : Fragment :=
  (pushEach ", " (fun v q => q.pushBind v) false vs (q.push "(")).push ")"

/-- A column appended to a query. -/
def pushColumn (q : Fragment) (c : Column) : Fragment :=
  q.push (Text.quotedName c.qualifier ++ "." ++ Text.quotedName c.name)

/-- Pieces appended to a query. -/
def pushPieces (q : Fragment) (ps : List Piece) : Fragment :=
  ⟨q.text ++ (ofPieces ps).text, q.binds ++ (ofPieces ps).binds⟩

theorem pushPieces_append (q : Fragment) (ps qs : List Piece) :
    q.pushPieces (ps ++ qs) = (q.pushPieces ps).pushPieces qs := by
  rw [pushPieces, pushPieces, pushPieces, text_ofPieces_append, binds_ofPieces_append,
    String.append_assoc, List.append_assoc]

theorem push_append (q : Fragment) (s t : String) : q.push (s ++ t) = (q.push s).push t := by
  rw [push, push, push, String.append_assoc]

theorem push_eq (q : Fragment) (s : String) : q.push s = q.pushPieces [.fixed s] := by
  simp [push, pushPieces, ofPieces, Piece.text, Piece.bound?]

theorem push_quotedName (q : Fragment) (s : String) :
    q.push (Text.quotedName s) = q.pushPieces [.name s] := by
  simp [push, pushPieces, ofPieces, Piece.text, Piece.bound?]

theorem pushBind_eq (q : Fragment) (v : Value) : q.pushBind v = q.pushPieces [.bind v] := by
  simp [pushBind, pushPieces, ofPieces, Piece.text, Piece.bound?]

/-- What is appended item by item is the pieces of the items with the separator between. -/
theorem pushEach_eq {α : Type} {separator : String} {put : α → Fragment → Fragment}
    {pieces : α → List Piece} {as : List α} (h : ∀ a ∈ as, ∀ q, put a q = q.pushPieces (pieces a))
    (q : Fragment) : pushEach separator put false as q =
      q.pushPieces ([Piece.fixed separator].intercalate (as.map pieces)) := by
  induction as generalizing q with
  | nil => exact (congrArg₂ Fragment.mk String.append_empty (List.append_nil _)).symm
  | cons a as ih =>
    obtain ⟨ha, has⟩ := List.forall_mem_cons.1 h
    cases as with
    | nil =>
      rw [List.map_singleton, List.intercalate_singleton]
      exact ha q
    | cons b bs =>
      have hnext : pushEach separator put false (a :: b :: bs) q =
          pushEach separator put false (b :: bs) ((put a q).push separator) := rfl
      have hjoined : [Piece.fixed separator].intercalate ((a :: b :: bs).map pieces) =
          pieces a ++ [.fixed separator] ++ [Piece.fixed separator].intercalate
            ((b :: bs).map pieces) := List.intercalate_cons_cons
      rw [hnext, ih has, ha, push_eq, hjoined, pushPieces_append, pushPieces_append]

theorem pushListed_eq (q : Fragment) (vs : List Value) :
    q.pushListed vs = q.pushPieces (listed vs) := by
  rw [pushListed, pushEach_eq fun v _ q => pushBind_eq q v, push_eq, push_eq, ← pushPieces_append,
    ← pushPieces_append]
  rfl

theorem pushColumn_eq (q : Fragment) (c : Column) : q.pushColumn c = q.pushPieces c.pieces := by
  rw [pushColumn, push_append, push_append, push_quotedName, push_quotedName, push_eq,
    ← pushPieces_append, ← pushPieces_append]
  rfl

end Fragment

/-- The test of the role of a membership, appended to a query. -/
def pushRoleTest (roles : Option NameSet) (q : Fragment) : Fragment :=
  match roles with
  | none => q
  | some names =>
    if names.isEmpty then (q.push " AND ").push (decided false)
    else (q.push " AND m.role IN ").pushListed (names.toList.map .text)

/-- The test of the membership of a user, appended to a query. -/
def pushMembership (ctx : Context) (user : Value) (roles : Option NameSet) (q : Fragment) :
    Fragment :=
  let named := (q.push "EXISTS (SELECT 1 FROM ").push (Text.quotedName ctx.storage.membershipTable)
  let object := (named.push " m WHERE m.resource_id = ").pushColumn
    (ctx.column ctx.storage.idColumn)
  (pushRoleTest roles ((object.push " AND m.user_id = ").pushBind user)).push ")"

/-- The test of a column, appended to a query. -/
def pushFieldTest (ctx : Context) (name : String) (operand : Operand) (q : Fragment) : Fragment :=
  match operand with
  | .requester =>
    match ctx.user? with
    | none => q.push (decided false)
    | some user => ((q.pushColumn (ctx.column name)).push " = ").pushBind user
  | .value v =>
    match boundOf? v with
    | none => (q.pushColumn (ctx.column name)).push " IS NULL"
    | some bound => ((q.pushColumn (ctx.column name)).push " = ").pushBind bound

mutual

/-- A condition appended to a query. -/
def pushCondition (ctx : Context) : Condition → Fragment → Fragment
  | .role names, q => q.push (decided (ctx.session.hasAnyRole names))
  | .variant names, q =>
    if names.isEmpty then q.push (decided false)
    else ((q.pushColumn (ctx.column ctx.storage.variantColumn)).push " IN ").pushListed
      (names.toList.map .text)
  | .member roles, q =>
    match ctx.user? with
    | none => q.push (decided false)
    | some user => pushMembership ctx user roles q
  | .field name operand, q => pushFieldTest ctx name operand q
  | .calculated, q => q.push (decided false)
  | .allOf [], q => q.push (decided true)
  | .allOf parts, q => (pushParts ctx " AND " false parts (q.push "(")).push ")"
  | .anyOf [], q => q.push (decided false)
  | .anyOf parts, q => (pushParts ctx " OR " false parts (q.push "(")).push ")"

/-- Conditions appended one by one, with the operator before each that comes later. -/
def pushParts (ctx : Context) (operator : String) : Bool → List Condition → Fragment → Fragment
  | _, [], q => q
  | later, c :: cs, q =>
    pushParts ctx operator true cs (pushCondition ctx c (if later then q.push operator else q))

end

theorem pushParts_eq_pushEach (operator : String) (cs : List Condition) :
    ∀ later q, pushParts ctx operator later cs q =
      Fragment.pushEach operator (pushCondition ctx) later cs q := by
  induction cs with
  | nil =>
    intro later q
    rw [pushParts, Fragment.pushEach]
  | cons c cs ih =>
    intro later q
    rw [pushParts, Fragment.pushEach, ih]

theorem pushRoleTest_eq (roles : Option NameSet) (q : Fragment) : pushRoleTest roles q =
    q.pushPieces (roleTest (roles.map fun names => names.toList.map .text)) := by
  cases roles with
  | none => exact (congrArg₂ Fragment.mk String.append_empty (List.append_nil _)).symm
  | some names =>
    rw [pushRoleTest, SortedSet.isEmpty, Option.map_some]
    cases names.toList with
    | nil => exact (q.push_append " AND " (decided false)).symm.trans (q.push_eq _)
    | cons n ns =>
      show (q.push " AND m.role IN ").pushListed _ = q.pushPieces (.fixed " AND m.role IN " :: _)
      rw [Fragment.push_eq, Fragment.pushListed_eq, ← Fragment.pushPieces_append]
      rfl

theorem pushMembership_eq (ctx : Context) (user : Value) (roles : Option NameSet) (q : Fragment) :
    pushMembership ctx user roles q =
      q.pushPieces (Predicate.membership ctx.storage.membershipTable
        (ctx.column ctx.storage.idColumn) user
        (roles.map fun names => names.toList.map .text)).pieces := by
  unfold pushMembership
  rw [Fragment.push_quotedName]
  simp only [Predicate.pieces, pushRoleTest_eq, Fragment.push_eq, Fragment.pushColumn_eq,
    Fragment.pushBind_eq, ← Fragment.pushPieces_append]
  rfl

theorem pushFieldTest_eq (ctx : Context) (name : String) (operand : Operand) (q : Fragment) :
    pushFieldTest ctx name operand q =
      q.pushPieces (Predicate.ofCondition ctx (.field name operand)).pieces := by
  -- A comparison with another value than null binds one.
  have hequals : ∀ v, ((q.pushColumn (ctx.column name)).push " = ").pushBind v =
      q.pushPieces (Predicate.equals (ctx.column name) v).pieces := by
    intro v
    rw [Fragment.pushColumn_eq, Fragment.push_eq, Fragment.pushBind_eq,
      ← Fragment.pushPieces_append, ← Fragment.pushPieces_append]
    rfl
  cases operand with
  | requester =>
    rw [pushFieldTest, Predicate.ofCondition]
    cases ctx.user? with
    | none => exact q.push_eq _
    | some user => exact hequals user
  | value v =>
    rw [pushFieldTest, Predicate.ofCondition]
    cases v with
    | null =>
      show (q.pushColumn (ctx.column name)).push " IS NULL" = _
      rw [Fragment.pushColumn_eq, Fragment.push_eq, ← Fragment.pushPieces_append]
      rfl
    | _ => exact hequals _

theorem pushJoined_eq {ctx : Context} {operator : String} {unit : Bool} {parts : List Condition}
    (hparts : parts ≠ []) (h : ∀ c ∈ parts, ∀ q,
      pushCondition ctx c q = q.pushPieces (Predicate.ofCondition ctx c).pieces) (q : Fragment) :
    (pushParts ctx operator false parts (q.push "(")).push ")" = q.pushPieces
      (joined operator unit (Predicate.piecesOfEach (Predicate.ofConditions ctx parts))) := by
  rw [pushParts_eq_pushEach, Fragment.pushEach_eq h, Fragment.push_eq, Fragment.push_eq,
    piecesOfEach_ofConditions, ← Fragment.pushPieces_append, ← Fragment.pushPieces_append]
  cases parts with
  | nil => exact absurd rfl hparts
  | cons => rfl

/-- Appending a condition step by step appends the pieces of its predicate. -/
theorem pushCondition_eq (ctx : Context) : ∀ c q,
    pushCondition ctx c q = q.pushPieces (Predicate.ofCondition ctx c).pieces := by
  refine byParts ?role ?variant ?member ?field ?calculated ?allOf ?anyOf
  case role =>
    intro names q
    rw [pushCondition, Predicate.ofCondition]
    exact q.push_eq _
  case variant =>
    intro names q
    rw [pushCondition, Predicate.ofCondition]
    split
    · exact q.push_eq _
    · rw [Fragment.pushColumn_eq, Fragment.push_eq, Fragment.pushListed_eq,
        ← Fragment.pushPieces_append, ← Fragment.pushPieces_append]
      rfl
  case member =>
    intro roles q
    rw [pushCondition, Predicate.ofCondition]
    cases ctx.user? with
    | none => exact q.push_eq _
    | some user => exact pushMembership_eq ctx user roles q
  case field =>
    intro name operand q
    rw [pushCondition, pushFieldTest_eq]
  case calculated =>
    intro q
    rw [pushCondition, Predicate.ofCondition]
    exact q.push_eq _
  case allOf =>
    intro parts ih q
    rw [Predicate.ofCondition, Predicate.pieces]
    by_cases hparts : parts = []
    · rw [hparts, pushCondition]
      exact q.push_eq _
    · rw [pushCondition, pushJoined_eq hparts ih]
      exact hparts
  case anyOf =>
    intro parts ih q
    rw [Predicate.ofCondition, Predicate.pieces]
    by_cases hparts : parts = []
    · rw [hparts, pushCondition]
      exact q.push_eq _
    · rw [pushCondition, pushJoined_eq hparts ih]
      exact hparts

namespace Filter

/-- The filter put into a query under construction. -/
def pushTo (f : Filter) (q : Fragment) : Fragment := pushCondition f.toContext f.condition q

/-- Whether two filters test conditions of one shape in the same place, each for a session. -/
structure SameShape (f g : Filter) : Prop where
  /-- The table has the same name in both queries. -/
  qualifier : f.qualifier = g.qualifier
  /-- The objects are stored alike. -/
  storage : f.storage = g.storage
  /-- Both sessions have a user, or neither has. -/
  user : f.session.user.isSome = g.session.user.isSome
  /-- The conditions are built alike. -/
  condition : sameShape f.session g.session f.condition g.condition = true

/-- Filters of one shape put the same text into a query. The text of a filter has a question mark
    outside of names for each bound value, the bound values are those of the leaves in their order,
    and in any query the filter comes after what is there already. -/
theorem values_bound :
    (∀ f g : Filter, f.SameShape g → f.fragment.text = g.fragment.text) ∧
      ∀ f : Filter, questionMarks false f.fragment.text.toList = f.fragment.binds.length ∧
        f.fragment.binds = f.condition.leaves.flatMap (boundBy f.session) ∧
        (∀ q, f.pushTo q = ⟨q.text ++ f.fragment.text, q.binds ++ f.fragment.binds⟩) ∧
        ∀ front, f.pushTo ⟨front, []⟩ = f.fragment.after front := by
  refine ⟨fun f g h => ?text, fun f => ⟨?marks, ?binds, ?push, fun front => ?after⟩⟩
  case text =>
    have htexts := texts_pieces h.qualifier h.storage h.user f.condition g.condition h.condition
    exact congrArg String.join htexts
  case marks =>
    have htext : f.fragment.text.toList = f.predicate.pieces.flatMap Piece.chars := by
      rw [fragment, Predicate.fragment, Fragment.ofPieces, String.toList_join, List.flatMap_map]
      rfl
    rw [htext, questionMarks_pieces (all_isUsual_pieces f.predicate)]
    rfl
  case binds => exact binds_eq f.toContext f.condition
  case push => exact pushCondition_eq f.toContext f.condition
  case after => exact pushCondition_eq f.toContext f.condition ⟨front, []⟩

/-- The notes of a user that are in a state and have a title. -/
def titled (user : Uuid) (state title : String) : Filter where
  qualifier := "n"
  storage := .ofName "Note"
  session := .ofUser user
  condition := .allOf
    [.field "owner" .requester, .variant (.ofList [state]), .field "title" (.value (.string title))]

/-- A title with quotes and question marks in it leaves the text as it is. -/
theorem text_titled : (titled ⟨7⟩ "draft" "plain").fragment.text =
    (titled ⟨8⟩ "public" "\"?\" OR 1 = 1").fragment.text :=
  values_bound.1 _ _ ⟨rfl, rfl, rfl, by decide⟩

end Filter

end Authorization.Sql
