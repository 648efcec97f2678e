import Authorization.Proofs.Sql.Tokens

/-!
# Predicates as expressions

A predicate is read as the expression that it was written for: parts are in
parentheses, so nothing around them takes anything from them, and each of them
ends where it was meant to (`test?_tokens`). With the values it binds, the text
of a predicate thus says what the predicate does (`read?_fragment`).

In SQL there are no lists without values; predicates of conditions have none.
-/

namespace Authorization.Sql

/-! ### What predicates say -/

/-- A test that is decided. -/
def Expr.decided (holds : Bool) : Expr :=
  .equals (.value (.integer 1)) (.value (.integer (if holds then 1 else 0)))

/-- Tests joined by an operator, from the right; none are decided by `unit`. -/
def Expr.joined (operator : Expr → Expr → Expr) (unit : Bool) : List Expr → Expr
  | [] => .decided unit
  | [e] => e
  | e :: es => operator e (joined operator unit es)

/-- The test of the role of a membership, after another test. -/
def Expr.withRoles (e : Expr) : Option (List Value) → Expr
  | none => e
  | some [] => .and e (.decided false)
  | some roles => .and e (.isIn (.column ⟨"m", "role"⟩) roles)

namespace Predicate

mutual

/-- The expression that a predicate is written for. -/
def expr : Predicate → Expr
  | constant holds => .decided holds
  | equals column value => .equals (.column column) (.value value)
  | isNull column => .isNull (.column column)
  | oneOf column values => .isIn (.column column) values
  | membership table object user roles =>
    .hasRow table "m" (.and (.equals (.column ⟨"m", "resource_id"⟩) (.column object))
      (.withRoles (.equals (.column ⟨"m", "user_id"⟩) (.value user)) roles))
  | allOf parts => .joined .and true (exprs parts)
  | anyOf parts => .joined .or false (exprs parts)

/-- The expressions that predicates are written for. -/
def exprs : List Predicate → List Expr
  | [] => []
  | p :: ps => expr p :: exprs ps

end

@[simp] theorem exprs_eq_map (ps : List Predicate) : exprs ps = ps.map expr := by
  induction ps with
  | nil => rw [exprs, List.map_nil]
  | cons p ps ih => rw [exprs, List.map_cons, ih]

mutual

/-- Whether all lists in a predicate have values. -/
def isListed : Predicate → Bool
  | oneOf _ values => !values.isEmpty
  | allOf parts | anyOf parts => areListed parts
  | _ => true

/-- Whether all lists in some predicates have values. -/
def areListed : List Predicate → Bool
  | [] => true
  | p :: ps => isListed p && areListed ps

end

@[simp] theorem areListed_eq_all (ps : List Predicate) : areListed ps = ps.all isListed := by
  induction ps with
  | nil => rfl
  | cons p ps ih => rw [areListed, List.all_cons, ih]

end Predicate

/-! ### Reading tests -/

theorem skip?_self (t : Token) (ts : List Token) : skip? t (t :: ts) = some ts := if_pos rfl

/-- What is neither in parentheses nor a subquery is a comparison. -/
theorem test?_of_comparison? {ts : List Token} {found : Expr × List Token}
    (h : comparison? ts = some found) (hparen : skip? (.symbol '(') ts = none)
    (hsubquery : skipAll? subqueryStart ts = none) (depth : Nat) :
    test? (depth + 1) ts = some found := by
  rw [test?, hparen, hsubquery]
  exact h

section Joined

variable {depth : Nat} {ts rest rest' : List Token} {e f : Expr}

/-- The last of the tests that `AND` joins. -/
theorem conjunction?_last (h : test? depth ts = some (e, rest))
    (hand : skip? (.word "AND") rest = none) : conjunction? (depth + 1) ts = some (e, rest) := by
  rw [conjunction?, h, Option.bind_some]
  simp only [hand]

theorem conjunction?_cons (h : test? depth ts = some (e, .word "AND" :: rest))
    (h' : conjunction? depth rest = some (f, rest')) :
    conjunction? (depth + 1) ts = some (.and e f, rest') := by
  rw [conjunction?, h, Option.bind_some]
  simp only [skip?_self, h', Option.map_some]

/-- The last of the tests that `OR` joins. -/
theorem disjunction?_last (h : conjunction? depth ts = some (e, rest))
    (hor : skip? (.word "OR") rest = none) : disjunction? (depth + 1) ts = some (e, rest) := by
  rw [disjunction?, h, Option.bind_some]
  simp only [hor]

theorem disjunction?_cons (h : conjunction? depth ts = some (e, .word "OR" :: rest))
    (h' : disjunction? depth rest = some (f, rest')) :
    disjunction? (depth + 1) ts = some (.or e f, rest') := by
  rw [disjunction?, h, Option.bind_some]
  simp only [skip?_self, h', Option.map_some]

end Joined

theorem values?_listed {values : List Value} (h : values ≠ []) (rest : List Token) :
    values? ([Token.symbol ','].intercalate (values.map fun v => [.value v]) ++
      .symbol ')' :: rest) = some (values, rest) := by
  induction values with
  | nil => exact absurd rfl h
  | cons v vs ih =>
    cases vs with
    | nil => rfl
    | cons w ws =>
      have hrest := ih (List.cons_ne_nil w ws)
      have hstep : ∀ ts, values? (.value v :: .symbol ',' :: ts) =
          (values? ts).map fun found => (v :: found.1, found.2) := fun _ => rfl
      rw [List.map_cons] at hrest
      rw [List.map_cons, List.map_cons, List.intercalate_cons_cons, List.append_assoc,
        List.append_assoc, List.singleton_append, List.singleton_append, hstep, hrest]
      rfl

/-! ### The tokens of predicates -/

theorem flatMap_intercalate {α β : Type} (f : α → List β) (a : α) (xss : List (List α)) :
    ([a].intercalate xss).flatMap f = (f a).intercalate (xss.map (List.flatMap f)) := by
  induction xss with
  | nil => rfl
  | cons xs xss ih =>
    cases xss with
    | nil => rw [List.intercalate_singleton, List.map_singleton, List.intercalate_singleton]
    | cons ys yss =>
      rw [List.intercalate_cons_cons, List.flatMap_append, List.flatMap_append, ih,
        List.flatMap_singleton, List.map_cons, List.map_cons, List.map_cons,
        List.intercalate_cons_cons]

theorem flatMap_listed (values : List Value) : (listed values).flatMap Piece.tokens =
    .symbol '(' :: ([Token.symbol ','].intercalate (values.map fun v => [.value v]) ++
      [.symbol ')']) := by
  rw [listed, List.cons_append, List.flatMap_cons, List.flatMap_append, flatMap_intercalate,
    List.map_map]
  rfl

/-- The tokens of what an operator joins. -/
theorem flatMap_joined {operator : String} {word : String}
    (hop : (Piece.fixed operator).tokens = [.word word]) (unit : Bool) {ps : List Predicate}
    (hne : ps ≠ []) : (joined operator unit (ps.map Predicate.pieces)).flatMap Piece.tokens =
      .symbol '(' :: ([Token.word word].intercalate (ps.map Predicate.tokens) ++
        [.symbol ')']) := by
  obtain ⟨p, ps, rfl⟩ := List.exists_cons_of_ne_nil hne
  show (Piece.fixed "(" ::
    [Piece.fixed operator].intercalate (p.pieces :: ps.map Predicate.pieces) ++
      [Piece.fixed ")"]).flatMap Piece.tokens = _
  rw [List.cons_append, List.flatMap_cons, List.flatMap_append, flatMap_intercalate, hop,
    ← List.map_cons, List.map_map]
  rfl

/-- A predicate is read as its expression, whatever follows it. -/
def IsRead (p : Predicate) : Prop :=
  ∀ rest depth, 3 * p.tokens.length ≤ depth →
    test? depth (p.tokens ++ rest) = some (p.expr, rest)

/-- What is a comparison by its tokens is read as one. -/
theorem isRead_of_comparison? {p : Predicate} (hne : p.tokens ≠ [])
    (h : ∀ rest, comparison? (p.tokens ++ rest) = some (p.expr, rest))
    (hparen : ∀ rest, skip? (.symbol '(') (p.tokens ++ rest) = none)
    (hsubquery : ∀ rest, skipAll? subqueryStart (p.tokens ++ rest) = none) : IsRead p := by
  intro rest depth hdepth
  obtain ⟨d, rfl⟩ : ∃ d, depth = d + 1 :=
    Nat.exists_eq_succ_of_ne_zero (by have := List.length_pos_iff.2 hne; omega)
  exact test?_of_comparison? (h rest) (hparen rest) (hsubquery rest) d

theorem isRead_constant (b : Bool) : IsRead (.constant b) := by
  have htokens : (Predicate.constant b).tokens =
      [.word "1", .symbol '=', .word (if b then "1" else "0")] := by cases b <;> decide
  refine isRead_of_comparison? (htokens ▸ List.cons_ne_nil _ _) (fun rest => ?_) (fun rest => ?_)
    (fun rest => ?_)
  · rw [htokens]
    cases b <;> rfl
  · rw [htokens]
    rfl
  · rw [htokens]
    rfl

theorem isRead_oneOf (c : Column) {values : List Value} (h : values ≠ []) :
    IsRead (.oneOf c values) := by
  have htokens : (Predicate.oneOf c values).tokens = .name c.qualifier :: .symbol '.' ::
      .name c.name :: .word "IN" :: .symbol '(' ::
        ([Token.symbol ','].intercalate (values.map fun v => [.value v]) ++ [.symbol ')']) := by
    rw [Predicate.tokens, Predicate.pieces, List.flatMap_append, List.flatMap_cons, flatMap_listed]
    rfl
  refine isRead_of_comparison? (htokens ▸ List.cons_ne_nil _ _) (fun rest => ?_) (fun rest => ?_)
    (fun rest => ?_)
  · rw [htokens, List.cons_append, List.cons_append, List.cons_append, List.cons_append,
      List.cons_append, List.append_assoc, List.singleton_append]
    show ((values? _).map _) = _
    rw [values?_listed h]
    rfl
  · rw [htokens]
    rfl
  · rw [htokens]
    rfl

/-- The tokens of the test of the role, where some roles will do. -/
theorem flatMap_roleTest (v : Value) (vs : List Value) (rest : List Token) :
    (roleTest (some (v :: vs))).flatMap Piece.tokens ++ .symbol ')' :: rest =
      .word "AND" :: .word "m" :: .symbol '.' :: .word "role" :: .word "IN" :: .symbol '(' ::
        ([Token.symbol ','].intercalate ((v :: vs).map fun w => [.value w]) ++
          .symbol ')' :: .symbol ')' :: rest) := by
  show (Piece.fixed " AND m.role IN " :: listed (v :: vs)).flatMap Piece.tokens ++ _ = _
  rw [List.flatMap_cons, flatMap_listed, List.append_assoc, List.cons_append, List.append_assoc]
  rfl

theorem comparison?_roles (v : Value) (vs : List Value) (rest : List Token) :
    comparison? (.word "m" :: .symbol '.' :: .word "role" :: .word "IN" :: .symbol '(' ::
      ([Token.symbol ','].intercalate ((v :: vs).map fun w => [.value w]) ++
        .symbol ')' :: rest)) = some (.isIn (.column ⟨"m", "role"⟩) (v :: vs), rest) := by
  show ((values? _).map _) = _
  rw [values?_listed (List.cons_ne_nil _ _)]
  rfl

/-- The tests of a membership, in the parentheses of the subquery. -/
theorem conjunction?_membership (object : Column) (user : Value) (roles : Option (List Value))
    (rest : List Token) (depth : Nat) :
    conjunction? (depth + 4) (.word "m" :: .symbol '.' :: .word "resource_id" :: .symbol '=' ::
      .name object.qualifier :: .symbol '.' :: .name object.name :: .word "AND" :: .word "m" ::
      .symbol '.' :: .word "user_id" :: .symbol '=' :: .value user ::
      ((roleTest roles).flatMap Piece.tokens ++ .symbol ')' :: rest)) =
    some (.and (.equals (.column ⟨"m", "resource_id"⟩) (.column object))
      (.withRoles (.equals (.column ⟨"m", "user_id"⟩) (.value user)) roles),
      .symbol ')' :: rest) := by
  refine conjunction?_cons (test?_of_comparison? rfl rfl rfl _) ?_
  match roles with
  | none => exact conjunction?_last (test?_of_comparison? rfl rfl rfl _) rfl
  | some [] =>
    have htokens : (roleTest (some [])).flatMap Piece.tokens =
        [.word "AND", .word "1", .symbol '=', .word "0"] := by decide
    rw [htokens]
    exact conjunction?_cons (test?_of_comparison? rfl rfl rfl _)
      (conjunction?_last (test?_of_comparison? rfl rfl rfl _) rfl)
  | some (v :: vs) =>
    rw [flatMap_roleTest]
    exact conjunction?_cons (test?_of_comparison? rfl rfl rfl _)
      (conjunction?_last (test?_of_comparison? (comparison?_roles v vs _) rfl rfl _) rfl)

theorem isRead_membership (table : String) (object : Column) (user : Value)
    (roles : Option (List Value)) : IsRead (.membership table object user roles) := by
  have htokens : (Predicate.membership table object user roles).tokens =
      .word "EXISTS" :: .symbol '(' :: .word "SELECT" :: .word "1" :: .word "FROM" ::
        .name table :: .word "m" :: .word "WHERE" :: .word "m" :: .symbol '.' ::
        .word "resource_id" :: .symbol '=' :: .name object.qualifier :: .symbol '.' ::
        .name object.name :: .word "AND" :: .word "m" :: .symbol '.' :: .word "user_id" ::
        .symbol '=' :: .value user ::
          ((roleTest roles).flatMap Piece.tokens ++ [.symbol ')']) := by
    rw [Predicate.tokens, Predicate.pieces, List.flatMap_append, List.flatMap_append]
    rfl
  intro rest depth hdepth
  rw [htokens] at hdepth ⊢
  simp only [List.length_cons] at hdepth
  obtain ⟨d, rfl⟩ : ∃ d, depth = d + 6 := ⟨depth - 6, by omega⟩
  have hbody : disjunction? (d + 5) _ = _ :=
    disjunction?_last (conjunction?_membership object user roles rest d) rfl
  simp only [List.cons_append, List.append_assoc, List.nil_append]
  show (((disjunction? (d + 5) _).bind closed?).map _) = _
  rw [hbody]
  rfl

/-! ### Parts -/

section Parts

variable {ps : List Predicate} {rest : List Token}

/-- The parts that `AND` joins are read one after the other. -/
theorem conjunction?_joined (hne : ps ≠ []) (hps : ∀ p ∈ ps, IsRead p)
    (hand : skip? (.word "AND") rest = none) (depth : Nat)
    (hdepth : 3 * ([Token.word "AND"].intercalate (ps.map Predicate.tokens)).length + 1 ≤ depth) :
    conjunction? depth ([Token.word "AND"].intercalate (ps.map Predicate.tokens) ++ rest) =
      some (.joined .and true (ps.map Predicate.expr), rest) := by
  -- Each part takes one level, and has at least one token that allows for three.
  induction ps generalizing depth with
  | nil => exact absurd rfl hne
  | cons p ps ih =>
    obtain ⟨d, rfl⟩ : ∃ d, depth = d + 1 := ⟨depth - 1, by omega⟩
    cases ps with
    | nil =>
      rw [List.map_singleton, List.intercalate_singleton] at hdepth ⊢
      exact conjunction?_last (hps p List.mem_cons_self rest d (by omega)) hand
    | cons q qs =>
      have hlater := ih (List.cons_ne_nil _ _) (fun p hp => hps p (List.mem_cons_of_mem _ hp)) d
      rw [List.map_cons, List.map_cons, List.intercalate_cons_cons] at hdepth ⊢
      simp only [List.length_append, List.length_singleton] at hdepth
      rw [List.map_cons] at hlater
      rw [List.append_assoc, List.append_assoc, List.singleton_append]
      exact conjunction?_cons (hps p List.mem_cons_self _ d (by omega)) (hlater (by omega))

/-- The parts that `OR` joins are read one after the other. -/
theorem disjunction?_joined (hne : ps ≠ []) (hps : ∀ p ∈ ps, IsRead p)
    (hand : skip? (.word "AND") rest = none) (hor : skip? (.word "OR") rest = none) (depth : Nat)
    (hdepth : 3 * ([Token.word "OR"].intercalate (ps.map Predicate.tokens)).length + 2 ≤ depth) :
    disjunction? depth ([Token.word "OR"].intercalate (ps.map Predicate.tokens) ++ rest) =
      some (.joined .or false (ps.map Predicate.expr), rest) := by
  induction ps generalizing depth with
  | nil => exact absurd rfl hne
  | cons p ps ih =>
    obtain ⟨d, rfl⟩ : ∃ d, depth = d + 2 := ⟨depth - 2, by omega⟩
    cases ps with
    | nil =>
      rw [List.map_singleton, List.intercalate_singleton] at hdepth ⊢
      exact disjunction?_last
        (conjunction?_last (hps p List.mem_cons_self rest d (by omega)) hand) hor
    | cons q qs =>
      have hlater := ih (List.cons_ne_nil _ _) (fun p hp => hps p (List.mem_cons_of_mem _ hp))
        (d + 1)
      rw [List.map_cons, List.map_cons, List.intercalate_cons_cons] at hdepth ⊢
      simp only [List.length_append, List.length_singleton] at hdepth
      rw [List.map_cons] at hlater
      rw [List.append_assoc, List.append_assoc, List.singleton_append]
      exact disjunction?_cons
        (conjunction?_last (hps p List.mem_cons_self _ d (by omega)) rfl) (hlater (by omega))

/-- In parentheses, everything up to the closing one is read. -/
theorem test?_parenthesized {ts : List Token} {e : Expr} {depth : Nat}
    (h : disjunction? depth (ts ++ .symbol ')' :: rest) = some (e, .symbol ')' :: rest)) :
    test? (depth + 1) (.symbol '(' :: (ts ++ [.symbol ')']) ++ rest) = some (e, rest) := by
  rw [test?, List.cons_append, skip?_self, List.append_assoc, List.singleton_append]
  simp only [h, Option.bind_some]
  rfl

theorem isRead_allOf (h : ∀ p ∈ ps, IsRead p) : IsRead (.allOf ps) := by
  by_cases hne : ps = []
  · rw [hne]
    exact isRead_constant true
  · intro rest depth hdepth
    have htokens : (Predicate.allOf ps).tokens = .symbol '(' ::
        ([Token.word "AND"].intercalate (ps.map Predicate.tokens) ++ [.symbol ')']) := by
      rw [Predicate.tokens, Predicate.pieces, Predicate.piecesOfEach_eq_map]
      exact flatMap_joined (by decide) true hne
    rw [htokens] at hdepth ⊢
    rw [List.length_cons, List.length_append, List.length_singleton] at hdepth
    -- The parentheses take two levels: one for their tests, one for the alternatives in them.
    obtain ⟨d, rfl⟩ : ∃ d, depth = d + 2 := ⟨depth - 2, by omega⟩
    rw [Predicate.expr, Predicate.exprs_eq_map]
    exact test?_parenthesized (disjunction?_last
      (conjunction?_joined hne h rfl d (by omega)) rfl)

theorem isRead_anyOf (h : ∀ p ∈ ps, IsRead p) : IsRead (.anyOf ps) := by
  by_cases hne : ps = []
  · rw [hne]
    exact isRead_constant false
  · intro rest depth hdepth
    have htokens : (Predicate.anyOf ps).tokens = .symbol '(' ::
        ([Token.word "OR"].intercalate (ps.map Predicate.tokens) ++ [.symbol ')']) := by
      rw [Predicate.tokens, Predicate.pieces, Predicate.piecesOfEach_eq_map]
      exact flatMap_joined (by decide) false hne
    rw [htokens] at hdepth ⊢
    rw [List.length_cons, List.length_append, List.length_singleton] at hdepth
    obtain ⟨d, rfl⟩ : ∃ d, depth = d + 1 := ⟨depth - 1, by omega⟩
    rw [Predicate.expr, Predicate.exprs_eq_map]
    exact test?_parenthesized (disjunction?_joined hne h rfl rfl d (by omega))

end Parts

theorem forall_of_areListed {P : Predicate → Prop} {ps : List Predicate}
    (h : ∀ p ∈ ps, p.isListed = true → P p) (hlisted : Predicate.areListed ps = true) :
    ∀ p ∈ ps, P p := by
  rw [Predicate.areListed_eq_all, List.all_eq_true] at hlisted
  exact fun p hp => h p hp (hlisted p hp)

/-- A predicate is read as its expression, whatever follows it, if its lists have values. -/
theorem isRead : ∀ p : Predicate, p.isListed = true → IsRead p := by
  refine Predicate.byParts (fun b _ => isRead_constant b) ?equals ?isNull ?oneOf
    (fun table object user roles _ => isRead_membership table object user roles) ?allOf ?anyOf
  case equals =>
    exact fun _ _ _ =>
      isRead_of_comparison? (List.cons_ne_nil _ _) (fun _ => rfl) (fun _ => rfl) (fun _ => rfl)
  case isNull =>
    exact fun _ _ =>
      isRead_of_comparison? (List.cons_ne_nil _ _) (fun _ => rfl) (fun _ => rfl) (fun _ => rfl)
  case oneOf =>
    intro c values hlisted
    refine isRead_oneOf c fun h => ?_
    rw [h] at hlisted
    cases hlisted
  case allOf => exact fun ps ih hlisted => isRead_allOf (forall_of_areListed ih hlisted)
  case anyOf => exact fun ps ih hlisted => isRead_anyOf (forall_of_areListed ih hlisted)

/-- The text of a predicate, with the values it binds, says what the predicate does. -/
theorem read?_fragment {p : Predicate} (h : p.isListed = true) :
    Expr.read? p.fragment = some p.expr := by
  obtain ⟨ts, hts, hfill⟩ := Option.bind_eq_some_iff.1 p.tokens?_fragment
  have htest := isRead p h [] (3 * p.tokens.length + 1) (by omega)
  have hread := disjunction?_last (conjunction?_last htest rfl) rfl
  rw [List.append_nil] at hread
  rw [Expr.read?, hts]
  show ((fill ts p.fragment.binds).bind _) = _
  rw [hfill]
  show ((disjunction? (3 * p.tokens.length + 3) p.tokens).bind _) = _
  rw [hread]
  rfl

end Authorization.Sql
