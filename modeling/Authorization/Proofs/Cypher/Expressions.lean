import Authorization.Proofs.Cypher.Tokens

/-!
# Graph predicates as expressions

A predicate on nodes is read as the expression that it was written for: parts are
in parentheses where there are several, so each of them ends where it was meant to
(`test?_tokens`). With the values of its parameters, the text of a predicate thus
says what the predicate does (`read?_fragment`).

The node goes by a name that is no reserved word.
-/

namespace Authorization.Cypher

/-! ### What predicates say -/

/-- Tests joined by an operator, from the right; none are decided by `unit`. -/
def Expr.joined (operator : Expr → Expr → Expr) (unit : Bool) : List Expr → Expr
  | [] => .constant unit
  | [e] => e
  | e :: es => operator e (joined operator unit es)

/-- The path from a node to a membership of it, and on to the user. -/
def membershipPath (node : String) (member : Option String) (user : Datum) : Path :=
  ⟨⟨some node, none, none⟩,
    [(⟨.backward, "membership"⟩, ⟨member, some "Member", none⟩),
      (⟨.forward, "user"⟩, ⟨none, some "User", some ("id", user)⟩)]⟩

/-- The test of the roles of a membership. -/
def rolesTest (roles : Datum) : Expr :=
  .hasItem "role" (.property "m" "roles") (.isIn (.item "role") (.value roles))

namespace Predicate

mutual

/-- The expression that a predicate on `node` is written for. -/
def expr (node : String) : Predicate → Expr
  | constant holds => .constant holds
  | equals property value => .equals (.property node property) (.value value.datum)
  | oneOf property values => .isIn (.property node property) (.value values.datum)
  | membership user none => .hasPath (membershipPath node none user.datum) (.constant true)
  | membership user (some roles) =>
    .hasPath (membershipPath node (some "m") user.datum) (rolesTest roles.datum)
  | allOf parts => .joined .and true (exprs node parts)
  | anyOf parts => .joined .or false (exprs node parts)

/-- The expressions that predicates are written for. -/
def exprs (node : String) : List Predicate → List Expr
  | [] => []
  | p :: ps => expr node p :: exprs node ps

end

@[simp] theorem exprs_eq_map (node : String) (ps : List Predicate) :
    exprs node ps = ps.map (expr node) := by
  induction ps with
  | nil => rw [exprs, List.map_nil]
  | cons p ps ih => rw [exprs, List.map_cons, ih]

end Predicate

/-! ### Variables -/

/-- The words that the language keeps for itself, in small letters. -/
def reservedWords : List String :=
  ["add", "all", "and", "as", "asc", "ascending", "by", "case", "constraint", "contains", "create",
    "delete", "desc", "descending", "detach", "distinct", "do", "drop", "else", "end", "ends",
    "exists", "false", "for", "in", "is", "limit", "mandatory", "match", "merge", "not", "null",
    "of", "on", "optional", "or", "order", "remove", "require", "return", "scalar", "set", "skip",
    "starts", "then", "true", "union", "unique", "unwind", "when", "where", "with", "xor"]

/-- Whether a word is reserved; capitals make no difference. -/
def isReserved (s : String) : Bool := reservedWords.contains (.ofList (s.toList.map Char.toLower))

/-- Whether a text is the name of a variable. -/
def Alphabet.isVariable (a : Alphabet) (s : String) : Bool := a.isName s && !isReserved s

variable {a : Alphabet} {node : String}

theorem ne_of_isVariable (h : a.isVariable node = true) {s : String} (hs : isReserved s = true) :
    node ≠ s := by
  rintro rfl
  rw [Alphabet.isVariable, hs, Bool.not_true, Bool.and_false] at h
  cases h

/-! ### Reading tests -/

theorem after?_self (t : Token) (ts : List Token) : after? t (t :: ts) = some ts := if_pos rfl

/-- What is neither decided nor in parentheses, and asks for no item or path, is a comparison. -/
theorem test?_of_comparison? {ts : List Token} {found : Expr × List Token}
    (h : comparison? ts = some found) (hconstant : constant? ts = none)
    (hparen : after? (.symbol '(') ts = none) (hitem : itemStart? ts = none)
    (hsubquery : subquery? ts = none) (depth : Nat) : test? (depth + 1) ts = some found := by
  rw [test?, hconstant, hparen, hitem, hsubquery]
  exact h

/-- What begins with a variable is not decided. -/
theorem constant?_eq_none (h : a.isVariable node = true) (ts : List Token) :
    constant? (.word node :: ts) = none := by
  have hne : ∀ s, isReserved s = true →
      after? (.word s) (.word node :: ts) = none := fun s hs =>
    if_neg fun hnode => ne_of_isVariable h hs (Token.word.inj hnode)
  rw [constant?, hne "true" (by decide), hne "false" (by decide)]
  rfl

section Joined

variable {test : List Token → Option (Expr × List Token)} {operator : String}
  {join : Expr → Expr → Expr} {n : Nat} {ts rest rest' : List Token} {e f : Expr}

/-- The last of the tests that an operator joins. -/
theorem joined?_last (h : test ts = some (e, rest)) (hrest : after? (.word operator) rest = none) :
    joined? test operator join (n + 1) ts = some (e, rest) := by
  rw [joined?, h, Option.bind_some]
  simp only [hrest]

theorem joined?_cons (h : test ts = some (e, .word operator :: rest))
    (h' : joined? test operator join n rest = some (f, rest')) :
    joined? test operator join (n + 1) ts = some (join e f, rest') := by
  rw [joined?, h, Option.bind_some]
  simp only [after?_self, h', Option.map_some]

/-- Tests that an operator joins are read one after the other, if each is read before the
    operator and before what follows. -/
theorem joined?_intercalate {α : Type} {tokens : α → List Token} {expr : α → Expr}
    (ends : List Token → Prop) (hoperator : ∀ ts, ends (.word operator :: ts)) (hends : ends rest)
    (hrest : after? (.word operator) rest = none) (unit : Bool) {xs : List α} (hne : xs ≠ [])
    (h : ∀ x ∈ xs, ∀ ts, ends ts → test (tokens x ++ ts) = some (expr x, ts))
    (hn : xs.length ≤ n) :
    joined? test operator join n ([Token.word operator].intercalate (xs.map tokens) ++ rest) =
      some (.joined join unit (xs.map expr), rest) := by
  induction xs generalizing n with
  | nil => exact absurd rfl hne
  | cons x xs ih =>
    obtain ⟨k, rfl⟩ : ∃ k, n = k + 1 :=
      Nat.exists_eq_succ_of_ne_zero (by rw [List.length_cons] at hn; omega)
    cases xs with
    | nil =>
      rw [List.map_singleton, List.intercalate_singleton]
      exact joined?_last (h x List.mem_cons_self rest hends) hrest
    | cons y ys =>
      have hlater := ih (List.cons_ne_nil _ _) (fun z hz => h z (List.mem_cons_of_mem _ hz))
        (Nat.le_of_succ_le_succ hn)
      rw [List.map_cons] at hlater
      rw [List.map_cons, List.map_cons, List.intercalate_cons_cons, List.append_assoc,
        List.append_assoc, List.singleton_append]
      exact joined?_cons (h x List.mem_cons_self _ (hoperator _)) hlater

end Joined

/-! ### The tokens of predicates -/

/-- A predicate is read as its expression, whatever follows it. -/
def IsRead (node : String) (p : Predicate) : Prop :=
  ∀ rest depth, (p.tokens node).length ≤ depth →
    test? depth (p.tokens node ++ rest) = some (p.expr node, rest)

theorem isRead_constant (b : Bool) : IsRead node (.constant b) := by
  rintro rest (_ | depth) hdepth
  · cases hdepth
  · cases b with
    | false => rfl
    | true => rfl

/-- What begins with a property of the node is read as a comparison. -/
theorem isRead_of_comparison? (h : a.isVariable node = true) {p : Predicate} {ts : List Token}
    (htokens : p.tokens node = .word node :: .symbol '.' :: ts)
    (hread : ∀ rest, comparison? (p.tokens node ++ rest) = some (p.expr node, rest)) :
    IsRead node p := by
  intro rest depth hdepth
  have hcomparison := hread rest
  rw [htokens] at hdepth hcomparison ⊢
  cases depth with
  | zero => cases hdepth
  | succ depth =>
    exact test?_of_comparison? hcomparison (constant?_eq_none h _) rfl rfl rfl depth

theorem isRead_equals (h : a.isVariable node = true) (property : String) (value : Parameter) :
    IsRead node (.equals property value) := isRead_of_comparison? h rfl fun _ => rfl

theorem isRead_oneOf (h : a.isVariable node = true) (property : String) (values : Parameter) :
    IsRead node (.oneOf property values) := isRead_of_comparison? h rfl fun _ => rfl

theorem isRead_membership (user : Parameter) (roles : Option Parameter) :
    IsRead node (.membership user roles) := by
  cases roles with
  | none =>
    rintro rest (_ | depth) hdepth
    · cases hdepth
    · rfl
  | some roles =>
    intro rest depth hdepth
    obtain ⟨d, rfl⟩ : ∃ d, depth = d + 3 := ⟨depth - 3, by
      simp only [Predicate.tokens, List.length_append, List.length_cons] at hdepth
      omega⟩
    rfl

/-! ### Parts -/

section Lengths

variable {α : Type} {xss : List (List α)}

theorem length_le_length_intercalate (x : α) {xs : List α} (h : xs ∈ xss) :
    xs.length ≤ ([x].intercalate xss).length := by
  induction xss with
  | nil => cases h
  | cons ys yss ih =>
    cases yss with
    | nil =>
      rw [List.mem_singleton] at h
      rw [h, List.intercalate_singleton]
    | cons zs zss =>
      rw [List.intercalate_cons_cons, List.length_append, List.length_append]
      rcases List.mem_cons.1 h with rfl | h
      · omega
      · have := ih h
        omega

/-- There is a separator between any two of the lists. -/
theorem length_le_length_intercalate_succ (x : α) (xss : List (List α)) :
    xss.length ≤ ([x].intercalate xss).length + 1 := by
  induction xss with
  | nil => exact Nat.zero_le _
  | cons ys yss ih =>
    cases yss with
    | nil => exact Nat.le_add_left _ _
    | cons zs zss =>
      rw [List.intercalate_cons_cons, List.length_append, List.length_append, List.length_singleton]
      simp only [List.length_cons] at ih ⊢
      omega

end Lengths

/-- Several parts are in parentheses, so they are read if they are what stands between these. -/
theorem isRead_of_alternatives? {p : Predicate} {keyword : String}
    {join : Expr → Expr → Expr} {unit : Bool} {ps : List Predicate}
    (htokens : p.tokens node = joinedTokens keyword unit (ps.map (Predicate.tokens node)))
    (hexpr : p.expr node = .joined join unit (ps.map (Predicate.expr node)))
    (hps : ∀ p ∈ ps, IsRead node p)
    (h : ∀ depth rest, ps ≠ [] → ps.length ≤ depth →
      (∀ p ∈ ps, (p.tokens node).length ≤ depth) →
      alternatives? (test? depth) depth
        ([Token.word keyword].intercalate (ps.map (Predicate.tokens node)) ++
          .symbol ')' :: rest) =
        some (.joined join unit (ps.map (Predicate.expr node)), .symbol ')' :: rest)) :
    IsRead node p := by
  intro rest depth hdepth
  rw [htokens] at hdepth ⊢
  rw [hexpr]
  match ps, hps, h with
  | [], _, _ => exact (isRead_constant unit : IsRead node _) rest depth hdepth
  | [p], hps, _ => exact hps p List.mem_cons_self rest depth hdepth
  | p :: q :: qs, _, h =>
    have hparts : joinedTokens keyword unit ((p :: q :: qs).map (Predicate.tokens node)) =
        .symbol '(' :: ([Token.word keyword].intercalate
          ((p :: q :: qs).map (Predicate.tokens node)) ++ [.symbol ')']) := rfl
    rw [hparts] at hdepth ⊢
    rw [List.length_cons, List.length_append, List.length_singleton] at hdepth
    obtain ⟨d, rfl⟩ : ∃ d, depth = d + 1 := ⟨depth - 1, by omega⟩
    -- The parentheses leave one level for each part.
    have hlength : (p :: q :: qs).length ≤ d := by
      have hseparators := length_le_length_intercalate_succ (.word keyword)
        ((p :: q :: qs).map (Predicate.tokens node))
      rw [List.length_map] at hseparators
      omega
    have hlengths : ∀ r ∈ p :: q :: qs, (r.tokens node).length ≤ d := fun r hr => by
      have hpart := length_le_length_intercalate (.word keyword)
        (List.mem_map_of_mem (f := Predicate.tokens node) hr)
      omega
    have hread := h d rest (List.cons_ne_nil _ _) hlength hlengths
    rw [List.cons_append, List.append_assoc, List.singleton_append, test?]
    show ((alternatives? _ _ _).bind _) = _
    rw [hread]
    rfl

theorem isRead_allOf {ps : List Predicate} (hps : ∀ p ∈ ps, IsRead node p) :
    IsRead node (.allOf ps) := by
  refine isRead_of_alternatives? (by rw [Predicate.tokens, Predicate.tokensOfEach_eq_map])
    (by rw [Predicate.expr, Predicate.exprs_eq_map]) hps fun depth rest hne hlength hlengths => ?_
  obtain ⟨d, rfl⟩ : ∃ d, depth = d + 1 :=
    Nat.exists_eq_succ_of_ne_zero (by have := List.length_pos_iff.2 hne; omega)
  exact joined?_last (joined?_intercalate (fun _ => True) (fun _ => trivial) trivial rfl true hne
    (fun p hp ts _ => hps p hp ts (d + 1) (hlengths p hp)) hlength) rfl

theorem isRead_anyOf {ps : List Predicate} (hps : ∀ p ∈ ps, IsRead node p) :
    IsRead node (.anyOf ps) := by
  refine isRead_of_alternatives? (by rw [Predicate.tokens, Predicate.tokensOfEach_eq_map])
    (by rw [Predicate.expr, Predicate.exprs_eq_map]) hps fun depth rest hne hlength hlengths => ?_
  obtain ⟨d, rfl⟩ : ∃ d, depth = d + 1 :=
    Nat.exists_eq_succ_of_ne_zero (by have := List.length_pos_iff.2 hne; omega)
  -- `AND` would take what follows a part, but neither `OR` nor the parenthesis is one.
  exact joined?_intercalate (fun ts => after? (.word "AND") ts = none) (fun _ => rfl) rfl rfl false
    hne (fun p hp ts hts => joined?_last (hps p hp ts (d + 1) (hlengths p hp)) hts) hlength

/-- Every predicate is read as its expression. -/
theorem test?_tokens (h : a.isVariable node = true) : ∀ p : Predicate, IsRead node p :=
  Predicate.byParts isRead_constant (isRead_equals h) (isRead_oneOf h) isRead_membership
    (fun _ => isRead_allOf) (fun _ => isRead_anyOf)

/-- The text of a predicate, with the values of its parameters, says what the predicate does. -/
theorem read?_fragment (h : a.isVariable node = true) {p : Predicate}
    (hp : p.isLegible a = true) :
    Expr.read? a (p.fragment node).text p.values = some (p.expr node) := by
  have hnode : a.isName node = true := (Bool.and_eq_true_iff.1 h).1
  obtain ⟨marks, hmarks, hfill⟩ := Option.bind_eq_some_iff.1 (Predicate.tokens?_fragment hnode hp)
  have hread := test?_tokens h p [] _ (Nat.le_succ _)
  rw [List.append_nil] at hread
  have halternatives : alternatives? (test? ((p.tokens node).length + 1))
      ((p.tokens node).length + 1) (p.tokens node) = some (p.expr node, []) :=
    joined?_last (joined?_last hread rfl) rfl
  rw [Expr.read?, hmarks]
  show ((fill marks p.values).bind _) = _
  rw [hfill]
  show ((alternatives? _ _ _).bind _) = _
  rw [halternatives]
  rfl

end Authorization.Cypher
