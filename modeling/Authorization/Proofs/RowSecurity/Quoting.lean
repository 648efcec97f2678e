import Authorization.Proofs.Numeral.Reading
import Authorization.Proofs.RowSecurity.Computed
import Authorization.Proofs.RowSecurity.Lexemes
import Authorization.Proofs.Text.Pieces

/-!
# Statements hold what they quote

Every predicate is made of nested pieces (`faithful_predicate`), so names and
literals stay between their quotes, whatever characters they have. Read back, what
is quoted in a statement is its name, its table, and then for each leaf of the
condition, in order, what the leaf names (`quotedIn`).

* `Statement.quotes_kept`: the text of a statement is cut into lexemes to its end;
  its parentheses match, a semicolon ends it and stands nowhere else, and what is
  quoted reads as it was.
-/

namespace Authorization.RowSecurity

open Condition (byParts leaves leaves_allOf leaves_anyOf)

/-! ### What leaves quote -/

/-- A name between quotes. -/
def named (s : String) : Lexeme := .quoted '"' s

/-- A literal between quotes. -/
def told (s : String) : Lexeme := .quoted '\'' s

/-- The literal that stands for a value: the text itself, or that of a list or an object. -/
def literalOf? : Json → Option String
  | .null | .bool _ | .number _ => none
  | .string s => some s
  | v => some v.compact

/-- What a leaf quotes: the names of columns and tables, the settings of the connection, and the
    roles, variants and values in question. -/
def quotedIn (storage : Storage) : Condition → List Lexeme
  | .role names => told "app.roles" :: told "," :: names.toList.map told
  | .variant names =>
    if names.isEmpty then [] else named storage.variantColumn :: names.toList.map told
  | .member roles =>
    [named storage.membershipTable, named storage.table, named storage.idColumn,
      told "app.user_id"] ++ (roles.map fun names => names.toList.map told).getD []
  | .field name .requester => [named name, told "app.user_id"]
  | .field name (.value v) => named name :: ((literalOf? v).map told).toList
  | _ => []

/-- The lexemes of what pieces quote. -/
abbrev quotes (ps : List Piece) : List Lexeme := ps.filterMap Piece.quoted?

/-! ### Predicates are nested -/

namespace Nested

variable {ps qs : List Piece} {s t : String}

theorem fixed_cons (hs : Fits 0 0 s) (hp : Nested ps) : Nested (.fixed s :: ps) :=
  .joined .nil hs hp

theorem append_fixed (hp : Nested ps) (hs : Fits 0 0 s) : Nested (ps ++ [.fixed s]) :=
  .joined hp hs .nil

theorem bracketed (hs : Fits 0 1 s) (hp : Nested ps) (ht : Fits 1 0 t) :
    Nested (.fixed s :: (ps ++ [.fixed t])) := .enclosed .nil hs hp ht

theorem intercalate (hs : Fits 0 0 s) {pss : List (List Piece)} (h : ∀ ps ∈ pss, Nested ps) :
    Nested ([Piece.fixed s].intercalate pss) := by
  induction pss with
  | nil => exact .nil
  | cons ps pss ih =>
    obtain ⟨hp, hps⟩ := List.forall_mem_cons.1 h
    cases pss with
    | nil =>
      rw [List.intercalate_singleton]
      exact hp
    | cons qs qss =>
      rw [List.intercalate_cons_cons, List.append_assoc]
      exact .joined hp hs (ih hps)

end Nested

theorem nested_setting (name : String) : Nested (setting name) :=
  .bracketed (by decide) (.literal name) (by decide)

theorem nested_user : Nested user := .append_fixed (nested_setting _) (by decide)

theorem nested_roles : Nested roles :=
  .bracketed (by decide) (.joined (nested_setting _) (by decide) (.literal _)) (by decide)

theorem nested_literals (names : NameSet) : Nested (literals names) :=
  .intercalate (by decide) (List.forall_mem_map.2 fun n _ => .literal n)

theorem nested_array (names : NameSet) : Nested (array names) :=
  .fixed_cons (by decide) (.append_fixed (nested_literals names) (by decide))

theorem nested_roleTest (names : NameSet) : Nested (roleTest names) :=
  .bracketed (by decide) (.joined nested_roles (by decide) (nested_array names)) (by decide)

theorem nested_variantTest (storage : Storage) (names : NameSet) :
    Nested (variantTest storage names) := by
  unfold variantTest
  split
  · exact .fixed_cons (by decide) .nil
  · exact .enclosed (.name _) (by decide) (nested_literals names) (by decide)

theorem nested_memberTest (storage : Storage) (names : Option NameSet) :
    Nested (memberTest storage names) := by
  have hrow : ∀ tests, Nested tests → Nested (.fixed "EXISTS (SELECT 1 FROM " ::
      (([.name storage.membershipTable, .fixed " m WHERE m.resource_id = ", .name storage.table,
        .fixed ".", .name storage.idColumn, .fixed " AND m.user_id = "] ++ tests) ++
          [.fixed ")"])) :=
    fun tests htests => .bracketed (by decide) (.joined (.name _) (by decide) (.joined (.name _)
      (by decide) (.joined (.name _) (by decide) htests))) (by decide)
  cases names with
  | none => exact hrow user nested_user
  | some names =>
    have htests : Nested (user ++ .fixed " AND m.role = ANY (" :: (array names ++ [.fixed ")"])) :=
      .enclosed nested_user (by decide) (nested_array names) (by decide)
    exact hrow _ htests

/-- Whether the character has a meaning of its own in a statement. -/
def isDelimiter (c : Char) : Bool := isQuote c || c == ';' || c == '(' || c == ')'

/-- Text without such characters leads nowhere. -/
theorem fits_of_forall {s : String} (hne : s.toList ≠ [])
    (h : ∀ c ∈ s.toList, isDelimiter c = false) :
    Fits 0 0 s := by
  have hlevel : ∀ cs : List Char, (∀ c ∈ cs, isDelimiter c = false) →
      depth? 0 (cs.map .plain) = some 0 := by
    intro cs
    induction cs with
    | nil => exact fun _ => rfl
    | cons c cs ih =>
      intro hcs
      obtain ⟨hc, hcs⟩ := List.forall_mem_cons.1 hcs
      have hturn : turn? 0 (.plain c) = some 0 := by
        unfold turn?
        split
        · rename_i h
          cases h
          exact absurd hc (by decide)
        · rename_i h
          cases h
          exact absurd hc (by decide)
        · rfl
      exact Option.bind_eq_some_iff.2 ⟨0, hturn, ih hcs⟩
  refine ⟨hne, fun c hc => ?_, hlevel _ h⟩
  have hplain := h c hc
  simp only [isDelimiter, Bool.or_eq_false_iff, beq_eq_false_iff_ne] at hplain
  exact ⟨hplain.1.1.1, hplain.1.1.2⟩

/-- The text of a number leads nowhere. -/
theorem fits_number (n : Number) : Fits 0 0 n.text := by
  refine fits_of_forall n.toList_text_ne_nil fun c hc => ?_
  have hne : ∀ d, isNumeric d = false → (c == d) = false := fun d hd =>
    beq_eq_false_iff_ne.2 fun h =>
      Bool.false_ne_true (hd.symm.trans (h ▸ Number.isNumeric_of_mem_text c hc))
  simp only [isDelimiter, isQuote, Bool.or_eq_false_iff]
  exact ⟨⟨⟨⟨hne _ rfl, hne _ rfl⟩, hne _ rfl⟩, hne _ rfl⟩, hne _ rfl⟩

theorem nested_fieldTest (name : String) (operand : Operand) : Nested (fieldTest name operand) := by
  have htest : ∀ ps, Nested ps → ∀ s, Fits 0 0 s → Nested (.name name :: .fixed s :: ps) :=
    fun ps hps s hs => .joined (.name _) hs hps
  cases operand with
  | requester => exact htest _ nested_user _ (by decide)
  | value v =>
    cases v with
    | null => exact htest _ .nil _ (by decide)
    | bool b =>
      refine htest _ .nil _ ?_
      cases b <;> decide
    | number n => exact htest _ .nil _ (.append (e := 0) (by decide) (fits_number n))
    | string s => exact htest _ (.literal s) _ (by decide)
    | _ => exact htest _ (.append_fixed (.literal _) (by decide)) _ (by decide)

/-! ### What predicates quote -/

theorem quotes_append (ps qs : List Piece) : quotes (ps ++ qs) = quotes ps ++ quotes qs :=
  List.filterMap_append

theorem quotes_fixed (s : String) (ps : List Piece) : quotes (.fixed s :: ps) = quotes ps := rfl

theorem quotes_bracketed (s t : String) (ps : List Piece) :
    quotes (.fixed s :: ps ++ [.fixed t]) = quotes ps := by
  rw [quotes_append, quotes_fixed]
  exact List.append_nil _

theorem quotes_literals (names : NameSet) : quotes (literals names) = names.toList.map told := by
  rw [literals, quotes, Text.filterMap_intercalate rfl, List.flatMap_map, List.map_eq_flatMap]
  rfl

theorem quotes_array (names : NameSet) : quotes (array names) = names.toList.map told := by
  rw [array, quotes_bracketed, quotes_literals]

theorem quotes_roleTest (names : NameSet) :
    quotes (roleTest names) = told "app.roles" :: told "," :: names.toList.map told := by
  have htest : roleTest names = .fixed "(" :: (roles ++ .fixed " && " :: array names) ++
      [.fixed ")"] := rfl
  rw [htest, quotes_bracketed, quotes_append, quotes_fixed, quotes_array]
  rfl

theorem quotes_variantTest (storage : Storage) (names : NameSet) :
    quotes (variantTest storage names) = quotedIn storage (.variant names) := by
  unfold variantTest
  rw [quotedIn]
  split
  · rfl
  · rw [quotes_append, quotes_append, quotes_literals]
    exact List.append_nil _

theorem quotes_memberTest (storage : Storage) (names : Option NameSet) :
    quotes (memberTest storage names) = quotedIn storage (.member names) := by
  unfold memberTest
  rw [quotes_append, quotes_append, quotes_append, quotedIn]
  cases names with
  | none => rfl
  | some names =>
    rw [quotes_bracketed, quotes_array]
    exact List.append_nil _

theorem quotes_fieldTest (storage : Storage) (name : String) (operand : Operand) :
    quotes (fieldTest name operand) = quotedIn storage (.field name operand) := by
  cases operand with
  | requester => rfl
  | value v => cases v <;> rfl

theorem quotes_joined (operator unit : String) (pss : List (List Piece)) :
    quotes (joined operator unit pss) = pss.flatMap quotes := by
  match pss with
  | [] => rfl
  | [ps] => rw [joined, List.flatMap_singleton]
  | ps :: qs :: pss =>
    have hjoined : joined operator unit (ps :: qs :: pss) = .fixed "(" ::
      [Piece.fixed operator].intercalate (ps :: qs :: pss) ++ [.fixed ")"] := rfl
    rw [hjoined, quotes_bracketed, quotes, Text.filterMap_intercalate rfl]

theorem nested_joined {operator unit : String} (hop : Fits 0 0 operator) (hunit : Fits 0 0 unit)
    {pss : List (List Piece)} (h : ∀ ps ∈ pss, Nested ps) : Nested (joined operator unit pss) := by
  match pss with
  | [] => exact .fixed_cons hunit .nil
  | [ps] => exact h ps (List.mem_singleton_self ps)
  | ps :: qs :: pss => exact .bracketed (by decide) (.intercalate hop h) (by decide)

/-- The pieces of a predicate are nested, and quote what the leaves of the condition quote. -/
structure Faithful (storage : Storage) (c : Condition) (ps : List Piece) : Prop where
  /-- The pieces are nested. -/
  nested : Nested ps
  /-- They quote what the leaves quote, in the same order. -/
  quotes_eq : quotes ps = c.leaves.flatMap (quotedIn storage)

variable {storage : Storage}

/-- Predicates for conditions are faithful if each of them is. -/
theorem faithful_predicates {cs : List Condition}
    (h : ∀ c ∈ cs, ∀ ps, predicate storage c = .ok ps → Faithful storage c ps)
    {pss : List (List Piece)} (hpss : predicates storage cs = .ok pss) :
    (∀ ps ∈ pss, Nested ps) ∧
      pss.flatMap quotes = (cs.flatMap leaves).flatMap (quotedIn storage) := by
  induction cs generalizing pss with
  | nil =>
    cases hpss
    exact ⟨fun _ h => absurd h List.not_mem_nil, rfl⟩
  | cons c cs ih =>
    obtain ⟨hc, hcs⟩ := List.forall_mem_cons.1 h
    rw [predicates] at hpss
    cases hp : predicate storage c with
    | error fault =>
      rw [hp] at hpss
      cases hpss
    | ok ps =>
      cases hps : predicates storage cs with
      | error fault =>
        rw [hp, hps] at hpss
        cases hpss
      | ok rest =>
        rw [hp, hps] at hpss
        cases hpss
        obtain ⟨hnested, hquotes⟩ := ih hcs hps
        have hfaithful := hc ps hp
        refine ⟨List.forall_mem_cons.2 ⟨hfaithful.nested, hnested⟩, ?_⟩
        rw [List.flatMap_cons, List.flatMap_cons, List.flatMap_append, hfaithful.quotes_eq, hquotes]

/-- Where something is made of predicates, there are the predicates. -/
theorem exists_predicates_of_bind {cs : List Condition} {f : List (List Piece) → List Piece}
    {ps : List Piece} (h : (do return f (← predicates storage cs)) = .ok ps) :
    ∃ pss, predicates storage cs = .ok pss ∧ f pss = ps := by
  cases hcs : predicates storage cs with
  | error fault =>
    rw [hcs] at h
    cases h
  | ok pss =>
    rw [hcs] at h
    cases h
    exact ⟨pss, rfl, rfl⟩

/-- Every predicate is faithful to its condition. -/
theorem faithful_predicate (storage : Storage) : ∀ c ps, predicate storage c = .ok ps →
    Faithful storage c ps := by
  have hleaf : ∀ {c : Condition} {qs ps}, c.leaves = [c] → Nested qs →
      quotes qs = quotedIn storage c → (Except.ok qs : Except Error _) = .ok ps →
        Faithful storage c ps := by
    intro c qs ps hleaves hnested hquotes h
    cases h
    exact ⟨hnested, by rw [hleaves, List.flatMap_singleton, hquotes]⟩
  refine byParts ?role ?variant ?member ?field nofun ?allOf ?anyOf
  case role =>
    exact fun names ps => hleaf rfl (nested_roleTest names) (quotes_roleTest names)
  case variant =>
    exact fun names ps =>
      hleaf rfl (nested_variantTest storage names) (quotes_variantTest storage names)
  case member =>
    exact fun names ps =>
      hleaf rfl (nested_memberTest storage names) (quotes_memberTest storage names)
  case field =>
    exact fun name v ps => hleaf rfl (nested_fieldTest name v) (quotes_fieldTest storage name v)
  case allOf =>
    intro parts ih ps h
    obtain ⟨pss, hparts, rfl⟩ := exists_predicates_of_bind h
    obtain ⟨hnested, hquotes⟩ := faithful_predicates ih hparts
    refine ⟨nested_joined (by decide) (by decide) hnested, ?_⟩
    rw [quotes_joined, hquotes, leaves_allOf]
  case anyOf =>
    intro parts ih ps h
    obtain ⟨pss, hparts, rfl⟩ := exists_predicates_of_bind h
    obtain ⟨hnested, hquotes⟩ := faithful_predicates ih hparts
    refine ⟨nested_joined (by decide) (by decide) hnested, ?_⟩
    rw [quotes_joined, hquotes, leaves_anyOf]

/-! ### Statements -/

theorem toList_text (ps : List Piece) : (text ps).toList = ps.flatMap Piece.chars := by
  rw [text, String.toList_join, List.flatMap_map]
  rfl

/-- What is read as quoted in pieces is what they quote. -/
theorem filter_lexemes (ps : List Piece) :
    (ps.flatMap Piece.lexemes).filter Lexeme.isQuoted = quotes ps := by
  induction ps with
  | nil => rfl
  | cons p ps ih =>
    rw [List.flatMap_cons, List.filter_append, ih]
    cases p with
    | fixed s =>
      have hnone : (Piece.fixed s).lexemes.filter Lexeme.isQuoted = [] :=
        List.filter_eq_nil_iff.2 fun l hl => by
          obtain ⟨c, _, rfl⟩ := List.mem_map.1 hl
          exact Bool.false_ne_true
      rw [hnone]
      rfl
    | name s => rfl
    | literal s => rfl

namespace Statement

/-- The pieces of a statement without the semicolon at its end. -/
def body (s : Statement) : List Piece :=
  [.fixed "CREATE POLICY ", .name s.name, .fixed " ON ", .name s.table,
      .fixed (" AS PERMISSIVE FOR " ++ s.kind.keyword ++ " " ++ s.kind.clause ++ " (")] ++
    (s.predicate ++ [.fixed ")"])

theorem toList_sql (s : Statement) : s.sql.toList = s.body.flatMap Piece.chars ++ [';'] := by
  have hend : Piece.chars (.fixed ");") = Piece.chars (.fixed ")") ++ [';'] := by decide
  rw [sql, toList_text, pieces, body, List.flatMap_append, List.flatMap_append,
    List.flatMap_append, List.flatMap_append, List.flatMap_singleton, List.flatMap_singleton, hend,
    List.append_assoc, List.append_assoc, List.append_assoc]

theorem nested_body {s : Statement} (h : Nested s.predicate) : Nested s.body := by
  have hkind : ∀ kind : Kind,
      Fits 0 1 (" AS PERMISSIVE FOR " ++ kind.keyword ++ " " ++ kind.clause ++ " (") := by
    intro kind
    cases kind <;> decide
  exact .fixed_cons (by decide)
    (.joined (.name _) (by decide) (.enclosed (.name _) (hkind _) h (by decide)))

theorem quotes_body (s : Statement) :
    quotes s.body = named s.name :: named s.table :: quotes s.predicate := by
  rw [body, quotes_append, quotes_append]
  exact congrArg (fun ls => named s.name :: named s.table :: ls) (List.append_nil _)

/-- Unless a condition speaks of computed data it has a predicate, and every statement with the
    predicate is read to its end: a semicolon is last and only last, the parentheses outside of
    quotes match, and what is quoted is the name of the statement, its table and what the leaves
    of the condition quote. -/
theorem quotes_kept {c : Condition} (hc : .calculated ∉ c.leaves) (storage : Storage) :
    ∃ ps, RowSecurity.predicate storage c = .ok ps ∧ ∀ s : Statement, s.predicate = ps →
      ∃ ls, lexemes? s.sql.toList = some (ls ++ [.plain ';']) ∧ .plain ';' ∉ ls ∧
        depth? 0 ls = some 0 ∧
        ls.filter Lexeme.isQuoted =
          named s.name :: named s.table :: c.leaves.flatMap (quotedIn storage) := by
  rcases failsIff_predicate storage c with ⟨hmem, _⟩ | ⟨_, ps, hps⟩
  · exact absurd hmem hc
  refine ⟨ps, hps, ?_⟩
  rintro s rfl
  have hfaithful := faithful_predicate storage c s.predicate hps
  have hnested := nested_body hfaithful.nested
  refine ⟨s.body.flatMap Piece.lexemes, ?_, hnested.not_mem_lexemes, hnested.depth?_lexemes 0, ?_⟩
  · -- The semicolon is no quote, so all that is before it has been read then.
    have hlast : read .outside [';'] = ([.plain ';'], .outside) := rfl
    rw [lexemes?, toList_sql, hnested.cut ';' [] rfl, hlast]
    exact congrArg some (List.append_nil _)
  · rw [filter_lexemes, quotes_body, hfaithful.quotes_eq]

/-- Notes with a title that begins like the end of a literal and a statement. -/
def evasive : Condition :=
  .allOf [.field "ti\"tle" (.value (.string "'); DROP TABLE notes; (")), .variant (.ofList ["a'b"])]

/-- The title stays between its quotes. -/
theorem quotes_evasive :
    ∃ ps, RowSecurity.predicate (.ofName "Note") evasive = .ok ps ∧
      ∃ ls, lexemes? (Statement.mk "own" "Note" .select "notes" ps).sql.toList =
          some (ls ++ [.plain ';']) ∧
        ls.filter Lexeme.isQuoted = [named "own", named "notes", named "ti\"tle",
          told "'); DROP TABLE notes; (", named "variant", told "a'b"] := by
  have hstored : .calculated ∉ evasive.leaves := by simp [evasive, leaves]
  obtain ⟨ps, hps, hquotes⟩ := quotes_kept hstored (.ofName "Note")
  obtain ⟨ls, hlexemes, _, _, hquoted⟩ := hquotes (.mk "own" "Note" .select "notes" ps) rfl
  exact ⟨ps, hps, ls, hlexemes, hquoted⟩

end Statement

end Authorization.RowSecurity
