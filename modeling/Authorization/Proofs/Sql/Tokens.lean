import Authorization.Proofs.Sql.Reading

/-!
# Tokens of predicates

The text of a predicate is cut into the tokens of its pieces, whatever names
hold: a piece that ends in a word or a name is followed by a blank or a
punctuation mark (`Reads`). Each question mark is one that a piece put there, so
the bound values take their places (`Predicate.tokens?_fragment`).
-/

namespace Authorization.Sql

/-! ### Cutting texts -/

theorem steps?_append {p : Pending} {xs ys : List Char} :
    steps? p (xs ++ ys) = (steps? p xs).bind fun first =>
      (steps? first.2 ys).map fun last => (first.1 ++ last.1, last.2) := by
  induction xs generalizing p with
  | nil =>
    rw [List.nil_append, steps?, Option.bind_some]
    simp
  | cons c cs ih =>
    rw [List.cons_append, steps?, steps?, Option.bind_assoc]
    refine congrArg _ (funext fun next => ?_)
    rw [ih, Option.bind_map, Option.map_bind]
    refine congrArg _ (funext fun first => ?_)
    simp [Function.comp_def]

/-- What is pending ends before a character that is neither of words nor a quote. -/
theorem steps?_of_finish? {p : Pending} {us : List Token} (h : finish? p = some us) {c : Char}
    (hword : isWordChar c = false) (hquote : c ≠ '"') {cs : List Char} :
    steps? p (c :: cs) = (steps? .nothing (c :: cs)).map fun last => (us ++ last.1, last.2) := by
  have hstep : step? p c = (begin? c).map fun next => (us ++ next.1, next.2) := by
    cases p with
    | nothing =>
      cases h
      simp [step?]
    | word xs =>
      cases h
      rw [step?, hword]
      rfl
    | name xs => cases h
    | quoted xs =>
      cases h
      rw [step?, if_neg hquote]
      rfl
  rw [steps?, hstep, steps?, step?, Option.bind_map, Option.map_bind]
  refine congrArg _ (funext fun next => ?_)
  simp [Function.comp_def]

/-- A name between quotes is read to its end. -/
theorem steps?_double (n : List Char) : ∀ cs : List Char,
    steps? (.name cs) (Text.double '"' n ++ ['"']) = some ([], .quoted (cs ++ n)) := by
  induction n with
  | nil =>
    intro cs
    rw [List.append_nil]
    rfl
  | cons c n ih =>
    intro cs
    rw [Text.double]
    split
    · -- A doubled quote goes into the name as one quote.
      rename_i hquote
      have hnext := ih (cs ++ ['"'])
      rw [List.append_assoc, List.singleton_append] at hnext
      rw [hquote, List.cons_append, List.cons_append, steps?, step?, if_pos rfl, Option.bind_some,
        steps?, step?, if_pos rfl, Option.bind_some, hnext]
      rfl
    · rename_i hquote
      have hnext := ih (cs ++ [c])
      rw [List.append_assoc, List.singleton_append] at hnext
      rw [List.cons_append, steps?, step?, if_neg hquote, Option.bind_some, hnext]
      rfl

/-! ### Pieces -/

namespace Piece

/-- The characters of a piece. -/
def chars (p : Piece) : List Char := p.text.toList

/-- The tokens of a piece, with its value if it binds one. -/
def tokens : Piece → List Token
  | fixed s => (tokens? s.toList).getD []
  | name s => [.name s]
  | bind v => [.value v]

/-- The tokens of the text of a piece. -/
def marks : Piece → List Token
  | bind _ => [.symbol '?']
  | p => p.tokens

end Piece

/-- The text of the pieces is cut into their tokens, the last of which may be pending. -/
def Reads (ps : List Piece) : Prop :=
  ∃ ts p us, steps? .nothing (ps.flatMap Piece.chars) = some (ts, p) ∧ finish? p = some us ∧
    ts ++ us = ps.flatMap Piece.marks

/-- The text of the pieces is cut into their tokens, and nothing is pending. -/
def Ends (ps : List Piece) : Prop :=
  steps? .nothing (ps.flatMap Piece.chars) = some (ps.flatMap Piece.marks, .nothing)

/-- The text of the pieces begins with a blank or a punctuation mark. -/
def Breaks (ps : List Piece) : Prop :=
  ∃ c cs, ps.flatMap Piece.chars = c :: cs ∧ isWordChar c = false ∧ c ≠ '"'

section Pieces

variable {ps qs : List Piece}

theorem Ends.reads (h : Ends ps) : Reads ps := ⟨_, _, [], h, rfl, List.append_nil _⟩

theorem Breaks.append (h : Breaks ps) : Breaks (ps ++ qs) := by
  obtain ⟨c, cs, hc, hbreak⟩ := h
  exact ⟨c, cs ++ qs.flatMap Piece.chars, by rw [List.flatMap_append, hc]; rfl, hbreak⟩

theorem Ends.append (h : Ends ps) (h' : Ends qs) : Ends (ps ++ qs) := by
  rw [Ends, List.flatMap_append, List.flatMap_append, steps?_append, h, Option.bind_some, h']
  rfl

theorem Ends.append_reads (h : Ends ps) (h' : Reads qs) : Reads (ps ++ qs) := by
  obtain ⟨ts, p, us, hsteps, hfinish, htokens⟩ := h'
  refine ⟨ps.flatMap Piece.marks ++ ts, p, us, ?_, hfinish, ?_⟩
  · rw [List.flatMap_append, steps?_append, h, Option.bind_some, hsteps]
    rfl
  · rw [List.flatMap_append, List.append_assoc, htokens]

/-- What is read before a break, and after it. -/
theorem Reads.steps?_append_of_breaks (h : Reads ps) (hbreaks : Breaks qs) {ts : List Token}
    {p : Pending} (h' : steps? .nothing (qs.flatMap Piece.chars) = some (ts, p)) :
    steps? .nothing ((ps ++ qs).flatMap Piece.chars) = some (ps.flatMap Piece.marks ++ ts, p) := by
  obtain ⟨ts₁, p₁, us₁, hsteps, hfinish, htokens⟩ := h
  obtain ⟨c, cs, hc, hword, hquote⟩ := hbreaks
  rw [hc] at h'
  rw [List.flatMap_append, steps?_append, hsteps, Option.bind_some, hc,
    steps?_of_finish? hfinish hword hquote, h', ← htokens, List.append_assoc]
  rfl

theorem Reads.append_ends (h : Reads ps) (hbreaks : Breaks qs) (h' : Ends qs) :
    Ends (ps ++ qs) := by
  rw [Ends, h.steps?_append_of_breaks hbreaks h', List.flatMap_append]

theorem Reads.append_reads (h : Reads ps) (hbreaks : Breaks qs) (h' : Reads qs) :
    Reads (ps ++ qs) := by
  obtain ⟨ts, p, us, hsteps, hfinish, htokens⟩ := h'
  refine ⟨_, p, us, h.steps?_append_of_breaks hbreaks hsteps, hfinish, ?_⟩
  rw [List.flatMap_append, List.append_assoc, htokens]

/-- Fixed text that ends with a blank or a punctuation mark. -/
theorem ends_fixed {s : String}
    (h : steps? .nothing s.toList = some ((tokens? s.toList).getD [], .nothing)) :
    Ends [.fixed s] := by
  rw [Ends, List.flatMap_singleton, List.flatMap_singleton]
  exact h

theorem reads_name (n : String) : Reads [.name n] := by
  refine ⟨[], .quoted n.toList, [.name (.ofList n.toList)], ?_, rfl, ?_⟩
  · rw [List.flatMap_singleton, Piece.chars, Piece.text, Text.quotedName, Text.quoted,
      String.toList_ofList, List.cons_append, steps?]
    have hname := steps?_double n.toList []
    rw [List.nil_append] at hname
    rw [show step? .nothing '"' = some ([], .name []) from rfl, Option.bind_some, hname]
    rfl
  · rw [String.ofList_toList, List.flatMap_singleton]
    rfl

theorem ends_bind (v : Value) : Ends [.bind v] := by
  rw [Ends, List.flatMap_singleton, List.flatMap_singleton]
  show steps? .nothing "?".toList = some ([.symbol '?'], .nothing)
  decide

theorem breaks_fixed {s : String}
    (h : s.toList.head?.any (fun c => !isWordChar c && c != '"') = true) : Breaks [.fixed s] := by
  obtain ⟨c, hc, hbreak⟩ := (Option.any_eq_true _ _).1 h
  rw [Bool.and_eq_true, Bool.not_eq_true', bne_iff_ne] at hbreak
  obtain ⟨cs, hcs⟩ := List.head?_eq_some_iff.1 hc
  exact ⟨c, cs, by rw [List.flatMap_singleton]; exact hcs, hbreak⟩

end Pieces

/-! ### Predicates -/

namespace Predicate

mutual

/-- What passes from parts to wholes holds of every predicate. -/
theorem byParts {P : Predicate → Prop} (constant : ∀ b, P (.constant b))
    (equals : ∀ c v, P (.equals c v)) (isNull : ∀ c, P (.isNull c))
    (oneOf : ∀ c vs, P (.oneOf c vs)) (membership : ∀ t c u rs, P (.membership t c u rs))
    (allOf : ∀ parts, (∀ p ∈ parts, P p) → P (.allOf parts))
    (anyOf : ∀ parts, (∀ p ∈ parts, P p) → P (.anyOf parts)) : ∀ p, P p
  | .constant b => constant b
  | .equals c v => equals c v
  | .isNull c => isNull c
  | .oneOf c vs => oneOf c vs
  | .membership t c u rs => membership t c u rs
  | .allOf parts =>
    allOf parts (eachByParts constant equals isNull oneOf membership allOf anyOf parts)
  | .anyOf parts =>
    anyOf parts (eachByParts constant equals isNull oneOf membership allOf anyOf parts)

/-- What passes from parts to wholes holds of every predicate in a list. -/
theorem eachByParts {P : Predicate → Prop} (constant : ∀ b, P (.constant b))
    (equals : ∀ c v, P (.equals c v)) (isNull : ∀ c, P (.isNull c))
    (oneOf : ∀ c vs, P (.oneOf c vs)) (membership : ∀ t c u rs, P (.membership t c u rs))
    (allOf : ∀ parts, (∀ p ∈ parts, P p) → P (.allOf parts))
    (anyOf : ∀ parts, (∀ p ∈ parts, P p) → P (.anyOf parts)) :
    ∀ ps : List Predicate, ∀ p ∈ ps, P p
  | [] => fun _ h => absurd h List.not_mem_nil
  | p :: ps => List.forall_mem_cons.2
      ⟨byParts constant equals isNull oneOf membership allOf anyOf p,
        eachByParts constant equals isNull oneOf membership allOf anyOf ps⟩

end

@[simp] theorem piecesOfEach_eq_map (ps : List Predicate) : piecesOfEach ps = ps.map pieces := by
  induction ps with
  | nil => rw [piecesOfEach, List.map_nil]
  | cons p ps ih => rw [piecesOfEach, List.map_cons, ih]

end Predicate

theorem ends_listed (values : List Value) : Ends (listed values) := by
  have hvalues : Ends ([Piece.fixed ", "].intercalate (values.map fun v => [.bind v])) := by
    induction values with
    | nil => exact rfl
    | cons v vs ih =>
      cases vs with
      | nil =>
        rw [List.map_singleton, List.intercalate_singleton]
        exact ends_bind v
      | cons w ws =>
        rw [List.map_cons, List.map_cons, List.intercalate_cons_cons]
        exact ((ends_bind v).append (ends_fixed (by decide))).append ih
  have hopen : Ends [.fixed "("] := ends_fixed (by decide)
  exact (hopen.append hvalues).append (ends_fixed (by decide))

theorem reads_decided (b : Bool) : Reads [.fixed (decided b)] := by
  cases b with
  | false => exact ⟨[.word "1", .symbol '='], .word ['0'], [.word "0"], by decide, rfl, by decide⟩
  | true => exact ⟨[.word "1", .symbol '='], .word ['1'], [.word "1"], by decide, rfl, by decide⟩

theorem reads_column (c : Column) : Reads c.pieces := by
  have hdot : Ends [.fixed "."] := ends_fixed (by decide)
  exact (reads_name c.qualifier).append_reads (breaks_fixed (by decide)).append
    (hdot.append_reads (reads_name c.name))

/-- What an operator with blanks around it joins is cut like each of the parts. -/
theorem reads_joined {operator : String} (hends : Ends [.fixed operator])
    (hbreaks : Breaks [.fixed operator]) (unit : Bool) {parts : List (List Piece)}
    (hparts : ∀ ps ∈ parts, Reads ps) : Reads (joined operator unit parts) := by
  rcases parts with _ | ⟨ps, pss⟩
  · exact reads_decided unit
  · have hjoined : Reads ([Piece.fixed operator].intercalate (ps :: pss)) := by
      induction pss generalizing ps with
      | nil =>
        rw [List.intercalate_singleton]
        exact hparts ps List.mem_cons_self
      | cons qs qss ih =>
        have hrest := ih qs fun rs hrs => hparts rs (List.mem_cons_of_mem _ hrs)
        rw [List.intercalate_cons_cons, List.append_assoc]
        exact (hparts ps List.mem_cons_self).append_reads hbreaks.append
          (hends.append_reads hrest)
    have hopen : Ends [.fixed "("] := ends_fixed (by decide)
    exact ((hopen.append_reads hjoined).append_ends (breaks_fixed (by decide))
      (ends_fixed (by decide))).reads

/-- What comes before the test of the role ends with a bound value, so nothing is pending then. -/
theorem Ends.append_roleTest {ps : List Piece} (h : Ends ps) (roles : Option (List Value)) :
    Reads (ps ++ roleTest roles) := by
  match roles with
  | none => exact h.append_reads ⟨[], .nothing, [], rfl, rfl, rfl⟩
  | some [] =>
    refine h.append_reads ⟨[.word "AND", .word "1", .symbol '='], .word ['0'], [.word "0"],
      ?_, rfl, ?_⟩
    · decide
    · decide
  | some (v :: vs) =>
    have hin : Ends [.fixed " AND m.role IN "] := ends_fixed (by decide)
    exact (h.append (hin.append (ends_listed (v :: vs)))).reads

theorem reads_membership (table : String) (object : Column) (user : Value)
    (roles : Option (List Value)) :
    Reads (Predicate.membership table object user roles).pieces := by
  -- The texts between the names begin and end with blanks, so no token runs into the next.
  have hexists : Ends [.fixed "EXISTS (SELECT 1 FROM "] := ends_fixed (by decide)
  have hwhere : Ends [.fixed " m WHERE m.resource_id = "] := ends_fixed (by decide)
  have hbreaks : Breaks [.fixed " m WHERE m.resource_id = "] := breaks_fixed (by decide)
  have huser : Ends [.fixed " AND m.user_id = "] := ends_fixed (by decide)
  have hbreaks' : Breaks [.fixed " AND m.user_id = "] := breaks_fixed (by decide)
  have hclose : Ends [.fixed ")"] := ends_fixed (by decide)
  have hstart : Ends ([.fixed "EXISTS (SELECT 1 FROM ", .name table] ++
      [.fixed " m WHERE m.resource_id = "]) :=
    (hexists.append_reads (reads_name table)).append_ends hbreaks hwhere
  have htests : Ends ([.fixed "EXISTS (SELECT 1 FROM ", .name table] ++
      [.fixed " m WHERE m.resource_id = "] ++ object.pieces ++
      ([.fixed " AND m.user_id = "] ++ [.bind user])) :=
    (hstart.append_reads (reads_column object)).append_ends hbreaks'.append
      (huser.append (ends_bind user))
  exact ((htests.append_roleTest roles).append_ends (breaks_fixed (by decide)) hclose).reads

/-- The text of a predicate is cut into the tokens of its pieces. -/
theorem reads_pieces : ∀ p : Predicate, Reads p.pieces := by
  refine Predicate.byParts ?constant ?equals ?isNull ?oneOf reads_membership ?allOf ?anyOf
  case constant => exact reads_decided
  case equals =>
    intro c v
    have hequals : Ends [.fixed " = "] := ends_fixed (by decide)
    exact ((reads_column c).append_ends (breaks_fixed (by decide)).append
      (hequals.append (ends_bind v))).reads
  case isNull =>
    intro c
    exact (reads_column c).append_reads (breaks_fixed (by decide))
      ⟨[.word "IS"], .word ['N', 'U', 'L', 'L'], [.word "NULL"], by decide, rfl, by decide⟩
  case oneOf =>
    intro c vs
    have hin : Ends [.fixed " IN "] := ends_fixed (by decide)
    exact ((reads_column c).append_ends (breaks_fixed (by decide)).append
      (hin.append (ends_listed vs))).reads
  case allOf =>
    intro parts ih
    rw [Predicate.pieces, Predicate.piecesOfEach_eq_map]
    exact reads_joined (ends_fixed (by decide)) (breaks_fixed (by decide)) true
      (List.forall_mem_map.2 ih)
  case anyOf =>
    intro parts ih
    rw [Predicate.pieces, Predicate.piecesOfEach_eq_map]
    exact reads_joined (ends_fixed (by decide)) (breaks_fixed (by decide)) false
      (List.forall_mem_map.2 ih)

/-! ### The tokens of a text with its values -/

/-- The fixed texts in predicates. -/
def fixedTexts : List String :=
  ["1 = 1", "1 = 0", ".", " = ", " IS NULL", " IN ", "(", ", ", ")", "EXISTS (SELECT 1 FROM ",
    " m WHERE m.resource_id = ", " AND m.user_id = ", " AND 1 = 0", " AND m.role IN ", " AND ",
    " OR "]

/-- A piece is a name, binds a value, or is one of the fixed texts. -/
def Piece.isUsual : Piece → Bool
  | fixed s => fixedTexts.contains s
  | _ => true

theorem isUsual_decided (b : Bool) : (Piece.fixed (decided b)).isUsual = true := by
  cases b <;> decide

theorem all_isUsual_listed (values : List Value) :
    (listed values).all Piece.isUsual = true := by
  have hvalues : ([Piece.fixed ", "].intercalate
      (values.map fun v => [Piece.bind v])).all Piece.isUsual = true := by
    induction values with
    | nil => rfl
    | cons v vs ih =>
      cases vs with
      | nil => rfl
      | cons w ws =>
        rw [List.map_cons, List.map_cons, List.intercalate_cons_cons, List.all_append,
          List.all_append]
        exact Bool.and_eq_true_iff.2 ⟨rfl, ih⟩
  rw [listed, List.cons_append, List.all_cons, List.all_append, hvalues]
  decide

theorem all_isUsual_roleTest (roles : Option (List Value)) :
    (roleTest roles).all Piece.isUsual = true := by
  match roles with
  | none => rfl
  | some [] => decide
  | some (v :: vs) =>
    rw [roleTest, List.all_cons, all_isUsual_listed]
    · decide
    · exact fun h => List.cons_ne_nil _ _ h

theorem all_isUsual_joined {operator : String} (hop : (Piece.fixed operator).isUsual = true)
    (unit : Bool) {parts : List (List Piece)} (h : ∀ ps ∈ parts, ps.all Piece.isUsual = true) :
    (joined operator unit parts).all Piece.isUsual = true := by
  rcases parts with _ | ⟨ps, pss⟩
  · rw [joined, List.all_cons, isUsual_decided]
    rfl
  · have hjoined : ([Piece.fixed operator].intercalate (ps :: pss)).all Piece.isUsual = true := by
      induction pss generalizing ps with
      | nil =>
        rw [List.intercalate_singleton]
        exact h ps List.mem_cons_self
      | cons qs qss ih =>
        rw [List.intercalate_cons_cons, List.all_append, List.all_append, List.all_cons, hop,
          h ps List.mem_cons_self, ih qs fun rs hrs => h rs (List.mem_cons_of_mem _ hrs)]
        rfl
    show (Piece.fixed "(" :: [Piece.fixed operator].intercalate (ps :: pss) ++
      [Piece.fixed ")"]).all Piece.isUsual = true
    rw [List.cons_append, List.all_cons, List.all_append, hjoined]
    decide

theorem all_isUsual_pieces : ∀ p : Predicate, p.pieces.all Piece.isUsual = true := by
  refine Predicate.byParts (fun b => ?_) (fun _ _ => rfl) (fun _ => rfl) ?oneOf
    ?membership ?allOf ?anyOf
  · rw [Predicate.pieces, List.all_cons, isUsual_decided]
    rfl
  case oneOf =>
    intro c vs
    rw [Predicate.pieces, List.all_append, List.all_cons, all_isUsual_listed]
    rfl
  case membership =>
    intro table object user roles
    rw [Predicate.pieces, List.all_append, List.all_append, List.all_append, List.all_append,
      all_isUsual_roleTest]
    rfl
  case allOf =>
    intro parts ih
    rw [Predicate.pieces, Predicate.piecesOfEach_eq_map]
    exact all_isUsual_joined (by decide) true (List.forall_mem_map.2 ih)
  case anyOf =>
    intro parts ih
    rw [Predicate.pieces, Predicate.piecesOfEach_eq_map]
    exact all_isUsual_joined (by decide) false (List.forall_mem_map.2 ih)

/-- Tokens without question marks are left as they are. -/
theorem fill_append {ts : List Token} (h : .symbol '?' ∉ ts) (us : List Token)
    (values : List Value) : fill (ts ++ us) values = (fill us values).map (ts ++ ·) := by
  induction ts with
  | nil => simp
  | cons t ts ih =>
    rw [List.mem_cons, not_or] at h
    rw [List.cons_append, fill_cons, if_neg (Ne.symm h.1), ih h.2, Option.map_map]
    rfl

/-- No fixed text has a question mark in it. -/
theorem not_mem_tokens_of_mem_fixedTexts :
    ∀ s ∈ fixedTexts, .symbol '?' ∉ (Piece.fixed s).tokens := by decide

/-- Each question mark is one of a value that is bound. -/
theorem fill_marks {ps : List Piece} (h : ps.all Piece.isUsual = true) :
    fill (ps.flatMap Piece.marks) (ps.filterMap Piece.bound?) = some (ps.flatMap Piece.tokens) := by
  induction ps with
  | nil => rfl
  | cons p ps ih =>
    rw [List.all_cons, Bool.and_eq_true] at h
    rw [List.flatMap_cons, List.flatMap_cons]
    cases p with
    | fixed s =>
      have hnone : (Piece.fixed s).bound? = none := rfl
      have hquiet := not_mem_tokens_of_mem_fixedTexts s (List.contains_iff_mem.1 h.1)
      rw [List.filterMap_cons_none hnone, Piece.marks, fill_append hquiet, ih h.2]
      · rfl
      · exact nofun
    | name n =>
      -- A question mark in a name is no token.
      have hnone : (Piece.name n).bound? = none := rfl
      rw [List.filterMap_cons_none hnone, Piece.marks, fill_append (by simp [Piece.tokens]),
        ih h.2]
      · rfl
      · exact nofun
    | bind v =>
      have hsome : (Piece.bind v).bound? = some v := rfl
      rw [List.filterMap_cons_some hsome, Piece.marks, List.singleton_append,
        fill_cons, if_pos rfl]
      show ((fill (ps.flatMap Piece.marks) (ps.filterMap Piece.bound?)).map _) = _
      rw [ih h.2]
      rfl

namespace Predicate

/-- The tokens of a predicate, with the values it binds. -/
def tokens (p : Predicate) : List Token := p.pieces.flatMap Piece.tokens

/-- The text of a predicate is cut into its tokens, once the values are in it. -/
theorem tokens?_fragment (p : Predicate) :
    (tokens? p.fragment.text.toList).bind (fill · p.fragment.binds) = some p.tokens := by
  obtain ⟨ts, pending, us, hsteps, hfinish, htokens⟩ := reads_pieces p
  have htext : p.fragment.text.toList = p.pieces.flatMap Piece.chars := by
    rw [fragment, Fragment.ofPieces, String.toList_join, List.flatMap_map]
    rfl
  -- Cutting the text leaves a question mark for each value, and filling puts the values in.
  rw [htext, tokens?, hsteps, Option.bind_some, hfinish, Option.map_some, Option.bind_some, htokens]
  exact fill_marks (all_isUsual_pieces p)

end Predicate

end Authorization.Sql
