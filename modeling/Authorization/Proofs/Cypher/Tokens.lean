import Authorization.Cypher.Predicate
import Authorization.Proofs.Cypher.Reading
import Authorization.Proofs.Numeral.Reading

/-!
# Tokens of graph predicates

The text of a predicate on nodes is cut into the tokens it was put together from,
as long as its names are words: what ends in a word is followed by a blank or a
sign (`Reads.append_reads`). Whatever numbers the parameters go by, each reference
is a token, and takes the value of its own parameter (`Predicate.tokens?_fragment`).
-/

namespace Authorization.Cypher

variable {a : Alphabet}

/-! ### Cutting texts -/

theorem steps?_append {p : Pending} {xs ys : List Char} :
    steps? a p (xs ++ ys) = (steps? a p xs).bind fun first =>
      (steps? a first.2 ys).map fun last => (first.1 ++ last.1, last.2) := by
  induction xs generalizing p with
  | nil =>
    rw [List.nil_append, steps?, Option.bind_some]
    simp
  | cons c cs ih =>
    rw [List.cons_append, steps?, steps?, Option.bind_assoc]
    refine congrArg _ (funext fun next => ?_)
    rw [ih, Option.bind_map, Option.map_bind]
    refine congrArg _ (funext fun first => ?_)
    simp [Function.comp_def]

/-- What is pending ends before a character that nothing goes on with. -/
theorem steps?_of_finish? {p : Pending} {us : List Token} (h : finish? p = some us) {c : Char}
    (hbreak : a.continues c = false) {cs : List Char} :
    steps? a p (c :: cs) =
      (steps? a .nothing (c :: cs)).map fun last => (us ++ last.1, last.2) := by
  have hstep : ∀ q, step? a q c =
      (finish? q).bind fun ts => (begin? a c).map fun next => (ts ++ next.1, next.2) := by
    intro q
    rw [step?]
    · exact fun _ _ h => absurd h (ne_true_of_eq_false hbreak)
    · exact fun _ _ h => absurd h (ne_true_of_eq_false hbreak)
  rw [steps?, hstep, h, steps?, hstep, finish?, Option.bind_some, Option.bind_some,
    Option.bind_map, Option.bind_map, Option.map_bind]
  refine congrArg _ (funext fun next => ?_)
  simp [Function.comp_def]

theorem step?_word {cs : List Char} {c : Char} (h : a.continues c = true) :
    step? a (.word cs) c = some ([], .word (cs ++ [c])) := by
  rw [step?]
  exact h

theorem step?_reference {cs : List Char} {c : Char} (h : a.continues c = true) :
    step? a (.reference cs) c = some ([], .reference (cs ++ [c])) := by
  rw [step?]
  exact h

/-- What is begun goes on to the end of characters that go on with it. -/
theorem steps?_of_all_continues {begun : List Char → Pending}
    (hbegun : ∀ cs c, a.continues c = true → step? a (begun cs) c = some ([], begun (cs ++ [c]))) :
    ∀ {cs ds : List Char}, cs.all a.continues = true →
      steps? a (begun ds) cs = some ([], begun (ds ++ cs))
  | [], ds, _ => by rw [steps?, List.append_nil]
  | c :: cs, ds, h => by
    rw [List.all_cons, Bool.and_eq_true] at h
    rw [steps?, hbegun ds c h.1, Option.bind_some, steps?_of_all_continues hbegun h.2,
      List.append_assoc, List.singleton_append]
    rfl

theorem fill_append {marks marks' ts ts' : List Token} {vs vs' : List Json}
    (h : fill marks vs = some ts) (h' : fill marks' vs' = some ts') :
    fill (marks ++ marks') (vs ++ vs') = some (ts ++ ts') := by
  fun_induction fill marks vs generalizing ts with
  | case1 =>
    cases h
    exact h'
  | case2 => cases h
  | case3 => cases h
  | case4 name marks v vs ih =>
    -- A reference takes the first of its values.
    obtain ⟨d, hd, h⟩ := Option.bind_eq_some_iff.1 h
    obtain ⟨us, hus, rfl⟩ := Option.map_eq_some_iff.1 h
    rw [List.cons_append, List.cons_append, fill, hd, Option.bind_some, ih hus]
    rfl
  | case5 mark marks vs hnone hsome ih =>
    have hmark : ∀ name, mark ≠ .reference name := by
      cases vs with
      | nil => exact fun name => hnone name rfl
      | cons v vs => exact fun name => hsome name v vs rfl
    obtain ⟨us, hus, rfl⟩ := Option.map_eq_some_iff.1 h
    rw [List.cons_append, fill, ih hus]
    · rfl
    · exact fun name _ => hmark name
    · exact fun name _ _ _ => hmark name

/-! ### Texts and their tokens -/

/-- The text is cut into the tokens, once the values have taken the places of its references;
    the last of them may be pending. -/
def Reads (a : Alphabet) (text : List Char) (vs : List Json) (ts : List Token) : Prop :=
  ∃ marks p us, steps? a .nothing text = some (marks, p) ∧ finish? p = some us ∧
    fill (marks ++ us) vs = some ts

/-- The text is cut into the tokens like that, and nothing is pending. -/
def Ends (a : Alphabet) (text : List Char) (vs : List Json) (ts : List Token) : Prop :=
  ∃ marks, steps? a .nothing text = some (marks, .nothing) ∧ fill marks vs = some ts

/-- The text begins with a character that nothing goes on with. -/
def Breaks (a : Alphabet) (text : List Char) : Prop :=
  ∃ c cs, text = c :: cs ∧ a.continues c = false

section Texts

variable {text text' : List Char} {vs vs' : List Json} {ts ts' : List Token}

theorem Ends.reads (h : Ends a text vs ts) : Reads a text vs ts := by
  obtain ⟨marks, hsteps, hfill⟩ := h
  exact ⟨marks, .nothing, [], hsteps, rfl, by rw [List.append_nil, hfill]⟩

theorem Breaks.append (h : Breaks a text) : Breaks a (text ++ text') := by
  obtain ⟨c, cs, rfl, hbreak⟩ := h
  exact ⟨c, cs ++ text', rfl, hbreak⟩

theorem Ends.append (h : Ends a text vs ts) (h' : Ends a text' vs' ts') :
    Ends a (text ++ text') (vs ++ vs') (ts ++ ts') := by
  obtain ⟨marks, hsteps, hfill⟩ := h
  obtain ⟨marks', hsteps', hfill'⟩ := h'
  refine ⟨marks ++ marks', ?_, fill_append hfill hfill'⟩
  rw [steps?_append, hsteps, Option.bind_some, hsteps']
  rfl

theorem Ends.append_reads (h : Ends a text vs ts) (h' : Reads a text' vs' ts') :
    Reads a (text ++ text') (vs ++ vs') (ts ++ ts') := by
  obtain ⟨marks, hsteps, hfill⟩ := h
  obtain ⟨marks', p, us, hsteps', hfinish, hfill'⟩ := h'
  refine ⟨marks ++ marks', p, us, ?_, hfinish, ?_⟩
  · rw [steps?_append, hsteps, Option.bind_some, hsteps']
    rfl
  · rw [List.append_assoc]
    exact fill_append hfill hfill'

/-- What is pending ends before a break. -/
theorem steps?_append_of_breaks {marks marks' us : List Token} {p p' : Pending}
    (h : steps? a .nothing text = some (marks, p)) (hfinish : finish? p = some us)
    (hbreaks : Breaks a text') (h' : steps? a .nothing text' = some (marks', p')) :
    steps? a .nothing (text ++ text') = some (marks ++ us ++ marks', p') := by
  obtain ⟨c, cs, rfl, hbreak⟩ := hbreaks
  rw [steps?_append, h, Option.bind_some, steps?_of_finish? hfinish hbreak, h', List.append_assoc]
  rfl

theorem Reads.append_ends (h : Reads a text vs ts) (hbreaks : Breaks a text')
    (h' : Ends a text' vs' ts') : Ends a (text ++ text') (vs ++ vs') (ts ++ ts') := by
  obtain ⟨marks, p, us, hsteps, hfinish, hfill⟩ := h
  obtain ⟨marks', hsteps', hfill'⟩ := h'
  exact ⟨_, steps?_append_of_breaks hsteps hfinish hbreaks hsteps', fill_append hfill hfill'⟩

theorem Reads.append_reads (h : Reads a text vs ts) (hbreaks : Breaks a text')
    (h' : Reads a text' vs' ts') : Reads a (text ++ text') (vs ++ vs') (ts ++ ts') := by
  obtain ⟨marks, p, us, hsteps, hfinish, hfill⟩ := h
  obtain ⟨marks', p', us', hsteps', hfinish', hfill'⟩ := h'
  refine ⟨_, p', us', steps?_append_of_breaks hsteps hfinish hbreaks hsteps', hfinish', ?_⟩
  rw [List.append_assoc]
  exact fill_append hfill hfill'

end Texts

/-! ### Words and references -/

namespace Alphabet

theorem continues_of_starts {c : Char} (h : a.starts c = true) : a.continues c = true := by
  rw [starts] at h
  rw [continues]
  split
  · rename_i hascii
    rw [if_pos hascii] at h
    simp only [Char.isAlphanum, Bool.or_eq_true] at h ⊢
    exact h.imp_left .inl
  · rename_i hascii
    rw [if_neg hascii] at h
    rw [h, Bool.true_or]

theorem continues_of_isDigit {c : Char} (h : c.isDigit = true) : a.continues c = true := by
  have hascii : c.toNat < 128 := by
    simp only [Char.isDigit, Bool.and_eq_true, decide_eq_true_eq] at h
    have := UInt32.le_iff_toNat_le.1 h.2
    rw [Char.toNat]
    exact Nat.lt_of_le_of_lt this (by decide)
  rw [continues, if_pos hascii, Char.isAlphanum, h, Bool.or_true, Bool.true_or]

theorem all_continues_of_isName {s : String} (h : a.isName s = true) :
    s.toList.all a.continues = true := by
  rw [isName] at h
  cases hs : s.toList with
  | nil => rfl
  | cons c cs =>
    rw [hs, Bool.and_eq_true] at h
    rw [List.all_cons, continues_of_starts h.1, h.2]
    rfl

end Alphabet

/-- What starts a word is neither a blank nor the sign of references. -/
theorem begin?_of_starts {c : Char} (h : a.starts c = true) :
    begin? a c = some ([], .word [c]) := by
  have hne : ∀ d, a.starts d = false → c ≠ d := fun d hd hc =>
    Bool.false_ne_true (hd.symm.trans (hc ▸ h))
  rw [begin?, if_neg (hne ' ' rfl), if_neg (hne '$' rfl), if_pos h]

/-- A name is read as one word. -/
theorem reads_word {s : String} (h : a.isName s = true) : Reads a s.toList [] [.word s] := by
  refine ⟨[], .word s.toList, [.word s], ?_, by rw [finish?, String.ofList_toList], rfl⟩
  have hall := Alphabet.all_continues_of_isName h
  rw [Alphabet.isName] at h
  cases hs : s.toList with
  | nil =>
    rw [hs] at h
    cases h
  | cons c cs =>
    rw [hs] at h hall
    rw [List.all_cons, Bool.and_eq_true] at hall
    have hstep : step? a .nothing c = some ([], .word [c]) := by
      rw [step?, finish?, Option.bind_some, begin?_of_starts (Bool.and_eq_true_iff.1 h).1]
      · rfl
      · exact fun _ h => nomatch h
      · exact fun _ h => nomatch h
    rw [steps?, hstep, Option.bind_some,
      steps?_of_all_continues (fun _ _ => step?_word) hall.2]
    rfl

/-- After its sign, a name is read as a reference, which has the value supplied. -/
theorem reads_reference {name : String} (hne : name.toList ≠ [])
    (h : name.toList.all a.continues = true) {v : Json} {d : Datum}
    (hd : Datum.ofJson? v = some d) : Reads a ("$".toList ++ name.toList) [v] [.value d] := by
  obtain ⟨c, cs, hs⟩ := List.exists_cons_of_ne_nil hne
  refine ⟨[], .reference name.toList, [.reference name], ?_, ?_, ?_⟩
  · have hstep : step? a .nothing '$' = some ([], .reference []) := rfl
    show steps? a .nothing ('$' :: name.toList) = _
    rw [steps?, hstep, Option.bind_some,
      steps?_of_all_continues (fun _ _ => step?_reference) h]
    rfl
  · rw [hs, finish?, ← hs, String.ofList_toList]
  · rw [List.nil_append, fill, hd]
    rfl

/-! ### Pieces -/

namespace Parameter

/-- What a parameter has in a query. -/
def datum (p : Parameter) : Datum := (Datum.ofJson? p.value).getD .null

/-- Whether a query can have the parameter: it has a name, and a value that queries know. -/
def isLegible (a : Alphabet) : Parameter → Bool
  | requester _ => true
  | numbered stem v => a.isName stem && (Datum.ofJson? v).isSome

/-- Parameters are referred to by their names, whatever the next number is. -/
theorem reads_name {p : Parameter} (h : p.isLegible a = true) (n : Nat) :
    Reads a ("$".toList ++ (p.name n).toList) [p.value] [.value p.datum] := by
  cases p with
  | requester user =>
    have hne : "requestingUser".toList ≠ [] := by decide
    have hall : "requestingUser".toList.all a.continues = true := rfl
    exact reads_reference hne hall rfl
  | numbered stem v =>
    rw [isLegible, Bool.and_eq_true] at h
    obtain ⟨d, hd⟩ := Option.isSome_iff_exists.1 h.2
    have hdatum : (Parameter.numbered stem v).datum = d := by
      rw [datum, value, hd, Option.getD_some]
    have hname : ((Parameter.numbered stem v).name n).toList = stem.toList ++ n.repr.toList := by
      rw [name, String.toList_append]
      rfl
    rw [hdatum]
    refine reads_reference ?_ ?_ hd
    · intro hnil
      rw [hname, List.append_eq_nil_iff] at hnil
      rw [Alphabet.isName, hnil.1] at h
      cases h.1
    · rw [hname, List.all_append, Alphabet.all_continues_of_isName h.1, Bool.true_and]
      exact List.all_eq_true.2 fun c hc =>
        Alphabet.continues_of_isDigit (Decimal.isDigit_of_mem_repr c hc)

end Parameter

/-- The number after pieces only matters to what follows them. -/
theorem exists_textFrom_append (ps qs : List Piece) (n : Nat) :
    ∃ m, textFrom n (ps ++ qs) = textFrom n ps ++ textFrom m qs := by
  induction ps generalizing n with
  | nil => exact ⟨n, by rw [List.nil_append, textFrom, String.empty_append]⟩
  | cons p ps ih =>
    cases p with
    | fixed s =>
      obtain ⟨m, hm⟩ := ih n
      exact ⟨m, by rw [List.cons_append, textFrom, textFrom, hm, String.append_assoc]⟩
    | reference p =>
      obtain ⟨m, hm⟩ := ih (p.next n)
      exact ⟨m, by
        rw [List.cons_append, textFrom, textFrom, hm, String.append_assoc, String.append_assoc,
          String.append_assoc]⟩

/-- The text of pieces is cut into the tokens, with the values, whatever the next number is. -/
def PiecesRead (a : Alphabet) (ps : List Piece) (vs : List Json) (ts : List Token) : Prop :=
  ∀ n, Reads a (textFrom n ps).toList vs ts

theorem piecesRead_fixed {s : String} {ts : List Token} (h : Reads a s.toList [] ts) :
    PiecesRead a [.fixed s] [] ts := by
  intro n
  rw [textFrom, textFrom, String.append_empty]
  exact h

theorem piecesRead_reference {p : Parameter} (h : p.isLegible a = true) :
    PiecesRead a [.reference p] [p.value] [.value p.datum] := by
  intro n
  rw [textFrom, textFrom, String.append_empty, String.toList_append]
  exact p.reads_name h n

/-- Fixed text that ends with a blank or a sign goes before any pieces. -/
theorem PiecesRead.cons {s : String} {ps : List Piece} {vs : List Json} {us ts : List Token}
    (hs : Ends a s.toList [] us) (h : PiecesRead a ps vs ts) :
    PiecesRead a (.fixed s :: ps) vs (us ++ ts) := by
  intro n
  rw [textFrom, String.toList_append]
  exact hs.append_reads (h n)

/-- Fixed text that begins with a blank or a sign goes after any pieces. -/
theorem PiecesRead.append {s : String} {ps qs : List Piece} {vs vs' : List Json}
    {ts ts' : List Token} (h : PiecesRead a ps vs ts) (hbreaks : Breaks a s.toList)
    (h' : PiecesRead a (.fixed s :: qs) vs' ts') :
    PiecesRead a (ps ++ .fixed s :: qs) (vs ++ vs') (ts ++ ts') := by
  intro n
  obtain ⟨m, hm⟩ := exists_textFrom_append ps (.fixed s :: qs) n
  have hnext : Breaks a (textFrom m (.fixed s :: qs)).toList := by
    rw [textFrom, String.toList_append]
    exact hbreaks.append
  rw [hm, String.toList_append]
  exact (h n).append_reads hnext (h' m)

/-- What an operator with blanks around it joins is cut like each of the parts. -/
theorem piecesRead_intercalate {α : Type} {operator keyword : String}
    (hends : Ends a operator.toList [] [.word keyword]) (hbreaks : Breaks a operator.toList)
    {pieces : α → List Piece} {values : α → List Json} {tokens : α → List Token} (x : α)
    (xs : List α) (h : ∀ y ∈ x :: xs, PiecesRead a (pieces y) (values y) (tokens y)) :
    PiecesRead a ([Piece.fixed operator].intercalate ((x :: xs).map pieces))
      ((x :: xs).flatMap values) ([Token.word keyword].intercalate ((x :: xs).map tokens)) := by
  induction xs generalizing x with
  | nil =>
    rw [List.map_singleton, List.map_singleton, List.intercalate_singleton,
      List.intercalate_singleton, List.flatMap_singleton]
    exact h x List.mem_cons_self
  | cons y ys ih =>
    have hrest := ih y fun z hz => h z (List.mem_cons_of_mem _ hz)
    rw [List.map_cons, List.map_cons, List.intercalate_cons_cons, List.map_cons, List.map_cons,
      List.intercalate_cons_cons, List.flatMap_cons, List.append_assoc, List.append_assoc]
    exact (h x List.mem_cons_self).append hbreaks (hrest.cons hends)

/-! ### Predicates -/

namespace Predicate

mutual

/-- What passes from parts to wholes holds of every predicate. -/
theorem byParts {P : Predicate → Prop} (constant : ∀ b, P (.constant b))
    (equals : ∀ property v, P (.equals property v)) (oneOf : ∀ property vs, P (.oneOf property vs))
    (membership : ∀ user roles, P (.membership user roles))
    (allOf : ∀ parts, (∀ p ∈ parts, P p) → P (.allOf parts))
    (anyOf : ∀ parts, (∀ p ∈ parts, P p) → P (.anyOf parts)) : ∀ p, P p
  | .constant b => constant b
  | .equals property v => equals property v
  | .oneOf property vs => oneOf property vs
  | .membership user roles => membership user roles
  | .allOf parts => allOf parts (eachByParts constant equals oneOf membership allOf anyOf parts)
  | .anyOf parts => anyOf parts (eachByParts constant equals oneOf membership allOf anyOf parts)

/-- What passes from parts to wholes holds of every predicate in a list. -/
theorem eachByParts {P : Predicate → Prop} (constant : ∀ b, P (.constant b))
    (equals : ∀ property v, P (.equals property v)) (oneOf : ∀ property vs, P (.oneOf property vs))
    (membership : ∀ user roles, P (.membership user roles))
    (allOf : ∀ parts, (∀ p ∈ parts, P p) → P (.allOf parts))
    (anyOf : ∀ parts, (∀ p ∈ parts, P p) → P (.anyOf parts)) :
    ∀ ps : List Predicate, ∀ p ∈ ps, P p
  | [] => fun _ h => absurd h List.not_mem_nil
  | p :: ps => List.forall_mem_cons.2
      ⟨byParts constant equals oneOf membership allOf anyOf p,
        eachByParts constant equals oneOf membership allOf anyOf ps⟩

end

@[simp] theorem piecesOfEach_eq_map (node : String) (ps : List Predicate) :
    piecesOfEach node ps = ps.map (pieces node) := by
  induction ps with
  | nil => rw [piecesOfEach, List.map_nil]
  | cons p ps ih => rw [piecesOfEach, List.map_cons, ih]

mutual

/-- The values of the parameters of a predicate, in the order of its text. -/
def values : Predicate → List Json
  | constant _ => []
  | equals _ value => [value.value]
  | oneOf _ values => [values.value]
  | membership user roles => user.value :: (roles.map Parameter.value).toList
  | allOf parts | anyOf parts => valuesOfEach parts

/-- The values of the parameters of predicates, one predicate after the other. -/
def valuesOfEach : List Predicate → List Json
  | [] => []
  | p :: ps => values p ++ valuesOfEach ps

end

@[simp] theorem valuesOfEach_eq_flatMap (ps : List Predicate) :
    valuesOfEach ps = ps.flatMap values := by
  induction ps with
  | nil => rw [valuesOfEach, List.flatMap_nil]
  | cons p ps ih => rw [valuesOfEach, List.flatMap_cons, ih]

mutual

/-- Whether the names in a predicate are words, and queries know its values. -/
def isLegible (a : Alphabet) : Predicate → Bool
  | constant _ => true
  | equals property value | oneOf property value => a.isName property && value.isLegible a
  | membership user roles => user.isLegible a && roles.all (Parameter.isLegible a)
  | allOf parts | anyOf parts => areLegible a parts

/-- Whether the names in predicates are words, and queries know their values. -/
def areLegible (a : Alphabet) : List Predicate → Bool
  | [] => true
  | p :: ps => isLegible a p && areLegible a ps

end

@[simp] theorem areLegible_eq_all (ps : List Predicate) :
    areLegible a ps = ps.all (isLegible a) := by
  induction ps with
  | nil => rfl
  | cons p ps ih => rw [areLegible, List.all_cons, ih]

end Predicate

/-- The tokens of parts joined by a keyword. -/
def joinedTokens (keyword : String) (unit : Bool) : List (List Token) → List Token
  | [] => [.word (decided unit)]
  | [part] => part
  | parts => .symbol '(' :: [Token.word keyword].intercalate parts ++ [.symbol ')']

/-- The tokens of the pattern of a membership, to which `member` refers. -/
def patternTokens (node : String) (member : Option String) (user : Datum) : List Token :=
  [Token.word "EXISTS", .symbol '\x7b', .word "MATCH", .symbol '(', .word node, .symbol ')',
    .symbol '<', .symbol '-', .symbol '[', .symbol ':', .word "membership", .symbol ']',
    .symbol '-', .symbol '('] ++ (member.map Token.word).toList ++
  [Token.symbol ':', .word "Member", .symbol ')', .symbol '-', .symbol '[', .symbol ':',
    .word "user", .symbol ']', .symbol '-', .symbol '>', .symbol '(', .symbol ':', .word "User",
    .symbol '\x7b', .word "id", .symbol ':'] ++ [Token.value user, .symbol '\x7d', .symbol ')']

namespace Predicate

mutual

/-- The tokens of a predicate on `node`, with its values. -/
def tokens (node : String) : Predicate → List Token
  | constant holds => [.word (decided holds)]
  | equals property value =>
    [.word node, .symbol '.', .word property, .symbol '=', .value value.datum]
  | oneOf property values =>
    [.word node, .symbol '.', .word property, .word "IN", .value values.datum]
  | membership user none => patternTokens node none user.datum ++ [.symbol '\x7d']
  | membership user (some roles) =>
    patternTokens node (some "m") user.datum ++
      [.word "WHERE", .word "any", .symbol '(', .word "role", .word "IN", .word "m", .symbol '.',
        .word "roles", .word "WHERE", .word "role", .word "IN", .value roles.datum, .symbol ')',
        .symbol '\x7d']
  | allOf parts => joinedTokens "AND" true (tokensOfEach node parts)
  | anyOf parts => joinedTokens "OR" false (tokensOfEach node parts)

/-- The tokens of each predicate. -/
def tokensOfEach (node : String) : List Predicate → List (List Token)
  | [] => []
  | p :: ps => tokens node p :: tokensOfEach node ps

end

@[simp] theorem tokensOfEach_eq_map (node : String) (ps : List Predicate) :
    tokensOfEach node ps = ps.map (tokens node) := by
  induction ps with
  | nil => rw [tokensOfEach, List.map_nil]
  | cons p ps ih => rw [tokensOfEach, List.map_cons, ih]

end Predicate

theorem reads_decided (b : Bool) : Reads a (decided b).toList [] [.word (decided b)] := by
  cases b with
  | false =>
    have hname : a.isName "false" = true := rfl
    exact reads_word hname
  | true =>
    have hname : a.isName "true" = true := rfl
    exact reads_word hname

section Predicates

variable {node : String} (hnode : a.isName node = true)
include hnode

/-- A property of the node, and an operator before a parameter. -/
theorem piecesRead_comparison {property operator : String} {ts : List Token} {value : Parameter}
    (hproperty : a.isName property = true) (hends : Ends a operator.toList [] ts)
    (hbreaks : Breaks a operator.toList) (hvalue : value.isLegible a = true) :
    PiecesRead a [.fixed (node ++ "." ++ property ++ operator), .reference value] [value.value]
      ([Token.word node, .symbol '.', .word property] ++ ts ++ [Token.value value.datum]) := by
  intro n
  have hdot : Ends a ".".toList [] [.symbol '.'] := ⟨_, rfl, rfl⟩
  have hdotBreaks : Breaks a ".".toList := ⟨_, _, rfl, rfl⟩
  have htext := ((((reads_word hnode).append_ends hdotBreaks hdot).append_reads
    (reads_word hproperty)).append_ends hbreaks hends).append_reads (value.reads_name hvalue n)
  rw [textFrom, textFrom, textFrom, String.append_empty, String.toList_append,
    String.toList_append, String.toList_append, String.toList_append, String.toList_append]
  exact htext

/-- The pattern of a membership, to which a name refers if there is one. -/
theorem piecesRead_pattern (member : Option String) (hmember : member.all a.isName = true)
    {user : Parameter} (huser : user.isLegible a = true) :
    PiecesRead a (pattern node (member.getD "") user) [user.value]
      (patternTokens node member user.datum) := by
  intro n
  have hstart : Ends a "EXISTS \x7b MATCH (".toList [] [.word "EXISTS", .symbol '\x7b',
    .word "MATCH", .symbol '('] := ⟨_, rfl, rfl⟩
  have hlink : Ends a ")<-[:membership]-(".toList [] [.symbol ')', .symbol '<', .symbol '-',
    .symbol '[', .symbol ':', .word "membership", .symbol ']', .symbol '-', .symbol '('] :=
    ⟨_, rfl, rfl⟩
  have hlinkBreaks : Breaks a ")<-[:membership]-(".toList := ⟨_, _, rfl, rfl⟩
  have huserLink : Ends a ":Member)-[:user]->(:User \x7b id: ".toList [] [.symbol ':',
    .word "Member", .symbol ')', .symbol '-', .symbol '[', .symbol ':', .word "user", .symbol ']',
    .symbol '-', .symbol '>', .symbol '(', .symbol ':', .word "User", .symbol '\x7b',
    .word "id", .symbol ':'] := ⟨_, rfl, rfl⟩
  have huserBreaks : Breaks a ":Member)-[:user]->(:User \x7b id: ".toList := ⟨_, _, rfl, rfl⟩
  have hclose : Ends a " \x7d)".toList [] [.symbol '\x7d', .symbol ')'] := ⟨_, rfl, rfl⟩
  have hcloseBreaks : Breaks a " \x7d)".toList := ⟨_, _, rfl, rfl⟩
  -- Without a name, the membership begins with its label.
  have hmember' : Reads a (member.getD "").toList [] (member.map Token.word).toList := by
    cases member with
    | none => exact ⟨[], .nothing, [], rfl, rfl, rfl⟩
    | some name => exact reads_word hmember
  have htext := (((hstart.append_reads (reads_word hnode)).append_ends hlinkBreaks hlink
    ).append_reads hmember').append_ends huserBreaks huserLink
  have huserText := (user.reads_name huser n).append_ends hcloseBreaks hclose
  rw [pattern, textFrom, textFrom, textFrom, textFrom, String.append_empty, String.toList_append,
    String.toList_append, String.toList_append, String.toList_append, String.toList_append,
    String.toList_append, String.toList_append]
  exact (htext.append huserText).reads

theorem piecesRead_membership {user : Parameter} {roles : Option Parameter}
    (huser : user.isLegible a = true) (hroles : roles.all (Parameter.isLegible a) = true) :
    PiecesRead a ((Predicate.membership user roles).pieces node)
      (Predicate.membership user roles).values ((Predicate.membership user roles).tokens node) := by
  cases roles with
  | none =>
    have hclose : Ends a " \x7d".toList [] [.symbol '\x7d'] := ⟨_, rfl, rfl⟩
    exact (piecesRead_pattern hnode none rfl huser).append ⟨_, _, rfl, rfl⟩
      (piecesRead_fixed hclose.reads)
  | some roles =>
    have hwhere : Ends a " WHERE any(role IN m.roles WHERE role IN ".toList [] [.word "WHERE",
      .word "any", .symbol '(', .word "role", .word "IN", .word "m", .symbol '.',
      .word "roles", .word "WHERE", .word "role", .word "IN"] := ⟨_, rfl, rfl⟩
    have hclose : Ends a ") \x7d".toList [] [.symbol ')', .symbol '\x7d'] := ⟨_, rfl, rfl⟩
    have htest := ((piecesRead_reference hroles).append ⟨_, _, rfl, rfl⟩
      (piecesRead_fixed hclose.reads)).cons hwhere
    exact (piecesRead_pattern hnode (some "m") rfl huser).append ⟨_, _, rfl, rfl⟩ htest

end Predicates

/-- Parts in parentheses, a part by itself, or a decision. -/
theorem piecesRead_joined {node operator keyword : String}
    (hends : Ends a operator.toList [] [.word keyword]) (hbreaks : Breaks a operator.toList)
    (unit : Bool) {ps : List Predicate}
    (h : ∀ p ∈ ps, PiecesRead a (p.pieces node) p.values (p.tokens node)) :
    PiecesRead a (joined operator unit (ps.map (Predicate.pieces node)))
      (ps.flatMap Predicate.values)
      (joinedTokens keyword unit (ps.map (Predicate.tokens node))) := by
  match ps, h with
  | [], _ => exact piecesRead_fixed (reads_decided unit)
  | [p], h =>
    rw [List.flatMap_singleton]
    exact h p List.mem_cons_self
  | p :: q :: qs, h =>
    have hopen : Ends a "(".toList [] [.symbol '('] := ⟨_, rfl, rfl⟩
    have hclose : Ends a ")".toList [] [.symbol ')'] := ⟨_, rfl, rfl⟩
    have hparts := (piecesRead_intercalate hends hbreaks p (q :: qs) h).append
      ⟨_, _, rfl, rfl⟩ (piecesRead_fixed hclose.reads)
    rw [List.append_nil] at hparts
    have hall := hparts.cons hopen
    exact hall

/-- The text of a predicate is cut into its tokens. -/
theorem piecesRead_pieces {node : String} (hnode : a.isName node = true) :
    ∀ p : Predicate, p.isLegible a = true →
      PiecesRead a (p.pieces node) p.values (p.tokens node) := by
  refine Predicate.byParts ?constant ?equals ?oneOf ?membership ?allOf ?anyOf
  case constant => exact fun b _ => piecesRead_fixed (reads_decided b)
  case equals =>
    intro property value h
    rw [Predicate.isLegible, Bool.and_eq_true] at h
    have hequals : Ends a " = ".toList [] [.symbol '='] := ⟨_, rfl, rfl⟩
    exact piecesRead_comparison hnode h.1 hequals ⟨_, _, rfl, rfl⟩ h.2
  case oneOf =>
    intro property value h
    rw [Predicate.isLegible, Bool.and_eq_true] at h
    have hin : Ends a " IN ".toList [] [.word "IN"] := ⟨_, rfl, rfl⟩
    exact piecesRead_comparison hnode h.1 hin ⟨_, _, rfl, rfl⟩ h.2
  case membership =>
    intro user roles h
    rw [Predicate.isLegible, Bool.and_eq_true] at h
    exact piecesRead_membership hnode h.1 h.2
  case allOf =>
    intro parts ih h
    rw [Predicate.isLegible, Predicate.areLegible_eq_all, List.all_eq_true] at h
    rw [Predicate.pieces, Predicate.values, Predicate.tokens, Predicate.piecesOfEach_eq_map,
      Predicate.valuesOfEach_eq_flatMap, Predicate.tokensOfEach_eq_map]
    have hand : Ends a " AND ".toList [] [.word "AND"] := ⟨_, rfl, rfl⟩
    exact piecesRead_joined hand ⟨_, _, rfl, rfl⟩ true fun p hp => ih p hp (h p hp)
  case anyOf =>
    intro parts ih h
    rw [Predicate.isLegible, Predicate.areLegible_eq_all, List.all_eq_true] at h
    rw [Predicate.pieces, Predicate.values, Predicate.tokens, Predicate.piecesOfEach_eq_map,
      Predicate.valuesOfEach_eq_flatMap, Predicate.tokensOfEach_eq_map]
    have hor : Ends a " OR ".toList [] [.word "OR"] := ⟨_, rfl, rfl⟩
    exact piecesRead_joined hor ⟨_, _, rfl, rfl⟩ false fun p hp => ih p hp (h p hp)

/-- The text of a predicate is cut into its tokens, once the values are in it. -/
theorem Predicate.tokens?_fragment {node : String} (hnode : a.isName node = true) {p : Predicate}
    (h : p.isLegible a = true) :
    (tokens? a (p.fragment node).text.toList).bind (fill · p.values) = some (p.tokens node) := by
  obtain ⟨marks, pending, us, hsteps, hfinish, hfill⟩ := piecesRead_pieces hnode p h 0
  have htext : (p.fragment node).text = textFrom 0 (p.pieces node) := rfl
  rw [htext, tokens?, hsteps, Option.bind_some, hfinish, Option.map_some, Option.bind_some, hfill]

end Authorization.Cypher
