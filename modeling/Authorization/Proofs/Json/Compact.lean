import Authorization.Json.Printer
import Authorization.Json.Token
import Authorization.Proofs.Numeral.Reading
import Authorization.Proofs.Text.Legible

/-!
# Values tell their compact texts

A compact text shows which value it is the text of, wherever it stands before a
comma or a closing bracket (`Json.legible`): its first character shows what sort
of value it is, a string ends at the first quote that is not escaped, a number
before the first mark, and a list or an object at its closing bracket.

* `unescape?_escapeChar`: inside a string a character is read back as it is written;
* `compact_inj`: two values with one compact text are one value.
-/

namespace Authorization.Json

/-! ### Induction -/

mutual

/-- What passes from items and fields to lists and objects holds of every value. -/
theorem byParts {P : Json → Prop} (null : P .null) (bool : ∀ b, P (.bool b))
    (number : ∀ n, P (.number n)) (string : ∀ s, P (.string s))
    (array : ∀ items, (∀ v ∈ items, P v) → P (.array items))
    (object : ∀ fields : List (String × Json), (∀ e ∈ fields, P e.2) → P (.object fields)) :
    ∀ v, P v
  | .null => null
  | .bool b => bool b
  | .number n => number n
  | .string s => string s
  | .array items => array items (itemsByParts null bool number string array object items)
  | .object fields => object fields (fieldsByParts null bool number string array object fields)

/-- What passes to lists and objects holds of every item. -/
theorem itemsByParts {P : Json → Prop} (null : P .null) (bool : ∀ b, P (.bool b))
    (number : ∀ n, P (.number n)) (string : ∀ s, P (.string s))
    (array : ∀ items, (∀ v ∈ items, P v) → P (.array items))
    (object : ∀ fields : List (String × Json), (∀ e ∈ fields, P e.2) → P (.object fields)) :
    ∀ items : List Json, ∀ v ∈ items, P v
  | [] => fun _ h => absurd h List.not_mem_nil
  | v :: vs => List.forall_mem_cons.2
      ⟨byParts null bool number string array object v,
        itemsByParts null bool number string array object vs⟩

/-- What passes to lists and objects holds of the value of every field. -/
theorem fieldsByParts {P : Json → Prop} (null : P .null) (bool : ∀ b, P (.bool b))
    (number : ∀ n, P (.number n)) (string : ∀ s, P (.string s))
    (array : ∀ items, (∀ v ∈ items, P v) → P (.array items))
    (object : ∀ fields : List (String × Json), (∀ e ∈ fields, P e.2) → P (.object fields)) :
    ∀ fields : List (String × Json), ∀ e ∈ fields, P e.2
  | [] => fun _ h => absurd h List.not_mem_nil
  | (_, v) :: fs => List.forall_mem_cons.2
      ⟨byParts null bool number string array object v,
        fieldsByParts null bool number string array object fs⟩

end

/-! ### Strings -/

/-- The character at the front of what stands between quotes, and what follows it; none
    at the closing quote. -/
def unescape? : List Char → Option (Char × List Char)
  | '\\' :: 'u' :: a :: b :: c :: d :: cs => ((hexQuad? a b c d).bind scalar?).map (·, cs)
  | '\\' :: c :: cs => (escapeLetter? c).map (·, cs)
  | '"' :: _ => none
  | c :: cs => some (c, cs)
  | [] => none

/-- A character below the space is read back from its number. -/
theorem scalar?_hexDigit : ∀ n < 0x20,
    (hexQuad? '0' '0' (hexDigit (n / 16)) (hexDigit n)).bind scalar? = some (Char.ofNat n) := by
  decide +kernel

/-- A character is read back as it is written between quotes. -/
theorem unescape?_escapeChar (c : Char) (cs : List Char) :
    unescape? (escapeChar c ++ cs) = some (c, cs) := by
  by_cases hquote : c = '"'
  · subst hquote; rfl
  by_cases hslash : c = '\\'
  · subst hslash; rfl
  by_cases hb : c = '\x08'
  · subst hb; rfl
  by_cases hf : c = '\x0c'
  · subst hf; rfl
  by_cases hn : c = '\n'
  · subst hn; rfl
  by_cases hr : c = '\r'
  · subst hr; rfl
  by_cases ht : c = '\t'
  · subst ht; rfl
  rw [escapeChar, if_neg hquote, if_neg hslash, if_neg hb, if_neg hf, if_neg hn, if_neg hr,
    if_neg ht]
  -- No letter stands for it: it is written as its number, or as itself.
  split
  · rename_i hcontrol
    have hread := scalar?_hexDigit c.toNat hcontrol
    rw [Char.ofNat_toNat] at hread
    change ((hexQuad? '0' '0' (hexDigit (c.toNat / 16)) (hexDigit c.toNat)).bind scalar?).map
      (·, cs) = some (c, cs)
    rw [hread]
    rfl
  · rw [List.singleton_append, unescape?]
    · exact fun _ _ _ _ _ h => absurd h hslash
    · exact fun _ _ h => absurd h hslash
    · exact hquote

/-- What stands between quotes shows where it ends and what it says. -/
theorem escaped_inj : ∀ {s t rest rest' : List Char},
    s.flatMap escapeChar ++ '"' :: rest = t.flatMap escapeChar ++ '"' :: rest' →
      s = t ∧ rest = rest'
  | [], [], _, _, h => ⟨rfl, (List.cons.inj h).2⟩
  | [], c :: t, _, _, h => by
    have hread := congrArg unescape? h
    rw [List.flatMap_cons, List.append_assoc, unescape?_escapeChar] at hread
    cases hread
  | c :: s, [], _, _, h => by
    have hread := congrArg unescape? h
    rw [List.flatMap_cons, List.append_assoc, unescape?_escapeChar] at hread
    cases hread
  | c :: s, d :: t, _, _, h => by
    have hread := congrArg unescape? h
    rw [List.flatMap_cons, List.flatMap_cons, List.append_assoc, List.append_assoc,
      unescape?_escapeChar, unescape?_escapeChar, Option.some.injEq, Prod.mk.injEq] at hread
    obtain ⟨rfl, htail⟩ := hread
    obtain ⟨rfl, rfl⟩ := escaped_inj htail
    exact ⟨rfl, rfl⟩

theorem toList_quoteText (s : String) :
    (quoteText s).toList = '"' :: (s.toList.flatMap escapeChar ++ ['"']) := by
  simp [quoteText]

/-- A quoted text shows where it ends and what it says. -/
theorem quoteText_inj {s t : String} {rest rest' : List Char}
    (h : (quoteText s).toList ++ rest = (quoteText t).toList ++ rest') : s = t ∧ rest = rest' := by
  rw [toList_quoteText, toList_quoteText, List.cons_append, List.cons_append, List.append_assoc,
    List.append_assoc] at h
  obtain ⟨hs, hrest⟩ := escaped_inj (List.cons.inj h).2
  exact ⟨String.toList_inj.1 hs, hrest⟩

/-! ### Values -/

/-- The marks that may follow a value. -/
def marks : List Char := [',', ')', ']', '\x7d']

/-- The sort of value that a first character shows. -/
def sortOfStart (c : Char) : Nat :=
  if c = 'n' then 0 else if c = 't' ∨ c = 'f' then 1 else if c = '"' then 3
  else if c = '[' then 4 else if c = '\x7b' then 5 else 2

/-- The sort of a value: null, boolean, number, string, list or object. -/
def sortOf : Json → Nat
  | .null => 0
  | .bool _ => 1
  | .number _ => 2
  | .string _ => 3
  | .array _ => 4
  | .object _ => 5

/-- The characters of a compact text. -/
def chars (v : Json) : List Char := v.compact.toList

/-- The characters of a field: its name in quotes, a colon and its value. -/
def fieldChars (e : String × Json) : List Char := (quoteText e.1).toList ++ ':' :: e.2.chars

theorem map_toList_compactItems (vs : List Json) :
    (compactItems vs).map String.toList = vs.map chars := by
  induction vs with
  | nil => rfl
  | cons v vs ih => rw [compactItems, List.map_cons, ih, List.map_cons, chars]

theorem map_toList_compactFields (fs : List (String × Json)) :
    (compactFields fs).map String.toList = fs.map fieldChars := by
  induction fs with
  | nil => rfl
  | cons e fs ih =>
    rw [compactFields, List.map_cons, ih, List.map_cons, fieldChars, chars, String.toList_append,
      String.toList_append, List.append_assoc]
    rfl

theorem chars_array (items : List Json) :
    (array items).chars = '[' :: (Text.joined (items.map chars) ++ [']']) := by
  rw [chars, compact, String.toList_append, String.toList_append, Text.toList_intercalate_comma,
    map_toList_compactItems]
  rfl

theorem chars_object (fields : List (String × Json)) :
    (object fields).chars = '\x7b' :: (Text.joined (fields.map fieldChars) ++ ['\x7d']) := by
  rw [chars, compact, String.toList_append, String.toList_append, Text.toList_intercalate_comma,
    map_toList_compactFields]
  rfl

theorem not_mem_marks_of_isNumeric {c : Char} (h : isNumeric c = true) : c ∉ marks := by
  intro hc
  simp only [marks, List.mem_cons, List.not_mem_nil, or_false] at hc
  rcases hc with rfl | rfl | rfl | rfl <;> cases h

theorem sortOfStart_of_isNumeric {c : Char} (h : isNumeric c = true) : sortOfStart c = 2 := by
  have hne : ∀ d, isNumeric d = false → c ≠ d := by
    rintro d hd rfl
    rw [h] at hd
    cases hd
  rw [sortOfStart, if_neg (hne 'n' rfl), if_neg (fun ht => ht.elim (hne 't' rfl) (hne 'f' rfl)),
    if_neg (hne '"' rfl), if_neg (hne '[' rfl), if_neg (hne '\x7b' rfl)]

/-- A compact text starts with a character that shows the sort of the value, and is no mark. -/
theorem exists_start (v : Json) :
    ∃ c cs, v.chars = c :: cs ∧ sortOfStart c = v.sortOf ∧ c ∉ marks := by
  cases v with
  | null => exact ⟨'n', ['u', 'l', 'l'], rfl, rfl, by decide⟩
  | bool b =>
    cases b with
    | false => exact ⟨'f', ['a', 'l', 's', 'e'], rfl, rfl, by decide⟩
    | true => exact ⟨'t', ['r', 'u', 'e'], rfl, rfl, by decide⟩
  | number n =>
    obtain ⟨c, cs, hc⟩ := List.exists_cons_of_ne_nil n.toList_text_ne_nil
    have hnum := Number.isNumeric_of_mem_text c (hc ▸ List.mem_cons_self)
    exact ⟨c, cs, hc, sortOfStart_of_isNumeric hnum, not_mem_marks_of_isNumeric hnum⟩
  | string s => exact ⟨'"', _, toList_quoteText s, rfl, by decide⟩
  | array items => exact ⟨'[', _, chars_array items, rfl, by decide⟩
  | object fields => exact ⟨'\x7b', _, chars_object fields, rfl, by decide⟩

/-- The mark of the requesting user starts no value. -/
theorem ne_at_of_chars {v : Json} {c : Char} {cs : List Char} (h : v.chars = c :: cs) :
    c ≠ '@' := by
  rintro rfl
  cases v with
  | null => cases (List.cons.inj h).1
  | bool b => cases b <;> cases (List.cons.inj h).1
  | number n =>
    have hnum := Number.isNumeric_of_mem_text (n := n) '@' (by
      rw [show n.text.toList = '@' :: cs from h]
      exact List.mem_cons_self)
    cases hnum
  | string s =>
    rw [chars, compact, toList_quoteText] at h
    cases (List.cons.inj h).1
  | array items =>
    rw [chars_array] at h
    cases (List.cons.inj h).1
  | object fields =>
    rw [chars_object] at h
    cases (List.cons.inj h).1

theorem startsUnmarked_chars (v : Json) : Text.StartsUnmarked marks v.chars :=
  let ⟨c, cs, hc, _, hmark⟩ := v.exists_start; ⟨c, cs, hc, hmark⟩

theorem startsUnmarked_fieldChars (e : String × Json) : Text.StartsUnmarked marks (fieldChars e) :=
  ⟨'"', _, by rw [fieldChars, toList_quoteText]; rfl, by decide⟩

/-- Texts that start alike are texts of values of one sort. -/
theorem sortOf_eq_of_append {v w : Json} {rest rest' : List Char}
    (h : v.chars ++ rest = w.chars ++ rest') : v.sortOf = w.sortOf := by
  obtain ⟨c, cs, hc, hsort, _⟩ := v.exists_start
  obtain ⟨d, ds, hd, hsort', _⟩ := w.exists_start
  rw [hc, hd] at h
  rw [← hsort, ← hsort', (List.cons.inj h).1]

/-- Fields are told by their names, up to the closing quote, and then by their values. -/
theorem legible_fieldChars {e : String × Json}
    (h : Text.Legible marks chars (fun _ => True) e.2) :
    Text.Legible marks fieldChars (fun _ => True) e := by
  intro e' _ rest rest' hr hr' heq
  rw [fieldChars, fieldChars, List.append_assoc, List.append_assoc] at heq
  obtain ⟨hname, hvalue⟩ := quoteText_inj heq
  exact Prod.ext hname (h e'.2 trivial hr hr' (List.cons.inj hvalue).2)

/-- A number goes up to the next mark, and is told by its text. -/
theorem legible_number (n : Number) : Text.Legible marks chars (fun _ => True) (.number n) := by
  intro w _ rest rest' hr hr' h
  have hsort := sortOf_eq_of_append h
  cases w with
  | number m =>
    have htext : n.text.toList = m.text.toList := Text.eq_of_not_mem
      (fun c hc => not_mem_marks_of_isNumeric (Number.isNumeric_of_mem_text c hc))
      (fun c hc => not_mem_marks_of_isNumeric (Number.isNumeric_of_mem_text c hc)) hr hr' h
    rw [Number.text_inj (String.toList_inj.1 htext)]
  | _ => cases hsort

/-- A compact text shows which value it is the text of. -/
theorem legible : ∀ v : Json, Text.Legible marks chars (fun _ => True) v := by
  refine byParts ?null ?bool legible_number ?string ?array ?object
  -- In each case the other value is of the same sort: both start alike.
  case null =>
    intro w _ rest rest' _ _ h
    have hsort := sortOf_eq_of_append h
    cases w with
    | null => rfl
    | _ => cases hsort
  case bool =>
    intro b w _ rest rest' _ _ h
    have hsort := sortOf_eq_of_append h
    cases w with
    | bool c => cases b <;> cases c <;> first | rfl | cases (List.cons.inj h).1
    | _ => cases hsort
  case string =>
    intro s w _ rest rest' _ _ h
    have hsort := sortOf_eq_of_append h
    cases w with
    | string t => rw [(quoteText_inj h).1]
    | _ => cases hsort
  case array =>
    intro items ih w _ rest rest' _ _ h
    have hsort := sortOf_eq_of_append h
    cases w with
    | array others =>
      rw [chars_array, chars_array, List.cons_append, List.cons_append, List.append_assoc,
        List.append_assoc] at h
      rw [(Text.joined_inj marks (P := fun _ => True) (by decide) (by decide) (by decide)
        (fun v _ => startsUnmarked_chars v) ih (fun _ _ => trivial) (fun _ _ => trivial)
        (List.cons.inj h).2).1]
    | _ => cases hsort
  case object =>
    intro fields ih w _ rest rest' _ _ h
    have hsort := sortOf_eq_of_append h
    cases w with
    | object others =>
      rw [chars_object, chars_object, List.cons_append, List.cons_append, List.append_assoc,
        List.append_assoc] at h
      rw [(Text.joined_inj marks (P := fun _ => True) (by decide) (by decide) (by decide)
        (fun e _ => startsUnmarked_fieldChars e) (fun e he => legible_fieldChars (ih e he))
        (fun _ _ => trivial) (fun _ _ => trivial) (List.cons.inj h).2).1]
    | _ => cases hsort

/-- A value is determined by its compact text. -/
theorem compact_inj {v w : Json} (h : v.compact = w.compact) : v = w :=
  legible v w trivial Text.atMark_nil Text.atMark_nil (congrArg (String.toList · ++ []) h)

end Authorization.Json
