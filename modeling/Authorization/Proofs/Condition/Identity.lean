import Authorization.Proofs.Condition.Alike
import Authorization.Proofs.Condition.Names
import Authorization.Proofs.Json.Compact

/-!
# Ids tell their conditions

An id shows which condition it is the id of, but for the order of parts, as
long as names are delimited: it starts with the letter of its kind; names and
nested ids end at a comma or a closing bracket, and the value that a field is
compared with at the bracket after it. Sorting nested ids loses no more than
their order, so conditions with one id are alike (`alike_of_id_eq`), and mean
the same (`sameMeaning_of_id_eq`).

* `holds_eq_of_id_eq`: conditions with one id, and delimited names, are decided
  alike on every object.

Names that are not delimited can be chosen so that two conditions have one id
and differ in meaning (`one_id_two_meanings`).
-/

namespace Authorization.Condition

/-- The marks that may follow an id. -/
def idMarks : List Char := [',', ')']

/-- The kind of condition that the first letter of an id shows. -/
def kindOfStart? (c : Char) : Option Kind :=
  if c = 'r' then some .role else if c = 'v' then some .variant else if c = 'm' then some .member
  else if c = 'f' then some .field else if c = 'c' then some .calculated
  else if c = 'a' then some .allOf else if c = 'o' then some .anyOf else none

/-- The characters of an id. -/
def idChars (c : Condition) : List Char := c.id.toList

theorem toList_listNames (names : NameSet) :
    (listNames names).toList = Text.joined (names.toList.map String.toList) := by
  rw [listNames, Text.toList_intercalate_comma]

theorem idChars_role (names : NameSet) : (role names).idChars =
    'r' :: 'o' :: 'l' :: 'e' :: '(' :: (Text.joined (names.toList.map String.toList) ++ [')']) := by
  rw [idChars, id, String.toList_append, String.toList_append, toList_listNames]
  rfl

theorem idChars_variant (names : NameSet) : (variant names).idChars =
    'v' :: 'a' :: 'r' :: 'i' :: 'a' :: 'n' :: 't' :: '(' ::
      (Text.joined (names.toList.map String.toList) ++ [')']) := by
  rw [idChars, id, String.toList_append, String.toList_append, toList_listNames]
  rfl

theorem idChars_member_none : (member none).idChars = ['m', 'e', 'm', 'b', 'e', 'r'] := rfl

theorem idChars_member_some (names : NameSet) : (member (some names)).idChars =
    'm' :: 'e' :: 'm' :: 'b' :: 'e' :: 'r' :: '(' ::
      (Text.joined (names.toList.map String.toList) ++ [')']) := by
  rw [idChars, id, String.toList_append, String.toList_append, toList_listNames]
  rfl

theorem idChars_field (name : String) (operand : Operand) : (field name operand).idChars =
    'f' :: 'i' :: 'e' :: 'l' :: 'd' :: '(' ::
      (name.toList ++ '=' :: ((operandId operand).toList ++ [')'])) := by
  rw [idChars, id, String.toList_append, String.toList_append, String.toList_append,
    String.toList_append, List.append_assoc, List.append_assoc, List.append_assoc]
  rfl

theorem idChars_calculated : calculated.idChars =
    ['c', 'a', 'l', 'c', 'u', 'l', 'a', 't', 'e', 'd'] := rfl

theorem idChars_allOf (cs : List Condition) : (allOf cs).idChars =
    'a' :: 'n' :: 'd' :: '(' ::
      (Text.joined ((sort (cs.map id)).map String.toList) ++ [')']) := by
  rw [idChars, id, String.toList_append, String.toList_append, Text.toList_intercalate_comma,
    ids_eq_map]
  rfl

theorem idChars_anyOf (cs : List Condition) : (anyOf cs).idChars =
    'o' :: 'r' :: '(' :: (Text.joined ((sort (cs.map id)).map String.toList) ++ [')']) := by
  rw [idChars, id, String.toList_append, String.toList_append, Text.toList_intercalate_comma,
    ids_eq_map]
  rfl

/-- An id starts with a letter that shows the kind of the condition. -/
theorem exists_start (c : Condition) :
    ∃ x xs, c.idChars = x :: xs ∧ kindOfStart? x = some c.kind := by
  cases c with
  | role names => exact ⟨_, _, idChars_role names, rfl⟩
  | variant names => exact ⟨_, _, idChars_variant names, rfl⟩
  | member roles =>
    cases roles with
    | none => exact ⟨_, _, idChars_member_none, rfl⟩
    | some names => exact ⟨_, _, idChars_member_some names, rfl⟩
  | field name operand => exact ⟨_, _, idChars_field name operand, rfl⟩
  | calculated => exact ⟨_, _, idChars_calculated, rfl⟩
  | allOf parts => exact ⟨_, _, idChars_allOf parts, rfl⟩
  | anyOf parts => exact ⟨_, _, idChars_anyOf parts, rfl⟩

theorem startsUnmarked_idChars (c : Condition) : Text.StartsUnmarked idMarks c.idChars := by
  obtain ⟨x, xs, hx, hkind⟩ := c.exists_start
  refine ⟨x, xs, hx, fun hmark => ?_⟩
  rcases List.mem_cons.1 hmark with rfl | hmark
  · cases hkind
  · rw [List.mem_singleton.1 hmark] at hkind
    cases hkind

/-- Ids that start alike are ids of conditions of one kind. -/
theorem kind_eq_of_append {c d : Condition} {rest rest' : List Char}
    (h : c.idChars ++ rest = d.idChars ++ rest') : c.kind = d.kind := by
  obtain ⟨x, xs, hx, hkind⟩ := c.exists_start
  obtain ⟨y, ys, hy, hkind'⟩ := d.exists_start
  rw [hx, hy] at h
  rw [(List.cons.inj h).1, hkind', Option.some.injEq] at hkind
  exact hkind.symm

/-! ### Names and operands -/

/-- A delimited name has no mark that may follow an id. -/
theorem not_mem_idMarks {n : String} (hn : Check.delimited.name n = true) :
    ∀ c ∈ n.toList, c ∉ idMarks := not_mem_of_lacks (Bool.and_eq_true _ _ ▸ hn).2

theorem startsUnmarked_of_delimited {n : String} (hn : Check.delimited.name n = true) :
    Text.StartsUnmarked idMarks n.toList := by
  have hne : n ≠ "" := bne_iff_ne.1 (Bool.and_eq_true _ _ ▸ hn).1
  obtain ⟨c, cs, hc⟩ := List.exists_cons_of_ne_nil fun h : n.toList = [] =>
    hne (String.toList_eq_nil_iff.1 h)
  exact ⟨c, cs, hc, not_mem_idMarks hn c (hc ▸ List.mem_cons_self)⟩

/-- Delimited names with commas between them, up to a closing bracket, are those of one set. -/
theorem names_inj {a b : NameSet} (ha : Check.delimited.names a = true)
    (hb : Check.delimited.names b = true) {rest rest' : List Char}
    (h : Text.joined (a.toList.map String.toList) ++ [')'] ++ rest =
      Text.joined (b.toList.map String.toList) ++ [')'] ++ rest') : a = b := by
  rw [List.append_assoc, List.append_assoc] at h
  -- A delimited name ends where a mark follows it, so it can be read off what it begins.
  have hlist := (Text.joined_inj idMarks (by decide) (by decide) (by decide)
    (fun n => startsUnmarked_of_delimited)
    (fun n hn => Text.legible_of_not_mem (fun _ _ => String.toList_inj.1)
      (fun n => not_mem_idMarks) (Check.names_eq_true.1 ha n hn))
    (Check.names_eq_true.1 ha) (Check.names_eq_true.1 hb) h).1
  exact SortedSet.ext fun n => by rw [SortedSet.mem_def, SortedSet.mem_def, hlist]

/-- An operand, up to a closing bracket, is one operand only. -/
theorem operand_inj {a b : Operand} {rest rest' : List Char}
    (h : (operandId a).toList ++ ')' :: rest = (operandId b).toList ++ ')' :: rest') : a = b := by
  cases a with
  | requester =>
    cases b with
    | requester => rfl
    | value w =>
      obtain ⟨x, xs, hx, _⟩ := w.exists_start
      rw [operandId, operandId, show w.compact.toList = x :: xs from hx] at h
      exact absurd (List.cons.inj h).1.symm (Json.ne_at_of_chars hx)
  | value v =>
    cases b with
    | requester =>
      obtain ⟨x, xs, hx, _⟩ := v.exists_start
      rw [operandId, operandId, show v.compact.toList = x :: xs from hx] at h
      exact absurd (List.cons.inj h).1 (Json.ne_at_of_chars hx)
    | value w =>
      rw [v.legible w trivial (Text.atMark_cons (by decide)) (Text.atMark_cons (by decide)) h]

/-! ### Conditions -/

/-- The id of the condition, before a mark, is that of conditions alike only. -/
def Tells (c : Condition) : Prop :=
  ∀ d : Condition, d.passes .delimited = true → ∀ ⦃rest rest' : List Char⦄,
    Text.AtMark idMarks rest → Text.AtMark idMarks rest' →
    c.idChars ++ rest = d.idChars ++ rest' → Alike c d

theorem Tells.alike {c d : Condition} (hc : Tells c) (hd : d.passes .delimited = true)
    (h : c.id = d.id) : Alike c d :=
  hc d hd Text.atMark_nil Text.atMark_nil (by rw [idChars, idChars, h])

/-- Sorted ids with commas between them, up to a closing bracket, are those of parts alike. -/
theorem alikeParts_of_joined {cs ds : List Condition} (hcs : ∀ c ∈ cs, Tells c)
    (hnames : ∀ c ∈ cs, c.passes .delimited = true)
    (hnames' : ∀ d ∈ ds, d.passes .delimited = true)
    {rest rest' : List Char}
    (h : Text.joined ((sort (cs.map id)).map String.toList) ++ [')'] ++ rest =
      Text.joined ((sort (ds.map id)).map String.toList) ++ [')'] ++ rest') :
    AlikeParts cs ds := by
  have hids : ∀ {es : List Condition}, (∀ e ∈ es, e.passes .delimited = true) →
      ∀ t ∈ sort (es.map id), ∃ e : Condition, e.passes .delimited = true ∧ e.id = t := by
    intro es hes t ht
    obtain ⟨e, he, rfl⟩ := List.mem_map.1 ((sort_perm _).mem_iff.1 ht)
    exact ⟨e, hes e he, rfl⟩
  have hlegible : ∀ t ∈ sort (cs.map id),
      Text.Legible idMarks String.toList
        (fun t => ∃ e : Condition, e.passes .delimited = true ∧ e.id = t) t := by
    intro t ht
    obtain ⟨c, hc, rfl⟩ := List.mem_map.1 ((sort_perm _).mem_iff.1 ht)
    rintro _ ⟨d, hd, rfl⟩ rest rest' hr hr' heq
    exact (hcs c hc d hd hr hr' heq).id_eq
  rw [List.append_assoc, List.append_assoc] at h
  -- The ids are read off one after the other, and what is sorted alike has the same ids.
  have hsort := (Text.joined_inj idMarks (by decide) (by decide) (by decide)
    (by rintro _ ⟨e, _, rfl⟩; exact e.startsUnmarked_idChars) hlegible (hids hnames)
    (hids hnames') h).1
  have hperm : (cs.map id).Perm (ds.map id) :=
    (sort_perm _).symm.trans (hsort ▸ sort_perm _)
  exact .of_map_perm (fun c hc d hd hcd => (hcs c hc).alike (hnames' d hd) hcd) hperm

/-- The id of a membership tells it: one with roles goes on with an opening bracket, one without
    roles ends before a mark. -/
theorem tells_member {roles : Option NameSet} (hroles : (member roles).passes .delimited = true) :
    Tells (member roles) := by
  intro d hd rest rest' hr₁ hr₂ h
  have hkind := kind_eq_of_append h
  cases d <;> cases hkind
  rename_i roles'
  rcases roles with _ | names <;> rcases roles' with _ | names'
  · exact .refl _
  · rw [idChars_member_none, idChars_member_some] at h
    simp only [List.cons_append, List.nil_append, List.cons.injEq, true_and] at h
    exact absurd (hr₁ '(' (by rw [h]; rfl)) (by decide)
  · rw [idChars_member_none, idChars_member_some] at h
    simp only [List.cons_append, List.nil_append, List.cons.injEq, true_and] at h
    exact absurd (hr₂ '(' (by rw [← h]; rfl)) (by decide)
  · rw [idChars_member_some, idChars_member_some] at h
    simp only [List.cons_append, List.cons.injEq, true_and] at h
    rw [names_inj hroles hd h]
    exact .refl _

/-- The id of a comparison tells it: the name of the field goes up to the first equals sign, and
    values are legible. -/
theorem tells_field {name : String} {operand : Operand}
    (hname : (field name operand).passes .delimited = true) : Tells (field name operand) := by
  intro d hd rest rest' _ _ h
  have hkind := kind_eq_of_append h
  cases d <;> cases hkind
  rename_i name' operand'
  rw [idChars_field, idChars_field] at h
  simp only [List.cons_append, List.append_assoc, List.cons.injEq, true_and,
    List.nil_append] at h
  have hchars := Text.eq_of_not_mem (not_mem_of_lacks hname) (not_mem_of_lacks hd)
    (Text.atMark_cons List.mem_cons_self) (Text.atMark_cons List.mem_cons_self) h
  rw [hchars, List.append_cancel_left_eq, List.cons.injEq] at h
  rw [String.toList_inj.1 hchars, operand_inj h.2]
  exact .refl _

/-- An id tells its condition, but for the order of parts. -/
theorem tells : ∀ c : Condition, c.passes .delimited = true → Tells c := by
  refine byParts ?role ?variant (fun _ => tells_member) (fun _ _ => tells_field) ?calculated ?allOf
    ?anyOf
  -- In each case the other condition is of the same kind, so it starts in the same way.
  case role =>
    intro names hnames d hd rest rest' _ _ h
    have hkind := kind_eq_of_append h
    cases d <;> cases hkind
    rw [idChars_role, idChars_role] at h
    simp only [List.cons_append, List.cons.injEq, true_and] at h
    rw [names_inj hnames hd h]
    exact .refl _
  case variant =>
    intro names hnames d hd rest rest' _ _ h
    have hkind := kind_eq_of_append h
    cases d <;> cases hkind
    rw [idChars_variant, idChars_variant] at h
    simp only [List.cons_append, List.cons.injEq, true_and] at h
    rw [names_inj hnames hd h]
    exact .refl _
  case calculated =>
    intro _ d _ rest rest' _ _ h
    have hkind := kind_eq_of_append h
    cases d <;> cases hkind
    exact .refl _
  -- The parts are told by induction, whatever order their ids are sorted in.
  case allOf =>
    intro cs ih hcs d hd rest rest' _ _ h
    have hkind := kind_eq_of_append h
    cases d <;> cases hkind
    rw [idChars_allOf, idChars_allOf] at h
    simp only [List.cons_append, List.cons.injEq, true_and] at h
    rw [passes_allOf] at hcs hd
    exact .allOf (alikeParts_of_joined (fun c hc => ih c hc (hcs c hc)) hcs hd h)
  case anyOf =>
    intro cs ih hcs d hd rest rest' _ _ h
    have hkind := kind_eq_of_append h
    cases d <;> cases hkind
    rw [idChars_anyOf, idChars_anyOf] at h
    simp only [List.cons_append, List.cons.injEq, true_and] at h
    rw [passes_anyOf] at hcs hd
    exact .anyOf (alikeParts_of_joined (fun c hc => ih c hc (hcs c hc)) hcs hd h)

/-- Conditions with one id are the same but for the order of parts. -/
theorem alike_of_id_eq {c d : Condition} (hc : c.passes .delimited = true)
    (hd : d.passes .delimited = true) (h : c.id = d.id) : Alike c d := (tells c hc).alike hd h

/-- Conditions with one id mean the same. -/
theorem sameMeaning_of_id_eq {c d : Condition} (hc : c.namesPlain = true)
    (hd : d.namesPlain = true) (h : c.id = d.id) : SameMeaning c d :=
  have hc := passes_delimited_of_namesPlain hc
  have hd := passes_delimited_of_namesPlain hd
  (alike_of_id_eq hc hd h).sameMeaning

/-- Conditions with one id are decided alike, for every session and on every object. -/
theorem holds_eq_of_id_eq {c d : Condition} (hc : c.passes .delimited = true)
    (hd : d.passes .delimited = true) (h : c.id = d.id) (s : Session) (r : Record) :
    c.holds s (some r) = d.holds s (some r) := by
  rw [holds_some, holds_some, (alike_of_id_eq hc hd h).sameMeaning s r]

/-- Small orders of the north, approved by whoever may. -/
def smallOrder : Condition :=
  .allOf [.field "amount (net), eur" (.value (.number (.integer 5))), .role (.ofList ["a=north(1"])]

/-- The same, in another order. -/
def smallOrder' : Condition :=
  .allOf [.role (.ofList ["a=north(1"]), .field "amount (net), eur" (.value (.number (.integer 5)))]

/-- Names that are not plain can be told as long as they are delimited. -/
theorem holds_smallOrder :
    smallOrder.passes .delimited = true ∧ smallOrder'.passes .delimited = true ∧
      smallOrder.namesPlain = false ∧ smallOrder.id = smallOrder'.id ∧
      ∀ s r, smallOrder.holds s (some r) = smallOrder'.holds s (some r) := by
  have hid : smallOrder.id = smallOrder'.id := by decide +kernel
  exact ⟨by decide, by decide, by decide, hid,
    fun s r => holds_eq_of_id_eq (by decide) (by decide) hid s r⟩

/-- Two conditions that have one id, where the first holds and the second does not on some
    object. -/
def Confused (c d : Condition) : Prop :=
  c.id = d.id ∧ ∃ s r, c.holds s (some r) = .ok true ∧ d.holds s (some r) = .ok false

/-- A session in the one role of a name. -/
def inRole (role : String) : Session := (Session.ofUser ⟨1⟩).withRoles [role]

/-- An object with a note. -/
def noted (note : String) : Record :=
  { Record.blank with fields := .ofList [("note", .string note)] }

/-- A role can be named so that its id is that of two roles, or that of none; two roles, so that
    their id is that of two conditions; and a field, so that a part of its value is a part of its
    name. -/
theorem one_id_two_meanings :
    Confused (.role (.ofList ["author", "editor"])) (.role (.ofList ["author,editor"])) ∧
      Confused (.role (.ofList [""])) (.role ∅) ∧
      Confused (.allOf [.role (.ofList ["author)", "role(editor"])])
        (.allOf [.role (.ofList ["author"]), .role (.ofList ["editor"])]) ∧
      Confused (.allOf [.field "note" (.value (.string "x=1),role(author"))])
        (.allOf
          [.field "note=\"x" (.value (.number (.integer 1))), .role (.ofList ["author\""])]) :=
  ⟨⟨by decide +kernel, inRole "author", .blank, rfl, rfl⟩,
    ⟨by decide +kernel, inRole "", .blank, rfl, rfl⟩,
    ⟨by decide +kernel, inRole "author)", .blank, rfl, rfl⟩,
    ⟨by decide +kernel, inRole "author", noted "x=1),role(author", rfl, rfl⟩⟩

/-- No id is that of allowing. -/
theorem id_ne_true (c : Condition) : c.id ≠ "true" := fun h => by
  obtain ⟨x, xs, hx, hkind⟩ := c.exists_start
  rw [idChars, h] at hx
  cases hx
  cases hkind

/-- No id is that of denying: one that starts with its first letter goes on in another way. -/
theorem id_ne_false (c : Condition) : c.id ≠ "false" := fun h => by
  obtain ⟨x, xs, hx, hkind⟩ := c.exists_start
  rw [idChars, h] at hx
  cases hx
  cases c with
  | field name operand =>
    have hchars := idChars_field name operand
    rw [idChars, h] at hchars
    cases hchars
  | _ => cases hkind

/-- No id is empty. -/
theorem id_ne_empty (c : Condition) : c.id ≠ "" := fun h => by
  obtain ⟨x, xs, hx, _⟩ := c.exists_start
  rw [idChars, h] at hx
  cases hx

end Authorization.Condition
