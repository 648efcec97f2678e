import Authorization.Condition.Merge

/-!
# Names in conditions

A *check* says what the names in a condition may be, and the values that its
fields are compared with. A condition passes a check if all its parts do
(`passes`); whatever is made of conditions that pass, passes too.

The ids of conditions join names by commas, brackets and the equals sign. Names
are *plain* if they hold none of these, and if a role or a variant is not named
by nothing at all (`Check.plain`). They are *delimited* if they hold no sign
that ends a name of their sort (`Check.delimited`), which is enough to tell
them in an id.
-/

namespace Authorization

/-- What names may be, and fields compared with. -/
structure Check where
  /-- The roles and variants that may be named. -/
  name : String → Bool
  /-- The fields that may be compared, and with what. -/
  field : String → Operand → Bool

/-- Whether all names of a set may be named. -/
def Check.names (k : Check) (set : NameSet) : Bool := set.toList.all k.name

theorem Check.names_eq_true {k : Check} {set : NameSet} :
    k.names set = true ↔ ∀ n ∈ set, k.name n = true := List.all_eq_true

namespace Condition

mutual

/-- Whether all that a condition names passes a check. -/
def passes (k : Check) : Condition → Bool
  | role names | variant names => k.names names
  | member roles => roles.all k.names
  | field name operand => k.field name operand
  | calculated => true
  | allOf parts | anyOf parts => allPass k parts

/-- Whether all that some conditions name passes a check. -/
def allPass (k : Check) : List Condition → Bool
  | [] => true
  | c :: cs => passes k c && allPass k cs

end

variable {k : Check}

@[simp] theorem allPass_eq_all (cs : List Condition) : allPass k cs = cs.all (passes k) := by
  induction cs with
  | nil => rfl
  | cons c cs ih => rw [allPass, List.all_cons, ih]

@[simp] theorem passes_allOf {cs : List Condition} :
    (allOf cs).passes k = true ↔ ∀ c ∈ cs, c.passes k = true := by
  rw [passes, allPass_eq_all, List.all_eq_true]

@[simp] theorem passes_anyOf {cs : List Condition} :
    (anyOf cs).passes k = true ↔ ∀ c ∈ cs, c.passes k = true := by
  rw [passes, allPass_eq_all, List.all_eq_true]

/-- What passes a check passes any that asks for less. -/
theorem passes_mono {k' : Check} (hname : ∀ n, k.name n = true → k'.name n = true)
    (hfield : ∀ name operand, k.field name operand = true → k'.field name operand = true) :
    ∀ c : Condition, c.passes k = true → c.passes k' = true := by
  have hnames : ∀ {set : NameSet}, k.names set = true → k'.names set = true := fun h =>
    Check.names_eq_true.2 fun n hn => hname n (Check.names_eq_true.1 h n hn)
  refine byParts (fun _ => hnames) (fun _ => hnames) ?member hfield (fun h => h) ?allOf ?anyOf
  case member =>
    intro roles h
    cases roles with
    | none => rfl
    | some names => exact hnames h
  case allOf =>
    intro cs ih h
    exact passes_allOf.2 fun c hc => ih c hc (passes_allOf.1 h c hc)
  case anyOf =>
    intro cs ih h
    exact passes_anyOf.2 fun c hc => ih c hc (passes_anyOf.1 h c hc)

/-! ### Plain names -/

/-- Whether a text has none of some characters. -/
def lacks (marks : List Char) (name : String) : Bool := name.toList.all fun c => !marks.contains c

theorem not_mem_of_lacks {marks : List Char} {name : String} (h : lacks marks name = true) :
    ∀ c ∈ name.toList, c ∉ marks := fun c hc hmark => by
  have hlacks := List.all_eq_true.1 h c hc
  rw [List.contains_iff_mem.2 hmark] at hlacks
  cases hlacks

/-- The characters that ids are joined by. -/
def joints : List Char := [',', '(', ')', '=']

/-- Whether a text has none of the characters that ids are joined by. -/
def isPlain (name : String) : Bool := name.toList.all fun c => !joints.contains c

/-- What is plain has none of these characters. -/
theorem lacks_of_isPlain {marks : List Char} {name : String} (hsub : marks ⊆ joints)
    (h : isPlain name = true) : lacks marks name = true := by
  refine List.all_eq_true.2 fun c hc => ?_
  rw [Bool.not_eq_true', ← Bool.not_eq_true, List.contains_iff_mem]
  have hlacks : lacks joints name = true := h
  exact fun hmark => not_mem_of_lacks hlacks c hc (hsub hmark)

/-- Whether a text is plain, and not empty. -/
def isPlainName (name : String) : Bool := name != "" && isPlain name

end Condition

/-- Names that cannot be taken for anything else in ids. -/
def Check.plain : Check := ⟨Condition.isPlainName, fun name _ => Condition.isPlain name⟩

/-- Whether all names in a condition are plain. -/
abbrev Condition.namesPlain (c : Condition) : Bool := c.passes .plain

/-- Names of which an id shows where they end: those of roles and variants at a comma or a
    closing bracket, those of fields at the equals sign. Empty names show nothing. -/
def Check.delimited : Check where
  name n := n != "" && Condition.lacks [',', ')'] n
  field name _ := Condition.lacks ['='] name

/-- Plain names are delimited. -/
theorem Condition.passes_delimited_of_namesPlain {c : Condition} (h : c.namesPlain = true) :
    c.passes .delimited = true := by
  refine passes_mono (fun n hn => ?_) (fun name _ hname => ?_) c h
  · obtain ⟨hne, hplain⟩ := Bool.and_eq_true _ _ ▸ hn
    exact Bool.and_eq_true _ _ ▸ ⟨hne, lacks_of_isPlain (by decide) hplain⟩
  · exact lacks_of_isPlain (by decide) hname

end Authorization
