import Mathlib.Data.List.Basic

/-!
# Legible texts

A text that stands in a longer one is *legible* if it can be told where it ends
and what it is the text of. What follows is not known beforehand, but it begins
with a *mark*, such as a comma or a closing bracket, unless nothing follows.

* `legible_of_not_mem`: a text without marks in it is legible;
* `joined_inj`: legible texts with commas between them, up to a closing mark,
  are read one by one.
-/

namespace Authorization.Text

variable {α : Type}

/-- Nothing is left, or what is left begins with a mark. -/
def AtMark (marks rest : List Char) : Prop := ∀ c ∈ rest.head?, c ∈ marks

theorem atMark_nil {marks : List Char} : AtMark marks [] := fun _ h => nomatch h

theorem atMark_cons {marks rest : List Char} {c : Char} (h : c ∈ marks) :
    AtMark marks (c :: rest) := fun _ hd => Option.some.inj hd ▸ h

/-- The text of `x` shows that it is one of `x` and of nothing else in `P`, wherever it
    stands before a mark. -/
def Legible (marks : List Char) (text : α → List Char) (P : α → Prop) (x : α) : Prop :=
  ∀ y, P y → ∀ ⦃rest rest' : List Char⦄, AtMark marks rest → AtMark marks rest' →
    text x ++ rest = text y ++ rest' → x = y

/-- Texts without marks that go on with marks are the same, if they start alike. -/
theorem eq_of_not_mem {marks : List Char} :
    ∀ {xs ys rest rest' : List Char}, (∀ c ∈ xs, c ∉ marks) → (∀ c ∈ ys, c ∉ marks) →
      AtMark marks rest → AtMark marks rest' → xs ++ rest = ys ++ rest' → xs = ys
  | [], [], _, _, _, _, _, _, _ => rfl
  -- Where one text ends a mark follows, and the other one has none in it.
  | [], y :: ys, rest, rest', _, hy, hr, _, h => by
    rw [List.nil_append] at h
    rw [h] at hr
    exact absurd (hr y rfl) (hy y List.mem_cons_self)
  | x :: xs, [], rest, rest', hx, _, _, hr', h => by
    rw [List.nil_append] at h
    rw [← h] at hr'
    exact absurd (hr' x rfl) (hx x List.mem_cons_self)
  | x :: xs, y :: ys, rest, rest', hx, hy, hr, hr', h => by
    rw [List.cons_append, List.cons_append] at h
    obtain ⟨rfl, htail⟩ := List.cons.inj h
    rw [eq_of_not_mem (fun c hc => hx c (List.mem_cons_of_mem _ hc))
      (fun c hc => hy c (List.mem_cons_of_mem _ hc)) hr hr' htail]

/-- A text without marks is legible among such texts. -/
theorem legible_of_not_mem {marks : List Char} {text : α → List Char} {P : α → Prop} {x : α}
    (hinj : ∀ y, P y → text x = text y → x = y) (hP : ∀ y, P y → ∀ c ∈ text y, c ∉ marks)
    (hx : P x) : Legible marks text P x :=
  fun y hy _ _ hr hr' h => hinj y hy (eq_of_not_mem (hP x hx) (hP y hy) hr hr' h)

/-! ### Lists with commas -/

/-- Texts with commas between them. -/
def joined (texts : List (List Char)) : List Char := [','].intercalate texts

@[simp] theorem joined_nil : joined [] = [] := rfl

@[simp] theorem joined_singleton (t : List Char) : joined [t] = t := List.intercalate_singleton

@[simp] theorem joined_cons_cons (t u : List Char) (ts : List (List Char)) :
    joined (t :: u :: ts) = t ++ ',' :: joined (u :: ts) := by
  rw [joined, List.intercalate_cons_cons, List.append_assoc, joined]
  rfl

theorem toList_intercalate_comma (ts : List String) :
    (",".intercalate ts).toList = joined (ts.map String.toList) := by
  rw [String.toList_intercalate, joined]
  rfl

/-- The text starts, and with something else than a mark. -/
def StartsUnmarked (marks text : List Char) : Prop := ∃ c cs, text = c :: cs ∧ c ∉ marks

/-- What follows the first of several texts, up to a closing mark. -/
theorem exists_joined_cons (text : α → List Char) (x : α) (xs : List α) (m : Char)
    (rest : List Char) :
    ∃ tail, joined ((x :: xs).map text) ++ m :: rest = text x ++ tail ∧
      (xs = [] ∧ tail = m :: rest ∨
        xs ≠ [] ∧ tail = ',' :: (joined (xs.map text) ++ m :: rest)) := by
  cases xs with
  | nil => exact ⟨m :: rest, by simp, .inl ⟨rfl, rfl⟩⟩
  | cons y ys =>
    exact ⟨_, by rw [List.map_cons, List.map_cons, joined_cons_cons, List.append_assoc]; rfl,
      .inr ⟨List.cons_ne_nil _ _, rfl⟩⟩

/-- Legible texts with commas between them, up to a closing mark other than the comma, are the
    texts of one list only, and the closing mark shows where they end. -/
theorem joined_inj (marks : List Char) {text : α → List Char} {P : α → Prop} {m : Char}
    (hm : m ∈ marks) (hcomma : ',' ∈ marks) (hne : m ≠ ',')
    (hstart : ∀ x, P x → StartsUnmarked marks (text x)) :
    ∀ {xs ys : List α} {rest rest' : List Char}, (∀ x ∈ xs, Legible marks text P x) →
      (∀ x ∈ xs, P x) → (∀ y ∈ ys, P y) →
      joined (xs.map text) ++ m :: rest = joined (ys.map text) ++ m :: rest' →
      xs = ys ∧ rest = rest'
  | [], [], _, _, _, _, _, h => ⟨rfl, (List.cons.inj h).2⟩
  | [], y :: ys, rest, rest', _, _, hy, h => by
    obtain ⟨tail, ht, _⟩ := exists_joined_cons text y ys m rest'
    obtain ⟨c, cs, hc, hmark⟩ := hstart y (hy y List.mem_cons_self)
    rw [ht, hc] at h
    exact absurd ((List.cons.inj h).1 ▸ hm) hmark
  | x :: xs, [], rest, rest', _, hx, _, h => by
    obtain ⟨tail, ht, _⟩ := exists_joined_cons text x xs m rest
    obtain ⟨c, cs, hc, hmark⟩ := hstart x (hx x List.mem_cons_self)
    rw [ht, hc] at h
    exact absurd ((List.cons.inj h).1 ▸ hm) hmark
  | x :: xs, y :: ys, rest, rest', hl, hx, hy, h => by
    obtain ⟨tail, ht, hcase⟩ := exists_joined_cons text x xs m rest
    obtain ⟨tail', ht', hcase'⟩ := exists_joined_cons text y ys m rest'
    rw [ht, ht'] at h
    -- The first texts end at a mark, so they are of the same element.
    have hmark : AtMark marks tail := by
      rcases hcase with ⟨_, rfl⟩ | ⟨_, rfl⟩
      · exact atMark_cons hm
      · exact atMark_cons hcomma
    have hmark' : AtMark marks tail' := by
      rcases hcase' with ⟨_, rfl⟩ | ⟨_, rfl⟩
      · exact atMark_cons hm
      · exact atMark_cons hcomma
    obtain rfl := hl x List.mem_cons_self y (hy y List.mem_cons_self) hmark hmark' h
    have htail := List.append_cancel_left h
    -- Either both lists end here, or both go on: the mark that follows tells.
    rcases hcase with ⟨rfl, rfl⟩ | ⟨_, rfl⟩ <;> rcases hcase' with ⟨rfl, rfl⟩ | ⟨_, rfl⟩
    · exact ⟨rfl, (List.cons.inj htail).2⟩
    · exact absurd (List.cons.inj htail).1 hne
    · exact absurd (List.cons.inj htail).1.symm hne
    · obtain ⟨rfl, hrest⟩ := joined_inj marks hm hcomma hne hstart
        (fun z hz => hl z (List.mem_cons_of_mem _ hz))
        (fun z hz => hx z (List.mem_cons_of_mem _ hz))
        (fun z hz => hy z (List.mem_cons_of_mem _ hz)) (List.cons.inj htail).2
      exact ⟨rfl, hrest⟩

end Authorization.Text
