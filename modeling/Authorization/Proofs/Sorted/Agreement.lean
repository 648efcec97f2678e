import Authorization.Proofs.Sorted.Entries
import Mathlib.Data.List.Forall2

/-!
# Maps that agree

Two maps *agree* up to a relation of values if look-ups in both find values that
are so related, or find nothing in either (`SortedMap.Agree`). What is made of
maps that agree, entry by entry, agrees as well.

Values put in one after the other come to the same, up to a relation, whatever
order they are put in, if this is so of any two of them
(`List.Perm.foldl_of_swap`).
-/

/-! ### Values that may be there -/

namespace Option.Rel

variable {α β γ δ : Type} {R : α → β → Prop} {S : γ → δ → Prop} {x x' : Option α}
  {y y' : Option β}

theorem refl {R : α → α → Prop} (hrefl : ∀ a, R a a) (x : Option α) : Rel R x x := by
  cases x with
  | none => exact .none
  | some a => exact .some (hrefl a)

theorem trans {R : α → α → Prop} (htrans : ∀ a b c, R a b → R b c → R a c) {x y z : Option α}
    (h : Rel R x y) (h' : Rel R y z) : Rel R x z := by
  cases h with
  | none => exact h'
  | some hab => cases h' with | some hbc => exact .some (htrans _ _ _ hab hbc)

theorem isSome_eq (h : Rel R x y) : x.isSome = y.isSome := by cases h <;> rfl

theorem eq_none_or_some (h : Rel R x y) :
    (x = .none ∧ y = .none) ∨ ∃ a b, x = .some a ∧ y = .some b ∧ R a b := by
  cases h with
  | none => exact .inl ⟨rfl, rfl⟩
  | some h => exact .inr ⟨_, _, rfl, rfl, h⟩

theorem map (h : Rel R x y) {f : α → γ} {g : β → δ} (hfg : ∀ a b, R a b → S (f a) (g b)) :
    Rel S (x.map f) (y.map g) := by
  cases h with
  | none => exact .none
  | some h => exact .some (hfg _ _ h)

theorem bind (h : Rel R x y) {f : α → Option γ} {g : β → Option δ}
    (hfg : ∀ a b, R a b → Rel S (f a) (g b)) : Rel S (x.bind f) (y.bind g) := by
  cases h with
  | none => exact .none
  | some h => exact hfg _ _ h

theorem or (h : Rel R x y) (h' : Rel R x' y') : Rel R (x.or x') (y.or y') := by
  cases h with
  | none => rwa [Option.none_or, Option.none_or]
  | some h => exact .some h

theorem filter (h : Rel R x y) {p : α → Bool} {q : β → Bool} (hpq : ∀ a b, R a b → p a = q b) :
    Rel R (x.filter p) (y.filter q) := by
  cases h with
  | none => exact .none
  | @some a b h =>
    rw [Option.filter_some, Option.filter_some, hpq a b h]
    split
    · exact .some h
    · exact .none

theorem getD (h : Rel R x y) {a : α} {b : β} (hd : R a b) : R (x.getD a) (y.getD b) := by
  cases h with
  | none => exact hd
  | some h => exact h

theorem map_eq (h : Rel R x y) {f : α → γ} {g : β → γ} (hfg : ∀ a b, R a b → f a = g b) :
    x.map f = y.map g := by
  cases h with
  | none => rfl
  | some h => exact congrArg Option.some (hfg _ _ h)

theorem any_eq (h : Rel R x y) {p : α → Bool} {q : β → Bool} (hpq : ∀ a b, R a b → p a = q b) :
    x.any p = y.any q := by
  cases h with
  | none => rfl
  | some h => exact hpq _ _ h

end Option.Rel

/-! ### Lists -/

namespace List

variable {α β γ κ : Type} {R : α → β → Prop} {as : List α} {bs : List β}

theorem Forall₂.exists_right (h : Forall₂ R as bs) {a : α} (ha : a ∈ as) : ∃ b ∈ bs, R a b := by
  induction h with
  | nil => exact absurd ha not_mem_nil
  | cons hab _ ih =>
    rcases mem_cons.1 ha with rfl | ha
    · exact ⟨_, mem_cons_self, hab⟩
    · obtain ⟨b, hb, hr⟩ := ih ha
      exact ⟨b, mem_cons_of_mem _ hb, hr⟩

theorem Forall₂.exists_left (h : Forall₂ R as bs) {b : β} (hb : b ∈ bs) : ∃ a ∈ as, R a b :=
  (Forall₂.flip (R := fun b a => R a b) h).exists_right hb

theorem Forall₂.any_eq (h : Forall₂ R as bs) {p : α → Bool} {q : β → Bool}
    (hpq : ∀ a b, R a b → p a = q b) : as.any p = bs.any q := by
  induction h with
  | nil => rfl
  | cons hab _ ih => rw [any_cons, any_cons, hpq _ _ hab, ih]

theorem Forall₂.all_eq (h : Forall₂ R as bs) {p : α → Bool} {q : β → Bool}
    (hpq : ∀ a b, R a b → p a = q b) : as.all p = bs.all q := by
  induction h with
  | nil => rfl
  | cons hab _ ih => rw [all_cons, all_cons, hpq _ _ hab, ih]

theorem Forall₂.filterMap_eq (h : Forall₂ R as bs) {f : α → Option γ} {g : β → Option γ}
    (hfg : ∀ a b, R a b → f a = g b) : as.filterMap f = bs.filterMap g := by
  induction h with
  | nil => rfl
  | cons hab _ ih => rw [filterMap_cons, filterMap_cons, hfg _ _ hab, ih]

variable {f : κ → Option α} {g : κ → Option β}

theorem rel_mapM (h : ∀ k, Option.Rel R (f k) (g k)) (ks : List κ) :
    Option.Rel (Forall₂ R) (ks.mapM f) (ks.mapM g) := by
  induction ks with
  | nil => exact .some .nil
  | cons k ks ih =>
    rw [mapM_cons, mapM_cons]
    exact (h k).bind fun a b hab => ih.bind fun as bs has => .some (.cons hab has)

theorem rel_findSome? (h : ∀ k, Option.Rel R (f k) (g k)) (ks : List κ) :
    Option.Rel R (ks.findSome? f) (ks.findSome? g) := by
  induction ks with
  | nil => exact .none
  | cons k ks ih =>
    have hk := h k
    rw [findSome?_cons, findSome?_cons]
    generalize f k = x at hk ⊢
    generalize g k = y at hk ⊢
    cases hk with
    | none => exact ih
    | some hab => exact .some hab

/-- What comes of steps one after the other is the same, up to a relation, in whatever order they
    are taken, if the order of two steps does not matter. -/
theorem Perm.foldl_of_swap {R : β → β → Prop} (hrefl : ∀ m, R m m)
    (htrans : ∀ l m n, R l m → R m n → R l n) {f : β → α → β}
    (hstep : ∀ m n a, R m n → R (f m a) (f n a)) (hswap : ∀ m a b, R (f (f m a) b) (f (f m b) a))
    {as bs : List α} (h : as.Perm bs) {m n : β} (hmn : R m n) :
    R (as.foldl f m) (bs.foldl f n) := by
  have hfold : ∀ (as : List α) (m n : β), R m n → R (as.foldl f m) (as.foldl f n) := by
    intro as
    induction as with
    | nil => exact fun _ _ hmn => hmn
    | cons a as ih => exact fun m n hmn => ih _ _ (hstep m n a hmn)
  induction h generalizing m n with
  | nil => exact hmn
  | cons a _ ih => exact ih (hstep m n a hmn)
  | swap a b as =>
    exact hfold as _ _ (htrans _ _ _ (hswap m b a) (hstep _ _ b (hstep m n a hmn)))
  | trans _ _ ih ih' => exact htrans _ _ _ (ih hmn) (ih' (hrefl n))

end List

namespace Authorization.SortedMap

variable {κ α β γ δ : Type} [Ord κ] [Std.TransOrd κ] [Std.LawfulEqOrd κ] {R : α → β → Prop}
  {S : γ → δ → Prop} {m : SortedMap κ α} {n : SortedMap κ β} {k : κ}

/-! ### Maps -/

/-- Look-ups in both maps find values that are related, or nothing in either. -/
def Agree (R : α → β → Prop) (m : SortedMap κ α) (n : SortedMap κ β) : Prop :=
  ∀ k, Option.Rel R (m.get? k) (n.get? k)

namespace Agree

omit [Std.TransOrd κ] [Std.LawfulEqOrd κ] in
theorem empty : Agree R (∅ : SortedMap κ α) (∅ : SortedMap κ β) := fun _ => .none

omit [Std.TransOrd κ] [Std.LawfulEqOrd κ] in
theorem refl {R : α → α → Prop} (hrefl : ∀ a, R a a) (m : SortedMap κ α) : Agree R m m :=
  fun k => .refl hrefl (m.get? k)

omit [Std.TransOrd κ] [Std.LawfulEqOrd κ] in
theorem trans {R : α → α → Prop} (htrans : ∀ a b c, R a b → R b c → R a c)
    {l m n : SortedMap κ α} (h : Agree R l m) (h' : Agree R m n) : Agree R l n :=
  fun k => (h k).trans htrans (h' k)

omit [Std.TransOrd κ] [Std.LawfulEqOrd κ] in
theorem contains_eq (h : Agree R m n) (k : κ) : m.contains k = n.contains k := (h k).isSome_eq

theorem mapValues (h : Agree R m n) {f : κ → α → γ} {g : κ → β → δ}
    (hfg : ∀ k a b, R a b → S (f k a) (g k b)) : Agree S (m.mapValues f) (n.mapValues g) := by
  intro k
  rw [get?_mapValues, get?_mapValues]
  exact (h k).map (hfg k)

/-- What is made of values that are related is the same map if it is the same for each. -/
theorem mapValues_eq (h : Agree R m n) {f : κ → α → γ} {g : κ → β → γ}
    (hfg : ∀ k a b, R a b → f k a = g k b) : m.mapValues f = n.mapValues g := by
  refine ext fun k => ?_
  rw [get?_mapValues, get?_mapValues]
  exact (h k).map_eq (hfg k)

theorem filter (h : Agree R m n) {p : κ → α → Bool} {q : κ → β → Bool}
    (hpq : ∀ k a b, R a b → p k a = q k b) : Agree R (m.filter p) (n.filter q) := by
  intro k
  rw [get?_filter, get?_filter]
  exact (h k).filter (hpq k)

variable [DecidableEq κ]

theorem update (h : Agree R m n) (k : κ) {f : Option α → α} {g : Option β → β}
    (hfg : ∀ x y, Option.Rel R x y → R (f x) (g y)) : Agree R (m.update k f) (n.update k g) := by
  intro k'
  rw [get?_update, get?_update]
  split
  · exact .some (hfg _ _ (h k))
  · exact h k'

/-- Where the order of two updates does not matter for one key, it does not matter at all. -/
theorem update_swap {R : α → α → Prop} (hrefl : ∀ a, R a a) {m : SortedMap κ α} {k k' : κ}
    {f g : Option α → α} (h : k = k' → ∀ x, R (g (some (f x))) (f (some (g x)))) :
    Agree R ((m.update k f).update k' g) ((m.update k' g).update k f) := by
  intro j
  by_cases hk : k = k'
  · cases hk
    rw [get?_update, get?_update, get?_update, get?_update, get?_update, get?_update, if_pos rfl,
      if_pos rfl]
    split
    · exact .some (h rfl _)
    · exact .refl hrefl _
  · -- Either update leaves what is found under the other key.
    have hsame : ((m.update k f).update k' g).get? j = ((m.update k' g).update k f).get? j := by
      rw [get?_update, get?_update, get?_update, get?_update, get?_update, get?_update,
        if_neg (Ne.symm hk), if_neg hk]
      split
      · rename_i hj
        rw [if_neg (hj ▸ Ne.symm hk)]
      · rfl
    rw [hsame]
    exact .refl hrefl _

/-- Entries with the same keys and related values, put in one after the other. -/
theorem insertAll (h : Agree R m n) {es : List (κ × α)} {fs : List (κ × β)}
    (hes : es.Forall₂ (fun e f => e.1 = f.1 ∧ R e.2 f.2) fs) :
    Agree R (m.insertAll es) (n.insertAll fs) := by
  induction hes generalizing m n with
  | nil => exact h
  | @cons e f _ _ hef _ ih =>
    refine ih (m := m.insert e.1 e.2) (n := n.insert f.1 f.2) ?_
    rw [← hef.1]
    exact h.update e.1 fun _ _ _ => hef.2

/-- For each of some things, an entry with the same key and related values, or none. -/
theorem insertAll_filterMap (h : Agree R m n) {ι : Type} {f : ι → Option (κ × α)}
    {g : ι → Option (κ × β)}
    (hfg : ∀ i, Option.Rel (fun e e' => e.1 = e'.1 ∧ R e.2 e'.2) (f i) (g i)) (is : List ι) :
    Agree R (m.insertAll (is.filterMap f)) (n.insertAll (is.filterMap g)) :=
  h.insertAll (List.rel_filterMap (fun i _ hi => hi ▸ hfg i) (List.forall₂_same.2 fun _ _ => rfl))

end Agree

end Authorization.SortedMap
