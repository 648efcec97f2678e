import Authorization.Condition.Identity
import Authorization.Proofs.Condition.Truth

/-!
# Conditions alike

Two conditions are *alike* if one becomes the other by putting the parts of *all
of* and *any of* in another order, at any depth. Alike conditions have one id
(`Alike.id_eq`), are of one kind and mean the same (`Alike.sameMeaning`).
-/

namespace Authorization.Condition

mutual

/-- One condition becomes the other by putting parts in another order. -/
inductive Alike : Condition → Condition → Prop
  | refl (c : Condition) : Alike c c
  | allOf {as bs : List Condition} : AlikeParts as bs → Alike (.allOf as) (.allOf bs)
  | anyOf {as bs : List Condition} : AlikeParts as bs → Alike (.anyOf as) (.anyOf bs)

/-- One list becomes the other by putting its elements, and parts of them, in another order. -/
inductive AlikeParts : List Condition → List Condition → Prop
  | nil : AlikeParts [] []
  | cons {a b : Condition} {as bs : List Condition} :
    Alike a b → AlikeParts as bs → AlikeParts (a :: as) (b :: bs)
  | swap (a b : Condition) (as : List Condition) : AlikeParts (b :: a :: as) (a :: b :: as)
  | trans {as bs cs : List Condition} : AlikeParts as bs → AlikeParts bs cs → AlikeParts as cs

end

theorem AlikeParts.refl (cs : List Condition) : AlikeParts cs cs := by
  induction cs with
  | nil => exact .nil
  | cons c _ ih => exact .cons (.refl c) ih

theorem AlikeParts.of_perm {as bs : List Condition} (h : as.Perm bs) : AlikeParts as bs := by
  induction h with
  | nil => exact .nil
  | cons a _ ih => exact .cons (.refl a) ih
  | swap a b as => exact .swap a b as
  | trans _ _ ih ih' => exact .trans ih ih'

/-- What comes of things by key is alike, whatever order the things come in, if things with one
    key come to conditions that are alike. -/
theorem AlikeParts.of_keys {α : Type} {key : α → String} {f g : α → Condition} {as bs : List α}
    (hfg : ∀ a ∈ as, ∀ b ∈ bs, key a = key b → Alike (f a) (g b))
    (h : (as.map key).Perm (bs.map key)) : AlikeParts (as.map f) (bs.map g) := by
  induction as generalizing bs with
  | nil =>
    rw [List.map_nil, List.nil_perm, List.map_eq_nil_iff] at h
    rw [h]
    exact .nil
  | cons a as ih =>
    -- Something with the key of the first one stands somewhere in the second list.
    have hmem : key a ∈ bs.map key := h.mem_iff.1 (by simp)
    obtain ⟨b, hb, hab⟩ := List.mem_map.1 hmem
    obtain ⟨front, back, rfl⟩ := List.append_of_mem hb
    -- It is put first, and the others follow by induction.
    have hperm : (front ++ b :: back).Perm (b :: (front ++ back)) := List.perm_middle
    have htail : (as.map key).Perm ((front ++ back).map key) := by
      have := h.trans (hperm.map key)
      rw [List.map_cons, List.map_cons, hab] at this
      exact this.cons_inv
    have hrest := ih (fun x hx y hy => hfg x (List.mem_cons_of_mem _ hx) y
      (hperm.mem_iff.2 (List.mem_cons_of_mem _ hy))) htail
    exact .trans (.cons (hfg a List.mem_cons_self b hb hab.symm) hrest)
      (.of_perm (hperm.symm.map g))

/-- Lists of conditions that are alike one by one, whatever order the second comes in. -/
theorem AlikeParts.of_map_perm {f : Condition → String} {as bs : List Condition}
    (hf : ∀ a ∈ as, ∀ b ∈ bs, f a = f b → Alike a b) (h : (as.map f).Perm (bs.map f)) :
    AlikeParts as bs := by
  rw [← List.map_id as, ← List.map_id bs]
  exact .of_keys hf h

mutual

/-- Alike conditions have one id. -/
theorem Alike.id_eq : ∀ {c d : Condition}, Alike c d → c.id = d.id
  | _, _, .refl _ => rfl
  | _, _, .allOf h => by rw [id, id, ids_eq_map, ids_eq_map, sort_eq_of_perm h.ids_perm]
  | _, _, .anyOf h => by rw [id, id, ids_eq_map, ids_eq_map, sort_eq_of_perm h.ids_perm]

/-- Lists of alike conditions have the same ids, but for their order. -/
theorem AlikeParts.ids_perm : ∀ {as bs : List Condition}, AlikeParts as bs →
    (as.map id).Perm (bs.map id)
  | _, _, .nil => .nil
  | _, _, .cons h hs => by
    rw [List.map_cons, List.map_cons, h.id_eq]
    exact hs.ids_perm.cons _
  | _, _, .swap _ _ _ => .swap _ _ _
  | _, _, .trans h h' => h.ids_perm.trans h'.ids_perm

end

mutual

/-- Alike conditions mean the same. -/
theorem Alike.sameMeaning : ∀ {c d : Condition}, Alike c d → SameMeaning c d
  | _, _, .refl c => .refl c
  | _, _, .allOf h => fun s r => by rw [holdsOn_allOf, holdsOn_allOf, h.all_eq]
  | _, _, .anyOf h => fun s r => by rw [holdsOn_anyOf, holdsOn_anyOf, h.any_eq]

theorem AlikeParts.all_eq : ∀ {as bs : List Condition}, AlikeParts as bs → ∀ {s r},
    as.all (holdsOn s r) = bs.all (holdsOn s r)
  | _, _, .nil, _, _ => rfl
  | _, _, .cons h hs, s, r => by rw [List.all_cons, List.all_cons, h.sameMeaning s r, hs.all_eq]
  | _, _, .swap _ _ _, _, _ => by
    rw [List.all_cons, List.all_cons, List.all_cons, List.all_cons, Bool.and_left_comm]
  | _, _, .trans h h', _, _ => h.all_eq.trans h'.all_eq

theorem AlikeParts.any_eq : ∀ {as bs : List Condition}, AlikeParts as bs → ∀ {s r},
    as.any (holdsOn s r) = bs.any (holdsOn s r)
  | _, _, .nil, _, _ => rfl
  | _, _, .cons h hs, s, r => by rw [List.any_cons, List.any_cons, h.sameMeaning s r, hs.any_eq]
  | _, _, .swap _ _ _, _, _ => by
    rw [List.any_cons, List.any_cons, List.any_cons, List.any_cons, Bool.or_left_comm]
  | _, _, .trans h h', _, _ => h.any_eq.trans h'.any_eq

end

end Authorization.Condition
