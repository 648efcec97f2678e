import Authorization.Sorted.Map

/-!
# Entries of maps

A value in a map is one that a look-up finds. Entries put into a map one after
the other are found by their keys: of several with one key the last stands, and
what was there under other keys is still there.
-/

namespace Authorization.SortedMap

variable {κ α : Type} [Ord κ] [Std.TransOrd κ] [Std.LawfulEqOrd κ] {m : SortedMap κ α}

theorem mem_values_of_get? {k : κ} {a : α} (h : m.get? k = some a) : a ∈ m.values :=
  List.mem_map.2 ⟨(k, a), get?_eq_some_iff.1 h, rfl⟩

theorem exists_get?_of_mem_values {a : α} (h : a ∈ m.values) : ∃ k, m.get? k = some a := by
  obtain ⟨⟨k, b⟩, hmem, rfl⟩ := List.mem_map.1 h
  exact ⟨k, get?_eq_some_iff.2 hmem⟩

/-- All values of a map have a property just where all that look-ups find has it. -/
theorem all_values_iff {p : α → Bool} :
    m.values.all p = true ↔ ∀ k a, m.get? k = some a → p a = true := by
  rw [List.all_eq_true]
  constructor
  · exact fun h k a ha => h a (mem_values_of_get? ha)
  · intro h a ha
    obtain ⟨k, hk⟩ := exists_get?_of_mem_values ha
    exact h k a hk

/-! ### Values replaced -/

variable {β γ : Type}

theorem contains_mapValues {f : κ → α → β} {k : κ} :
    (m.mapValues f).contains k = m.contains k := by
  rw [contains, contains, get?_mapValues, Option.isSome_map]

/-- Replacing values twice is replacing them once. -/
theorem mapValues_mapValues (m : SortedMap κ α) (f : κ → α → β) (h : κ → β → γ) :
    (m.mapValues f).mapValues h = m.mapValues fun k a => h k (f k a) := by
  refine ext fun k => ?_
  rw [get?_mapValues, get?_mapValues, get?_mapValues, Option.map_map]
  rfl

/-! ### Entries put in one after the other -/

variable [DecidableEq κ] {k : κ} {a : α}

/-- The map with entries put in one after the other. -/
def insertAll (m : SortedMap κ α) (es : List (κ × α)) : SortedMap κ α :=
  es.foldl (fun m e => m.insert e.1 e.2) m

/-- What is found was put in, or there before. -/
theorem mem_of_get?_insertAll {es : List (κ × α)} (h : (m.insertAll es).get? k = some a) :
    (k, a) ∈ es ∨ m.get? k = some a := by
  induction es generalizing m with
  | nil => exact .inr h
  | cons e es ih =>
    rcases ih h with hmem | hfound
    · exact .inl (List.mem_cons_of_mem _ hmem)
    · rw [get?_insert] at hfound
      split at hfound
      · rename_i hk
        rw [hk, ← Option.some.inj hfound]
        exact .inl List.mem_cons_self
      · exact .inr hfound

/-- Where nothing is put in, what was there before is found. -/
theorem get?_insertAll_of_forall_ne {es : List (κ × α)} (h : ∀ e ∈ es, e.1 ≠ k) :
    (m.insertAll es).get? k = m.get? k := by
  induction es generalizing m with
  | nil => rfl
  | cons e es ih =>
    refine (ih fun f hf => h f (List.mem_cons_of_mem _ hf)).trans ?_
    rw [get?_insert, if_neg (h e List.mem_cons_self).symm]

/-- A key is there where something is put in under it, or was there before. -/
theorem contains_insertAll {es : List (κ × α)} :
    (m.insertAll es).contains k = true ↔ (∃ a, (k, a) ∈ es) ∨ m.contains k = true := by
  induction es generalizing m with
  | nil =>
    constructor
    · exact .inr
    · rintro (⟨_, h⟩ | h)
      · exact absurd h List.not_mem_nil
      · exact h
  | cons e es ih =>
    have hinsert : (m.insert e.1 e.2).contains k = true ↔ k = e.1 ∨ m.contains k = true := by
      rw [contains, contains, get?_insert]
      split
      · rename_i hk
        simp [hk]
      · rename_i hk
        simp [hk]
    refine ih.trans ?_
    rw [hinsert]
    constructor
    · rintro (⟨a, ha⟩ | rfl | h)
      · exact .inl ⟨a, List.mem_cons_of_mem _ ha⟩
      · exact .inl ⟨e.2, List.mem_cons_self⟩
      · exact .inr h
    · rintro (⟨a, ha⟩ | h)
      · rcases List.mem_cons.1 ha with rfl | ha
        · exact .inr (.inl rfl)
        · exact .inl ⟨a, ha⟩
      · exact .inr (.inr h)

/-- Where one value alone is put in, it is found. -/
theorem get?_insertAll_of_mem {es : List (κ × α)} (hmem : (k, a) ∈ es)
    (h : ∀ b, (k, b) ∈ es → b = a) : (m.insertAll es).get? k = some a := by
  induction es generalizing m with
  | nil => exact absurd hmem List.not_mem_nil
  | cons e es ih =>
    by_cases hlater : ∃ b, (k, b) ∈ es
    · -- The entry is put in again later on.
      obtain ⟨b, hb⟩ := hlater
      have hbs : ∀ b, (k, b) ∈ es → b = a := fun b hb => h b (List.mem_cons_of_mem _ hb)
      exact ih (hbs b hb ▸ hb) hbs
    · have hrest : ∀ f ∈ es, f.1 ≠ k := fun f hf hk => hlater ⟨f.2, hk ▸ hf⟩
      refine (get?_insertAll_of_forall_ne hrest).trans ?_
      rcases List.mem_cons.1 hmem with rfl | hmem
      · rw [get?_insert, if_pos rfl]
      · exact absurd ⟨a, hmem⟩ hlater

end Authorization.SortedMap
