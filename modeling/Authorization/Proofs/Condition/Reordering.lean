import Authorization.Proofs.Condition.Merging

/-!
# What is made of conditions alike

What is made of conditions that are alike is alike, whatever order they come in:
joined (`AlikeParts.all`, `AlikeParts.any`), taken apart
(`AlikeParts.flatMap`, `AlikeParts.filter`), or without repetitions
(`AlikeParts.distinct`). The union of conditions of a kind that can be merged is
the same in any order (`union_perm`).

Which of several conditions with one id is kept depends on the order, but not
which ids are kept, and conditions with one id are alike.
-/

namespace Authorization.Condition

variable {c d e : Condition} {as bs cs ds : List Condition} {k : Check}

theorem Alike.trans (h : Alike c d) (h' : Alike d e) : Alike c e := by
  cases h with
  | refl => exact h'
  | allOf h =>
    cases h' with
    | refl => exact .allOf h
    | allOf h' => exact .allOf (.trans h h')
  | anyOf h =>
    cases h' with
    | refl => exact .anyOf h
    | anyOf h' => exact .anyOf (.trans h h')

theorem Alike.kind_eq (h : Alike c d) : c.kind = d.kind := by cases h <;> rfl

theorem Alike.parts_of_allOf (h : Alike (.allOf as) (.allOf bs)) : AlikeParts as bs := by
  cases h with
  | refl => exact .refl as
  | allOf h => exact h

/-- A condition of a kind that can be merged is alike to no other. -/
theorem Alike.eq_of_mergeable (h : Alike c d) (hc : c.kind.mergeable = true) : c = d := by
  cases h with
  | refl => rfl
  | allOf => cases hc
  | anyOf => cases hc

theorem Alike.alternatives (h : Alike c d) : AlikeParts c.alternatives d.alternatives := by
  cases h with
  | refl => exact .refl _
  | allOf h => exact .cons (.allOf h) .nil
  | anyOf h => exact h

mutual

/-- Conditions that are alike pass the same checks. -/
theorem Alike.passes_eq : ∀ {c d : Condition}, Alike c d → c.passes k = d.passes k
  | _, _, .refl _ => rfl
  | _, _, .allOf h => by rw [passes, passes, h.allPass_eq]
  | _, _, .anyOf h => by rw [passes, passes, h.allPass_eq]

theorem AlikeParts.allPass_eq : ∀ {as bs : List Condition}, AlikeParts as bs →
    allPass k as = allPass k bs
  | _, _, .nil => rfl
  | _, _, .cons h hs => by rw [allPass, allPass, h.passes_eq, hs.allPass_eq]
  | _, _, .swap _ _ _ => by rw [allPass, allPass, allPass, allPass, Bool.and_left_comm]
  | _, _, .trans h h' => h.allPass_eq.trans h'.allPass_eq

end

theorem AlikeParts.passes (h : AlikeParts as bs) (has : ∀ a ∈ as, a.passes k = true) :
    ∀ b ∈ bs, b.passes k = true := by
  have hall := h.allPass_eq (k := k)
  rw [allPass_eq_all, allPass_eq_all, List.all_eq_true.2 has] at hall
  exact List.all_eq_true.1 hall.symm

/-! ### Lists -/

theorem all_eq_allOf (h : cs.length ≠ 1) : all cs = .allOf cs := by
  unfold all
  split
  · exact absurd rfl h
  · rfl

theorem any_of_singleton (h : cs.flatMap alternatives = [c]) : any cs = c := by rw [any, h]

theorem any_eq_anyOf (h : (cs.flatMap alternatives).length ≠ 1) :
    any cs = .anyOf (cs.flatMap alternatives) := by
  unfold any
  split
  · rename_i c hc
    rw [hc] at h
    exact absurd rfl h
  · rfl

namespace AlikeParts

theorem length_eq (h : AlikeParts as bs) : as.length = bs.length := by
  have hlength := h.ids_perm.length_eq
  rwa [List.length_map, List.length_map] at hlength

theorem singleton_left {a : Condition} :
    ∀ {as bs : List Condition}, AlikeParts as bs → as = [a] → ∃ b, bs = [b] ∧ Alike a b
  | _, _, .nil, h => nomatch h
  | _, _, .cons (b := b) hab hs, h => by
    cases h
    exact ⟨b, congrArg (b :: ·) (List.length_eq_zero_iff.1 hs.length_eq.symm), hab⟩
  | _, _, .swap _ _ _, h => nomatch h
  | _, _, .trans hs hs', h => by
    obtain ⟨b, hb, hab⟩ := hs.singleton_left h
    obtain ⟨c, hc, hbc⟩ := hs'.singleton_left hb
    exact ⟨c, hc, hab.trans hbc⟩

theorem append_left (as : List Condition) (h : AlikeParts cs ds) :
    AlikeParts (as ++ cs) (as ++ ds) := by
  induction as with
  | nil => exact h
  | cons a _ ih => exact .cons (.refl a) ih

theorem append : ∀ {as bs : List Condition}, AlikeParts as bs → ∀ {cs ds : List Condition},
    AlikeParts cs ds → AlikeParts (as ++ cs) (bs ++ ds)
  | _, _, .nil, _, _, h' => h'
  | _, _, .cons h hs, _, _, h' => .cons h (hs.append h')
  | _, _, .swap a b as, _, _, h' => .trans (.swap a b _) (h'.append_left (a :: b :: as))
  | _, _, .trans hs hs', cs, _, h' => .trans (hs.append (.refl cs)) (hs'.append h')

theorem flatMap {f : Condition → List Condition} (hf : ∀ a b, Alike a b → AlikeParts (f a) (f b)) :
    ∀ {as bs : List Condition}, AlikeParts as bs → AlikeParts (as.flatMap f) (bs.flatMap f)
  | _, _, .nil => .nil
  | _, _, .cons h hs => by
    rw [List.flatMap_cons, List.flatMap_cons]
    exact (hf _ _ h).append (hs.flatMap hf)
  | _, _, .swap a b as => .of_perm ((List.Perm.swap a b as).flatMap_right f)
  | _, _, .trans hs hs' => .trans (hs.flatMap hf) (hs'.flatMap hf)

theorem filter {p : Condition → Bool} (hp : ∀ a b, Alike a b → p a = p b) :
    ∀ {as bs : List Condition}, AlikeParts as bs → AlikeParts (as.filter p) (bs.filter p)
  | _, _, .nil => .nil
  | _, _, .cons h hs => by
    rw [List.filter_cons, List.filter_cons, hp _ _ h]
    split
    · exact .cons h (hs.filter hp)
    · exact hs.filter hp
  | _, _, .swap a b as => .of_perm ((List.Perm.swap a b as).filter p)
  | _, _, .trans hs hs' => .trans (hs.filter hp) (hs'.filter hp)

/-- What is read off conditions, the same off those that are alike, is the same in another
    order. -/
theorem filterMap_perm {β : Type} {f : Condition → Option β} (hf : ∀ a b, Alike a b → f a = f b) :
    ∀ {as bs : List Condition}, AlikeParts as bs → (as.filterMap f).Perm (bs.filterMap f)
  | _, _, .nil => .nil
  | _, _, .cons h hs => by
    rw [List.filterMap_cons, List.filterMap_cons, hf _ _ h]
    split
    · exact hs.filterMap_perm hf
    · exact (hs.filterMap_perm hf).cons _
  | _, _, .swap a b as => (List.Perm.swap a b as).filterMap f
  | _, _, .trans hs hs' => (hs.filterMap_perm hf).trans (hs'.filterMap_perm hf)

theorem map_perm {β : Type} {f : Condition → β} (hf : ∀ a b, Alike a b → f a = f b)
    (h : AlikeParts as bs) : (as.map f).Perm (bs.map f) := by
  rw [← List.filterMap_eq_map]
  exact h.filterMap_perm fun a b hab => congrArg some (hf a b hab)

/-- There is one of a kind among both or neither. -/
theorem any_kind_eq (h : AlikeParts as bs) (kind : Kind) :
    as.any (·.kind == kind) = bs.any (·.kind == kind) := by
  have hkinds := h.map_perm fun _ _ => Alike.kind_eq
  have hany : (as.map Condition.kind).any (· == kind) = (bs.map Condition.kind).any (· == kind) :=
    hkinds.any_eq
  rwa [List.any_map, List.any_map] at hany

/-- Those of a kind that can be merged are the same, in another order. -/
theorem filter_kind_perm {kind : Kind} (hkind : kind.mergeable = true) (h : AlikeParts as bs) :
    (as.filter (·.kind == kind)).Perm (bs.filter (·.kind == kind)) := by
  rw [← List.filterMap_eq_filter]
  refine h.filterMap_perm fun a b hab => ?_
  rw [Option.guard, Option.guard, hab.kind_eq]
  split
  · rename_i hb
    rw [hab.eq_of_mergeable (by rwa [hab.kind_eq, beq_iff_eq.1 hb])]
  · rfl

/-! ### Joining -/

/-- Joined by *all of*, conditions that are alike are alike. -/
theorem all (h : AlikeParts as bs) : Alike (Condition.all as) (Condition.all bs) := by
  by_cases hone : as.length = 1
  · obtain ⟨a, rfl⟩ := List.length_eq_one_iff.1 hone
    obtain ⟨b, rfl, hab⟩ := h.singleton_left rfl
    exact hab
  · rw [all_eq_allOf hone, all_eq_allOf (h.length_eq ▸ hone)]
    exact .allOf h

/-- Joined by *any of*, conditions that are alike are alike. -/
theorem any (h : AlikeParts as bs) : Alike (Condition.any as) (Condition.any bs) := by
  have hflat : AlikeParts (as.flatMap alternatives) (bs.flatMap alternatives) :=
    h.flatMap fun _ _ => Alike.alternatives
  by_cases hone : (as.flatMap alternatives).length = 1
  · obtain ⟨a, ha⟩ := List.length_eq_one_iff.1 hone
    obtain ⟨b, hb, hab⟩ := hflat.singleton_left ha
    rw [any_of_singleton ha, any_of_singleton hb]
    exact hab
  · rw [any_eq_anyOf hone, any_eq_anyOf (hflat.length_eq ▸ hone)]
    exact .anyOf hflat

/-- Conditions joined by *all of* were alike before, if there were no such joinings among them. -/
theorem of_all (has : as ≠ []) (hbs : bs ≠ []) (hkind : ∀ a ∈ as, a.kind ≠ .allOf)
    (hkind' : ∀ b ∈ bs, b.kind ≠ .allOf) (h : Alike (Condition.all as) (Condition.all bs)) :
    AlikeParts as bs := by
  by_cases hone : as.length = 1
  · obtain ⟨a, rfl⟩ := List.length_eq_one_iff.1 hone
    by_cases hone' : bs.length = 1
    · obtain ⟨b, rfl⟩ := List.length_eq_one_iff.1 hone'
      exact .cons h .nil
    · rw [all_eq_allOf hone'] at h
      exact absurd h.kind_eq (hkind a List.mem_cons_self)
  · rw [all_eq_allOf hone] at h
    by_cases hone' : bs.length = 1
    · obtain ⟨b, rfl⟩ := List.length_eq_one_iff.1 hone'
      exact absurd h.kind_eq.symm (hkind' b List.mem_cons_self)
    · rw [all_eq_allOf hone'] at h
      exact h.parts_of_allOf

/-! ### Dropping repetitions -/

/-- Without repetitions, conditions that are alike are alike: what is kept of those with one id
    is alike whichever comes first. -/
theorem distinct (has : ∀ a ∈ as, a.passes .delimited = true)
    (hbs : ∀ b ∈ bs, b.passes .delimited = true) (h : AlikeParts as bs) :
    AlikeParts (Condition.distinct as) (Condition.distinct bs) := by
  rw [distinct_eq_firstsAfter, distinct_eq_firstsAfter]
  refine .of_map_perm (fun a ha b hb => ?_) (keys_firstsAfter_perm h.ids_perm)
  exact alike_of_id_eq (has a (mem_of_mem_firstsAfter ha)) (hbs b (mem_of_mem_firstsAfter hb))

end AlikeParts

/-! ### Uniting -/

variable {kind : Kind}

theorem commonKind?_eq_some_iff :
    commonKind? cs = some kind ↔ cs ≠ [] ∧ ∀ c ∈ cs, c.kind = kind := by
  refine ⟨fun h => ⟨commonKind?_eq_some_cons h, kind_eq_of_commonKind? h⟩, fun ⟨hne, hcs⟩ => ?_⟩
  obtain ⟨c, cs, rfl⟩ := List.exists_cons_of_ne_nil hne
  have hc := hcs c List.mem_cons_self
  have hall : cs.all (·.kind == c.kind) = true :=
    List.all_eq_true.2 fun d hd => beq_iff_eq.2 (by rw [hcs d (List.mem_cons_of_mem _ hd), hc])
  rw [commonKind?, if_pos hall, hc]

theorem commonKind?_perm (h : as.Perm bs) : commonKind? as = commonKind? bs := by
  refine Option.ext fun kind => ?_
  rw [commonKind?_eq_some_iff, commonKind?_eq_some_iff, ← List.length_pos_iff,
    ← List.length_pos_iff, h.length_eq]
  exact and_congr_right fun _ => ⟨fun hall c hc => hall c (h.mem_iff.2 hc),
    fun hall c hc => hall c (h.mem_iff.1 hc)⟩

theorem unionNames_perm {sets sets' : List NameSet} (h : sets.Perm sets') :
    unionNames sets = unionNames sets' := by
  refine SortedSet.ext fun n => ?_
  rw [mem_unionNames, mem_unionNames]
  exact exists_congr fun _ => and_congr_left fun _ => h.mem_iff

theorem unionRoles_swap (m m' : Option NameSet) (ms : List (Option NameSet)) :
    unionRoles (m :: m' :: ms) = unionRoles (m' :: m :: ms) := by
  cases m with
  | none =>
    cases m' with
    | none => rfl
    | some names => rfl
  | some names =>
    cases m' with
    | none => rfl
    | some names' =>
      rw [unionRoles, unionRoles, unionRoles, unionRoles, Option.map_map, Option.map_map]
      refine congrArg (Option.map · _) (funext fun set => SortedSet.ext fun n => ?_)
      rw [Function.comp_apply, Function.comp_apply, SortedSet.mem_union, SortedSet.mem_union,
        SortedSet.mem_union, SortedSet.mem_union]
      exact or_left_comm

theorem unionRoles_perm {ms ms' : List (Option NameSet)} (h : ms.Perm ms') :
    unionRoles ms = unionRoles ms' := by
  induction h with
  | nil => rfl
  | cons m _ ih =>
    cases m with
    | none => rfl
    | some names => rw [unionRoles, unionRoles, ih]
  | swap m m' ms => exact unionRoles_swap m' m ms
  | trans _ _ ih ih' => exact ih.trans ih'

theorem unionOfKind?_perm (h : as.Perm bs) : unionOfKind? as = unionOfKind? bs := by
  rw [unionOfKind?, unionOfKind?, commonKind?_perm h, unionNames_perm (h.filterMap _),
    unionNames_perm (h.filterMap _), unionRoles_perm (h.filterMap _)]

theorem exists_unionOfKind? (hkind : kind.mergeable = true) (hne : cs ≠ [])
    (hcs : ∀ c ∈ cs, c.kind = kind) : ∃ d, unionOfKind? cs = some d ∧ d.kind = kind := by
  rw [unionOfKind?, commonKind?_eq_some_iff.2 ⟨hne, hcs⟩]
  cases kind with
  | role => exact ⟨_, rfl, rfl⟩
  | variant => exact ⟨_, rfl, rfl⟩
  | member => exact ⟨_, rfl, rfl⟩
  | _ => cases hkind

/-- The union of conditions of a kind that can be merged is of that kind. -/
theorem kind_union (hkind : kind.mergeable = true) (hne : cs ≠ [])
    (hcs : ∀ c ∈ cs, c.kind = kind) : (union cs).kind = kind := by
  obtain ⟨d, hd, hkind⟩ := exists_unionOfKind? hkind hne hcs
  rwa [union, hd]

/-- The union of conditions of a kind that can be merged is the same in any order. -/
theorem union_perm (hkind : kind.mergeable = true) (hne : as ≠ []) (has : ∀ a ∈ as, a.kind = kind)
    (h : as.Perm bs) : union as = union bs := by
  obtain ⟨d, hd, _⟩ := exists_unionOfKind? hkind hne has
  rw [union, union, ← unionOfKind?_perm h, hd, Option.getD_some, Option.getD_some]

end Authorization.Condition
