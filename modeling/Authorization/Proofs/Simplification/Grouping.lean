import Authorization.Proofs.Simplification.Tidy

/-!
# Factoring alternatives in another order

Alternatives that share a rest are merged at the place of the first of them, with
its rest. In another order it is another one that comes first, but as much is
merged: what alternatives come to are those that share no rest, and for each rest
that is shared, what is merged from it (`Factored.mergeFrom_perm`).

What others see of an alternative is the key of its rest, and its factor
(`Factored.face`). Tidy alternatives that are alike show the same, so the same are
merged, and come to what is alike (`Factored.alike_mergeFrom`).
-/

namespace Authorization

open Condition

namespace Factored

variable {found found' : List Factored} {f g : Factored} {kind : Kind} {c d : Condition}
  {as bs cs : List Condition}

/-- The alternatives taken apart, as far as they can be. -/
abbrev takenApart (kind : Kind) (cs : List Condition) : List Factored :=
  cs.filterMap (ofAlternative? kind)

/-! ### What others see -/

/-- What others see of an alternative: the key of its rest, and its factor. -/
def face (f : Factored) : String × Condition := (f.key, f.factor)

/-- Whether several of the alternatives seen have the key. -/
def isCommon (faces : List (String × Condition)) (key : String) : Bool :=
  1 < faces.countP (·.1 == key)

theorem isShared_eq (found : List Factored) (f : Factored) :
    f.isShared found = isCommon (found.map face) f.key := by
  rw [isShared, isCommon, List.countP_map, List.countP_eq_length_filter]
  rfl

theorem factors_eq (found : List Factored) (key : String) :
    (found.filter (·.key == key)).map factor =
      ((found.map face).filter (·.1 == key)).map Prod.snd := by
  rw [List.filter_map, List.map_map]
  rfl

theorem isCommon_perm {faces faces' : List (String × Condition)} (h : faces.Perm faces')
    (key : String) : isCommon faces key = isCommon faces' key := by
  rw [isCommon, isCommon, h.countP_eq]

theorem key_eq_of_alike_rest (h : AlikeParts f.rest g.rest) : f.key = g.key := by
  have hnil : f.rest = [] ↔ g.rest = [] := by
    rw [← List.length_eq_zero_iff, ← List.length_eq_zero_iff, h.length_eq]
  rw [key_eq, key_eq, h.all.id_eq, if_congr hnil rfl rfl]

theorem ofAlternative?_allOf (hkind : kind.mergeable = true) (parts : List Condition) :
    ofAlternative? kind (.allOf parts) = match parts.filter (·.kind == kind) with
      | [factor] => some ⟨factor, parts.filter (·.kind != kind)⟩
      | _ => none := by
  have hne : (Condition.allOf parts).kind ≠ kind := by
    rintro rfl
    cases hkind
  exact if_neg hne

theorem ofAlternative?_anyOf (hkind : kind.mergeable = true) (parts : List Condition) :
    ofAlternative? kind (.anyOf parts) = none := by
  have hne : (Condition.anyOf parts).kind ≠ kind := by
    rintro rfl
    cases hkind
  exact if_neg hne

/-- Others see the same of alternatives that are alike. -/
theorem map_face_eq (hkind : kind.mergeable = true) (h : Alike c d) :
    (ofAlternative? kind c).map face = (ofAlternative? kind d).map face := by
  cases h with
  | refl => rfl
  | anyOf => rw [ofAlternative?_anyOf hkind, ofAlternative?_anyOf hkind]
  | @allOf as bs h =>
    have hperm : (as.filter (·.kind == kind)).Perm (bs.filter (·.kind == kind)) :=
      h.filter_kind_perm hkind
    have hrest : AlikeParts (as.filter (·.kind != kind)) (bs.filter (·.kind != kind)) :=
      h.filter fun a b hab => by rw [hab.kind_eq]
    rw [ofAlternative?_allOf hkind, ofAlternative?_allOf hkind]
    split
    · rename_i factor hfactor
      rw [hfactor, List.singleton_perm] at hperm
      rw [← hperm]
      exact congrArg some (Prod.ext (key_eq_of_alike_rest hrest) rfl)
    · rename_i hseveral
      split
      · rename_i factor hfactor
        rw [hfactor, List.perm_singleton] at hperm
        exact absurd hperm (hseveral factor)
      · rfl

theorem faces_perm (hkind : kind.mergeable = true) (h : AlikeParts as bs) :
    ((takenApart kind as).map face).Perm ((takenApart kind bs).map face) := by
  rw [List.map_filterMap, List.map_filterMap]
  exact h.filterMap_perm fun _ _ => map_face_eq hkind

/-- What is merged from the same faces, with rests that are alike, is alike. -/
theorem alike_merged (hkind : kind.mergeable = true) (hfound : ∀ g ∈ found, g.factor.kind = kind)
    (hmem : f ∈ found) (hfaces : (found.map face).Perm (found'.map face)) (hkey : f.key = g.key)
    (hrest : AlikeParts f.rest g.rest) : Alike (f.merged found) (g.merged found') := by
  have hfactors : ((found.filter (·.key == f.key)).map factor).Perm
      ((found'.filter (·.key == g.key)).map factor) := by
    rw [factors_eq, factors_eq, hkey]
    exact (hfaces.filter _).map _
  rw [merged, merged, union_perm hkind (factors_ne_nil hmem) (kind_factors hfound f.key) hfactors]
  exact (AlikeParts.cons (.refl _) hrest).all

/-! ### What alternatives come to -/

/-- Whether an alternative is kept as it is: it shares its rest with no other. -/
def isKept (kind : Kind) (found : List Factored) (c : Condition) : Bool :=
  (ofAlternative? kind c).all fun f => !f.isShared found

/-- The alternatives that share their rests with others. -/
def sharing (kind : Kind) (found : List Factored) (cs : List Condition) : List Factored :=
  (takenApart kind cs).filter (isShared found)

/-- What alternatives come to, in some order: those that are kept, and for each rest that is
    shared what the first of those with it is merged to. -/
theorem mergeFrom_perm (done : List String) (cs : List Condition) :
    (mergeFrom kind found done cs).Perm (cs.filter (isKept kind found) ++
      (firstsAfter key done (sharing kind found cs)).map (merged found)) := by
  induction cs generalizing done with
  | nil => exact .nil
  | cons c cs ih =>
    rw [mergeFrom, sharing, takenApart, List.filter_cons, List.filterMap_cons, isKept]
    cases ofAlternative? kind c with
    | none => exact (ih done).cons c
    | some f =>
      rw [Option.all_some]
      by_cases hshared : f.isShared found = true
      · simp only [hshared, Bool.not_true, Bool.false_eq_true, if_false, List.filter_cons_of_pos,
          firstsAfter]
        split
        · exact ih done
        · -- What is merged here comes after all that are kept.
          exact ((ih (f.key :: done)).cons _).trans List.perm_middle.symm
      · rw [Bool.not_eq_true] at hshared
        simp only [hshared, Bool.not_false, if_true, List.filter_cons, Bool.false_eq_true, if_false]
        exact (ih done).cons c

theorem exists_of_mem_sharing (h : f ∈ sharing kind found cs) :
    ∃ c ∈ cs, ofAlternative? kind c = some f :=
  List.mem_filterMap.1 (List.mem_of_mem_filter h)

theorem isKept_eq (kind : Kind) (found : List Factored) (c : Condition) : isKept kind found c =
    ((ofAlternative? kind c).map face).all fun x => !isCommon (found.map face) x.1 := by
  have hseen : ∀ f : Factored, (!f.isShared found) = !isCommon (found.map face) f.face.1 :=
    fun f => congrArg (!·) (isShared_eq found f)
  rw [isKept, Option.all_map, funext hseen]

theorem keys_sharing (kind : Kind) (found : List Factored) (cs : List Condition) :
    (sharing kind found cs).map key = (((takenApart kind cs).map face).filter
      fun x => isCommon (found.map face) x.1).map Prod.fst := by
  rw [sharing, List.filter_map, List.map_map, funext (isShared_eq found)]
  rfl

theorem any_isShared_eq (found : List Factored) : found.any (isShared found) =
    (found.map face).any fun x => isCommon (found.map face) x.1 := by
  rw [List.any_map, funext (isShared_eq found)]
  rfl

/-- There are alternatives to merge among both or neither. -/
theorem any_isShared_of_alike (hkind : kind.mergeable = true) (h : AlikeParts as bs) :
    (takenApart kind as).any (isShared (takenApart kind as)) =
      (takenApart kind bs).any (isShared (takenApart kind bs)) := by
  have hfaces := faces_perm hkind h
  rw [any_isShared_eq, any_isShared_eq, funext (isCommon_perm hfaces)]
  exact hfaces.any_eq

/-- Tidy alternatives that are alike come to what is alike. -/
theorem alike_mergeFrom (hkind : kind.mergeable = true) (has : ∀ a ∈ as, a.Tidy)
    (hbs : ∀ b ∈ bs, b.Tidy) (hnames : ∀ a ∈ as, a.passes .delimited = true)
    (hnames' : ∀ b ∈ bs, b.passes .delimited = true) (h : AlikeParts as bs) :
    AlikeParts (mergeFrom kind (takenApart kind as) [] as)
      (mergeFrom kind (takenApart kind bs) [] bs) := by
  have hfaces := faces_perm hkind h
  refine .trans (.of_perm (mergeFrom_perm [] as)) (.trans (.append ?kept ?merged)
    (.of_perm (mergeFrom_perm [] bs).symm))
  case kept =>
    have hsame : isKept kind (takenApart kind as) = isKept kind (takenApart kind bs) := by
      funext c
      rw [isKept_eq, isKept_eq, funext (isCommon_perm hfaces)]
    rw [hsame]
    exact h.filter fun a b hab => by rw [isKept_eq, isKept_eq, map_face_eq hkind hab]
  case merged =>
    refine .of_keys (fun f hf g hg hkey => ?_) (keys_firstsAfter_perm ?_)
    · -- Rests with one key are alike, whichever alternative comes first with it.
      obtain ⟨a, ha, hfa⟩ := exists_of_mem_sharing (mem_of_mem_firstsAfter hf)
      obtain ⟨b, hb, hgb⟩ := exists_of_mem_sharing (mem_of_mem_firstsAfter hg)
      have hrest : AlikeParts f.rest g.rest := alike_rest_of_key_eq hfa hgb (has a ha) (hbs b hb)
        (hnames a ha) (hnames' b hb) hkey
      exact alike_merged hkind kind_factor_of_mem_found (List.mem_filterMap.2 ⟨a, ha, hfa⟩) hfaces
        hkey hrest
    · rw [keys_sharing, keys_sharing, funext (isCommon_perm hfaces)]
      exact (hfaces.filter _).map _

end Factored

end Authorization
