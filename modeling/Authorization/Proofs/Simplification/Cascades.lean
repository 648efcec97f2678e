import Authorization.Proofs.Simplification.Reordering
import Authorization.Proofs.Simplification.Settling

/-!
# Cascades

Alternatives without a common rest are left alone by factoring
(`Rule.factorBy?_of_nodup`); if the first two have a common rest, and no others
have one, these two are merged (`Rule.factorBy?_of_first_two`). What they are
merged to may have a common rest with the next one, by another kind. In a
*cascade* of roles and variants that goes on and on: a pass merges by roles, then
by variants, and what comes of it waits for the next pass
(`Optimizer.pass_cascade`). So there are conditions for which no given number
of passes is enough.

* `Optimizer.optimize_again`: optimizing twice is optimizing once just if a
  further pass has nothing to do, which is so for whatever settles, and for
  small conditions;
* `Optimizer.usual_not_idempotent`: the usual number of passes leaves a cascade
  of sixty-six alternatives that optimizing again goes on with.
-/

namespace Authorization

open Condition

/-! ### Alternatives by their rests -/

namespace Factored

variable {kind : Kind} {found : List Factored} {f g : Factored} {c d : Condition}
  {cs : List Condition}

/-- Alternatives that share no rest stay as they are. -/
theorem mergeFrom_of_not_shared {done : List String}
    (h : ∀ f ∈ takenApart kind cs, f.isShared found = false) :
    mergeFrom kind found done cs = cs := by
  induction cs with
  | nil => rfl
  | cons c cs ih =>
    rw [takenApart] at h
    rw [mergeFrom]
    split
    · rename_i hnone
      rw [List.filterMap_cons_none hnone] at h
      rw [ih h]
    · rename_i f hf
      rw [List.filterMap_cons_some hf, List.forall_mem_cons] at h
      rw [h.1, Bool.not_false, if_pos rfl, ih h.2]

/-- An alternative does not share its rest if no other one has its key. -/
theorem isShared_eq_false (hnodup : (found.map key).Nodup) (f : Factored) :
    f.isShared found = false := by
  have hone := List.nodup_iff_count_le_one.1 hnodup f.key
  rw [List.count_eq_countP, List.countP_map, List.countP_eq_length_filter] at hone
  exact decide_eq_false (Nat.not_lt_of_le hone)

/-! ### Two alternatives with one rest -/

section two

variable {rest : List Factored} (hkey : f.key = g.key) (hnodup : ((g :: rest).map key).Nodup)

include hkey hnodup

theorem filter_of_first_two : (f :: g :: rest).filter (·.key == f.key) = [f, g] := by
  have hothers : rest.filter (·.key == f.key) = [] :=
    List.filter_eq_nil_iff.2 fun h hmem heq =>
      (List.nodup_cons.1 hnodup).1 (hkey ▸ beq_iff_eq.1 heq ▸ List.mem_map_of_mem hmem)
  rw [List.filter_cons, List.filter_cons, hothers, if_pos (beq_self_eq_true _),
    if_pos (beq_iff_eq.2 hkey.symm)]

theorem isShared_of_first_two (h : Factored) (heq : h.key = f.key) :
    h.isShared (f :: g :: rest) = true := by
  rw [isShared, heq, filter_of_first_two hkey hnodup]
  rfl

theorem isShared_of_others : ∀ h ∈ rest, h.isShared (f :: g :: rest) = false := by
  intro h hmem
  obtain ⟨hnew, hnodup⟩ := List.nodup_cons.1 hnodup
  have hne : ¬(g.key == h.key) = true := fun heq =>
    hnew (beq_iff_eq.1 heq ▸ List.mem_map_of_mem hmem)
  rw [isShared, List.filter_cons, List.filter_cons, hkey, if_neg hne, if_neg hne]
  exact isShared_eq_false hnodup h

end two

/-- The key of an alternative can be told from its id. -/
theorem key_eq_of_id_eq (hkind : kind.mergeable = true) (hc : c.passes .delimited = true)
    (hd : d.passes .delimited = true) (hf : ofAlternative? kind c = some f)
    (hg : ofAlternative? kind d = some g) (h : c.id = d.id) : f.key = g.key := by
  have hface := map_face_eq hkind (alike_of_id_eq hc hd h)
  rw [hf, hg] at hface
  exact congrArg Prod.fst (Option.some.inj hface)

/-- Alternatives with different rests have different ids. -/
theorem nodup_ids (hkind : kind.mergeable = true) (hcs : ∀ c ∈ cs, c.passes .delimited = true)
    (hapart : ∀ c ∈ cs, ∃ f, ofAlternative? kind c = some f)
    (h : ((takenApart kind cs).map key).Nodup) : (cs.map Condition.id).Nodup := by
  induction cs with
  | nil => exact List.nodup_nil
  | cons c cs ih =>
    obtain ⟨hc, hcs⟩ := List.forall_mem_cons.1 hcs
    obtain ⟨⟨f, hf⟩, hapart⟩ := List.forall_mem_cons.1 hapart
    rw [takenApart, List.filterMap_cons_some hf, List.map_cons, List.nodup_cons] at h
    refine List.nodup_cons.2 ⟨fun hmem => h.1 ?_, ih hcs hapart h.2⟩
    obtain ⟨d, hd, hid⟩ := List.mem_map.1 hmem
    obtain ⟨g, hg⟩ := hapart d hd
    rw [key_eq_of_id_eq hkind hc (hcs d hd) hf hg hid.symm]
    exact List.mem_map_of_mem (List.mem_filterMap.2 ⟨d, hd, hg⟩)

end Factored

namespace Rule

variable {kind : Kind} {f g : Factored} {c d : Condition} {cs : List Condition}

/-- Alternatives with different rests are not factored. -/
theorem factorBy?_of_nodup (h : ((Factored.takenApart kind cs).map Factored.key).Nodup) :
    factorBy? kind (.anyOf cs) = none := by
  have hnone : (Factored.takenApart kind cs).any
      (·.isShared (Factored.takenApart kind cs)) = false :=
    List.any_eq_false.2 fun f _ => by
      rw [Factored.isShared_eq_false h]
      exact Bool.false_ne_true
  rw [factorBy?]
  split
  · rfl
  · simp only [hnone, Bool.false_eq_true, if_false]

/-- If the first two alternatives have a common rest, and no others have one, these two are
    merged. -/
theorem factorBy?_of_first_two (hkind : kind.mergeable = true)
    (hc : Factored.ofAlternative? kind c = some f) (hd : Factored.ofAlternative? kind d = some g)
    (hkey : f.key = g.key)
    (hnodup : ((Factored.takenApart kind (d :: cs)).map Factored.key).Nodup) :
    factorBy? kind (.anyOf (c :: d :: cs)) =
      some (.any (.all (union [f.factor, g.factor] :: f.rest) :: cs)) := by
  rw [Factored.takenApart, List.filterMap_cons_some hd] at hnodup
  have hfound : (c :: d :: cs).filterMap (Factored.ofAlternative? kind) =
      f :: g :: Factored.takenApart kind cs := by
    rw [List.filterMap_cons_some hc, List.filterMap_cons_some hd]
  have hfirst := Factored.isShared_of_first_two hkey hnodup
  have hany : (f :: g :: Factored.takenApart kind cs).any
      (·.isShared (f :: g :: Factored.takenApart kind cs)) = true :=
    List.any_eq_true.2 ⟨f, List.mem_cons_self, hfirst f rfl⟩
  -- The second alternative is merged with the first one, and all others stay.
  have hmerge : Factored.mergeFrom kind (f :: g :: Factored.takenApart kind cs) [] (c :: d :: cs) =
      f.merged (f :: g :: Factored.takenApart kind cs) :: cs := by
    have hdone : List.contains [f.key] g.key = true :=
      List.contains_iff_mem.2 (List.mem_singleton.2 hkey.symm)
    rw [Factored.mergeFrom, hc]
    simp only [hfirst f rfl, List.contains_nil, Bool.not_true, Bool.false_eq_true, if_false]
    rw [Factored.mergeFrom, hd]
    simp only [hfirst g hkey.symm, hdone, Bool.not_true, Bool.false_eq_true, if_false, if_true]
    rw [Factored.mergeFrom_of_not_shared (Factored.isShared_of_others hkey hnodup)]
  rw [factorBy?, hkind, Bool.not_true, if_neg Bool.false_ne_true]
  simp only [hfound, hany, if_true, hmerge, Factored.merged,
    Factored.filter_of_first_two hkey hnodup, List.map_cons, List.map_nil]

/-- Parts with different ids do not repeat each other. -/
theorem fewer?_of_nodup (h : (cs.map Condition.id).Nodup) : fewer? cs = none := by
  have hperm : ((firstsAfter Condition.id [] cs).map Condition.id).Perm (cs.map Condition.id) :=
    (List.perm_ext_iff_of_nodup nodup_keys_firstsAfter h).2 fun t => by
      rw [mem_keys_firstsAfter, and_iff_left List.not_mem_nil]
  have hlength := hperm.length_eq
  rw [List.length_map, List.length_map, ← distinct_eq_firstsAfter] at hlength
  exact if_pos hlength

/-- Nothing is lifted out of alternatives that offer no others. -/
theorem flatten?_anyOf_of_kind (h : ∀ c ∈ cs, c.kind = .allOf) (hlength : cs.length ≠ 1) :
    flatten? (.anyOf cs) = none := by
  have hnone : cs.any (·.kind == .anyOf) = false :=
    List.any_eq_false.2 fun c hc => by rw [h c hc]; exact Bool.false_ne_true
  rw [flatten?_anyOf hlength, hnone]
  rfl

/-- Conditions that offer no alternatives are joined by *any of* as they are. -/
theorem any_of_kind (h : ∀ c ∈ cs, c.kind = .allOf) (hlength : cs.length ≠ 1) :
    Condition.any cs = .anyOf cs := by
  have hflat : cs.flatMap alternatives = cs := by
    clear hlength
    induction cs with
    | nil => rfl
    | cons c cs ih =>
      obtain ⟨hc, hcs⟩ := List.forall_mem_cons.1 h
      rw [List.flatMap_cons, ih hcs]
      cases c with
      | anyOf => cases hc
      | _ => rfl
  rw [any_eq_anyOf (by rwa [hflat]), hflat]

end Rule

/-! ### Passes with nothing to do -/

namespace Optimizer

variable {rules : List Rule} {c d : Condition} {cs : List Condition}

theorem applyRules_eq_none (h : ∀ rule ∈ rules, rule.simplified? c = none) :
    applyRules rules c = none := by
  induction rules with
  | nil => rfl
  | cons rule rules ih =>
    obtain ⟨hrule, hrules⟩ := List.forall_mem_cons.1 h
    rw [applyRules, hrule]
    exact ih hrules

theorem passParts_eq_none (h : ∀ c ∈ cs, pass rules c = none) : passParts rules cs = none := by
  induction cs with
  | nil => rfl
  | cons c cs ih =>
    obtain ⟨hc, hcs⟩ := List.forall_mem_cons.1 h
    rw [passParts, hc, ih hcs]

/-- A single condition is as small as can be. -/
theorem pass_eq_none_of_size_le_one (h : c.size ≤ 1) : pass rules c = none := by
  cases hd : pass rules c with
  | none => rfl
  | some d =>
    have := size_pass rules c d hd
    have := size_pos d
    omega

/-- Of two single conditions of different kinds both are needed. -/
theorem pass_pair (hc : c.parts? = none) (hd : d.parts? = none) (hne : c.kind ≠ d.kind) :
    pass standardRules (.allOf [c, d]) = none := by
  have hparts : passParts standardRules [c, d] = none :=
    passParts_eq_none (List.forall_mem_cons.2 ⟨pass_eq_none_of_size_le_one (size_of_leaf hc).le,
      List.forall_mem_singleton.2 (pass_eq_none_of_size_le_one (size_of_leaf hd).le)⟩)
  have hkind : ∀ e : Condition, e.parts? = none → ¬(e.kind == .allOf) = true := by
    intro e he hkind
    cases e with
    | allOf => cases he
    | _ => cases hkind
  have hflat : Rule.flatten? (.allOf [c, d]) = none := by
    have htwo : [c, d].length ≠ 1 := Nat.succ_ne_self 1
    rw [Rule.flatten?_allOf htwo, List.any_cons, List.any_cons, List.any_nil,
      Bool.eq_false_iff.2 (hkind c hc), Bool.eq_false_iff.2 (hkind d hd)]
    rfl
  have hdistinct : Rule.fewer? [c, d] = none := by
    refine Rule.fewer?_of_nodup (List.nodup_cons.2 ⟨fun hid => hne ?_, List.nodup_singleton _⟩)
    have hid : c.idChars ++ [] = d.idChars ++ [] := by
      rw [idChars, idChars, List.mem_singleton.1 hid]
    exact kind_eq_of_append hid
  rw [pass, hparts]
  refine applyRules_eq_none ?_
  simp only [standardRules, List.forall_mem_cons, Rule.simplified?, hflat, Rule.dropRepeats?,
    hdistinct, Rule.factorBy?_allOf, Option.map_none]
  exact ⟨trivial, trivial, trivial, trivial, trivial, fun _ h => absurd h List.not_mem_nil⟩

/-! ### Rungs -/

/-- The name of a number: one stroke more than it says. -/
def strokes (n : Nat) : String := String.ofList (List.replicate (n + 1) 'i')

theorem strokes_inj {m n : Nat} (h : strokes m = strokes n) : m = n := by
  have hlength := congrArg (fun s : String => s.toList.length) h
  simpa [strokes] using hlength

/-- The sets of names in a cascade: of all numbers up to one, and of the next number by itself, in
    turn. -/
def rung (i : Nat) : NameSet :=
  .ofList (if i % 2 = 0 then (List.range (i / 2 + 1)).map strokes else [strokes (i / 2 + 1)])

theorem mem_rung {i : Nat} {name : String} : name ∈ rung i ↔
    ∃ j, (i % 2 = 0 ∧ j ≤ i / 2 ∨ i % 2 = 1 ∧ j = i / 2 + 1) ∧ strokes j = name := by
  rw [rung, SortedSet.mem_ofList]
  split
  · rename_i heven
    simp only [List.mem_map, List.mem_range, Nat.lt_succ_iff, heven, true_and, Nat.zero_ne_one,
      false_and, or_false]
  · rename_i hodd
    simp only [List.mem_singleton, Nat.mod_two_ne_zero.1 hodd, Nat.one_ne_zero, false_and, false_or,
      true_and, exists_eq_left]
    exact eq_comm

theorem strokes_mem_rung {i j : Nat} :
    strokes j ∈ rung i ↔ i % 2 = 0 ∧ j ≤ i / 2 ∨ i % 2 = 1 ∧ j = i / 2 + 1 := by
  rw [mem_rung]
  constructor
  · rintro ⟨j', hj', heq⟩
    rwa [← strokes_inj heq]
  · exact fun h => ⟨j, h, rfl⟩

/-- No set comes twice: a number alone goes without the numbers before it. -/
theorem rung_inj {i i' : Nat} (h : rung i = rung i') : i = i' := by
  have hsame : ∀ j, i % 2 = 0 ∧ j ≤ i / 2 ∨ i % 2 = 1 ∧ j = i / 2 + 1 ↔
      i' % 2 = 0 ∧ j ≤ i' / 2 ∨ i' % 2 = 1 ∧ j = i' / 2 + 1 := fun j => by
    rw [← strokes_mem_rung, ← strokes_mem_rung, h]
  have hzero := hsame 0
  have hlast := hsame (i / 2)
  have hlast' := hsame (i' / 2)
  have hnext := hsame (i / 2 + 1)
  omega

/-- With the next number by itself, the numbers up to one are the numbers up to the next. -/
theorem unionNames_rungs (k : Nat) :
    unionNames [rung (2 * k), rung (2 * k + 1)] = rung (2 * k + 2) := by
  refine SortedSet.ext fun name => ?_
  simp only [mem_unionNames, List.mem_cons, List.not_mem_nil, or_false, exists_eq_or_imp,
    exists_eq_left, mem_rung, ← exists_or, ← or_and_right]
  refine exists_congr fun j => and_congr_left fun _ => ?_
  omega

/-! ### Cascades -/

/-- Roles with variants. -/
def cell (roles variants : NameSet) : Condition := .allOf [.role roles, .variant variants]

/-- One set of names as roles, with the next one as variants. -/
def tread (i : Nat) : Condition := cell (rung i) (rung (i + 1))

/-- Where a cascade has come to. -/
def landing (k : Nat) : Condition := .allOf [.variant (rung (2 * k + 2)), .role (rung (2 * k))]

/-- The treads from one on. -/
def treads (i n : Nat) : List Condition := (List.range' i n).map tread

/-- A cascade that has come down some way, with more steps to go. -/
def cascade (k n : Nat) : Condition := .anyOf (landing k :: treads (2 * k + 1) (2 * n + 1))

theorem treads_succ (i n : Nat) : treads i (n + 1) = tread i :: treads (i + 1) n := by
  rw [treads, List.range'_succ, List.map_cons, treads]

theorem takenApart_treads_role (i n : Nat) : Factored.takenApart .role (treads i n) =
    (List.range' i n).map fun j => ⟨.role (rung j), [.variant (rung (j + 1))]⟩ := by
  rw [Factored.takenApart, treads, List.filterMap_map, ← List.filterMap_eq_map]
  rfl

theorem takenApart_treads_variant (i n : Nat) : Factored.takenApart .variant (treads i n) =
    (List.range' i n).map fun j => ⟨.variant (rung (j + 1)), [.role (rung j)]⟩ := by
  rw [Factored.takenApart, treads, List.filterMap_map, ← List.filterMap_eq_map]
  rfl

theorem filterMap_treads_member (i n : Nat) :
    (treads i n).filterMap (Factored.ofAlternative? .member) = [] := by
  rw [treads, List.filterMap_map]
  exact List.filterMap_eq_nil_iff.2 fun _ _ => rfl

theorem names_rung (i : Nat) : Check.delimited.names (rung i) = true := by
  refine Check.names_eq_true.2 fun name hname => ?_
  obtain ⟨j, -, rfl⟩ := mem_rung.1 hname
  have hchars : (strokes j).toList = List.replicate (j + 1) 'i' := String.toList_ofList
  have hne : strokes j ≠ "" := fun hempty => by
    rw [hempty] at hchars
    cases hchars
  have hlacks : lacks [',', ')'] (strokes j) = true := by
    rw [lacks, hchars, List.all_replicate, if_neg (Nat.succ_ne_zero j)]
    rfl
  exact Bool.and_eq_true _ _ ▸ ⟨bne_iff_ne.2 hne, hlacks⟩

theorem id_role_rung_inj {i j : Nat}
    (h : (Condition.role (rung i)).id = (Condition.role (rung j)).id) : i = j := by
  have halike : Alike (.role (rung i)) (.role (rung j)) :=
    alike_of_id_eq (names_rung i) (names_rung j) h
  exact rung_inj (Condition.role.inj (halike.eq_of_mergeable rfl))

theorem id_variant_rung_inj {i j : Nat}
    (h : (Condition.variant (rung i)).id = (Condition.variant (rung j)).id) : i = j := by
  have halike : Alike (.variant (rung i)) (.variant (rung j)) :=
    alike_of_id_eq (names_rung i) (names_rung j) h
  exact rung_inj (Condition.variant.inj (halike.eq_of_mergeable rfl))

/-- No two treads have one set of variants. -/
theorem nodup_keys_treads_role (i n : Nat) :
    ((Factored.takenApart .role (treads i n)).map Factored.key).Nodup := by
  rw [takenApart_treads_role, List.map_map]
  exact List.Nodup.map (fun j j' h => Nat.succ.inj (id_variant_rung_inj h)) List.nodup_range'

/-- No two treads have one set of roles. -/
theorem nodup_keys_treads_variant (i n : Nat) :
    ((Factored.takenApart .variant (treads i n)).map Factored.key).Nodup := by
  rw [takenApart_treads_variant, List.map_map]
  exact List.Nodup.map (fun j j' h => id_role_rung_inj h) List.nodup_range'

theorem union_roles (k : Nat) :
    union [.role (rung (2 * k)), .role (rung (2 * k + 1))] = .role (rung (2 * k + 2)) :=
  congrArg Condition.role (unionNames_rungs k)

theorem union_variants (k : Nat) :
    union [.variant (rung (2 * k)), .variant (rung (2 * k + 1))] = .variant (rung (2 * k + 2)) :=
  congrArg Condition.variant (unionNames_rungs k)

/-- The first two of a cascade are merged by their roles. -/
theorem factorBy?_role_cascade (k n : Nat) :
    factorBy? .role (cascade k n) = some
      (.any (cell (rung (2 * k + 2)) (rung (2 * k + 2)) :: treads (2 * k + 2) (2 * n))) := by
  have hlanding : Factored.ofAlternative? .role (landing k) =
      some ⟨.role (rung (2 * k)), [.variant (rung (2 * k + 2))]⟩ := rfl
  have htread : Factored.ofAlternative? .role (tread (2 * k + 1)) =
      some ⟨.role (rung (2 * k + 1)), [.variant (rung (2 * k + 2))]⟩ := rfl
  have hnodup := nodup_keys_treads_role (2 * k + 1) (2 * n + 1)
  rw [treads_succ] at hnodup
  rw [cascade, treads_succ, Rule.factorBy?_of_first_two rfl hlanding htread rfl hnodup,
    union_roles]
  rfl

/-- What that came to is merged with the next one by their variants. -/
theorem factorBy?_variant_cell (k n : Nat) :
    factorBy? .variant (.anyOf (cell (rung (2 * k)) (rung (2 * k)) :: treads (2 * k) (n + 1))) =
      some (.any (.allOf [.variant (rung (2 * k + 2)), .role (rung (2 * k))] ::
        treads (2 * k + 1) n)) := by
  have hcell : Factored.ofAlternative? .variant (cell (rung (2 * k)) (rung (2 * k))) =
      some ⟨.variant (rung (2 * k)), [.role (rung (2 * k))]⟩ := rfl
  have htread : Factored.ofAlternative? .variant (tread (2 * k)) =
      some ⟨.variant (rung (2 * k + 1)), [.role (rung (2 * k))]⟩ := rfl
  have hnodup := nodup_keys_treads_variant (2 * k) (n + 1)
  rw [treads_succ] at hnodup
  rw [treads_succ, Rule.factorBy?_of_first_two rfl hcell htread rfl hnodup, union_variants]
  rfl

theorem kind_of_mem_treads {i n : Nat} : ∀ c ∈ treads i n, c.kind = .allOf := by
  intro c hc
  obtain ⟨j, _, rfl⟩ := List.mem_map.1 hc
  rfl

theorem kind_of_mem_cons_treads {i n : Nat} (hc : c.kind = .allOf) :
    ∀ d ∈ c :: treads i n, d.kind = .allOf := List.forall_mem_cons.2 ⟨hc, kind_of_mem_treads⟩

theorem length_cons_treads (c : Condition) (i n : Nat) : (c :: treads i n).length = n + 1 := by
  rw [List.length_cons, treads, List.length_map, List.length_range']

theorem delimited_of_mem_treads {i n : Nat} : ∀ c ∈ treads i n, c.passes .delimited = true := by
  intro c hc
  obtain ⟨j, _, rfl⟩ := List.mem_map.1 hc
  exact passes_allOf.2 (List.forall_mem_cons.2
    ⟨names_rung j, List.forall_mem_singleton.2 (names_rung (j + 1))⟩)

/-- No two alternatives of a cascade have one id: they differ in their roles. -/
theorem nodup_ids_cascade (k n : Nat) :
    ((landing k :: treads (2 * k + 1) n).map Condition.id).Nodup := by
  have hlanding : (landing k).passes .delimited = true :=
    passes_allOf.2 (List.forall_mem_cons.2
      ⟨names_rung (2 * k + 2), List.forall_mem_singleton.2 (names_rung (2 * k))⟩)
  -- The landing has the roles of the tread before it.
  have hkeys := nodup_keys_treads_variant (2 * k) (n + 1)
  rw [treads_succ] at hkeys
  have hmergeable : Kind.variant.mergeable = true := rfl
  refine Factored.nodup_ids hmergeable
    (List.forall_mem_cons.2 ⟨hlanding, delimited_of_mem_treads⟩)
    (List.forall_mem_cons.2 ⟨⟨_, rfl⟩, fun c hc => ?_⟩) hkeys
  obtain ⟨j, _, rfl⟩ := List.mem_map.1 hc
  exact ⟨_, rfl⟩

/-- The parts of a cascade are left alone. -/
theorem passParts_cascade (k n : Nat) :
    passParts standardRules (landing k :: treads (2 * k + 1) n) = none := by
  refine passParts_eq_none (List.forall_mem_cons.2 ⟨pass_pair rfl rfl nofun, fun c hc => ?_⟩)
  obtain ⟨j, _, rfl⟩ := List.mem_map.1 hc
  exact pass_pair rfl rfl nofun

/-- What is done to the whole of a cascade. -/
theorem pass_cascade_eq (k n : Nat) :
    pass standardRules (cascade k n) = applyRules standardRules (cascade k n) := by
  rw [cascade, pass, passParts_cascade]
  rfl

theorem flatten?_cascade (k n : Nat) : Rule.flatten? (cascade k n) = none := by
  refine Rule.flatten?_anyOf_of_kind (kind_of_mem_cons_treads rfl) ?_
  rw [length_cons_treads]
  omega

theorem dropRepeats?_cascade (k n : Nat) : Rule.dropRepeats? (cascade k n) = none := by
  rw [cascade, Rule.dropRepeats?, Rule.fewer?_of_nodup (nodup_ids_cascade k _), Option.map_none]

theorem factorBy?_member_cascade (k n : Nat) : factorBy? .member (cascade k n) = none := by
  refine Rule.factorBy?_of_nodup ?_
  rw [Factored.takenApart, List.filterMap_cons_none rfl, filterMap_treads_member]
  exact List.nodup_nil

/-- A pass brings a cascade down by one step. -/
theorem pass_cascade (k n : Nat) :
    pass standardRules (cascade k (n + 1)) = some (cascade (k + 1) n) := by
  have hrole : factorBy? .role (cascade k (n + 1)) = some
      (.anyOf (cell (rung (2 * (k + 1))) (rung (2 * (k + 1))) ::
        treads (2 * (k + 1)) (2 * n + 1 + 1))) := by
    rw [factorBy?_role_cascade, Rule.any_of_kind (kind_of_mem_cons_treads rfl)
      (by rw [length_cons_treads]; omega)]
    rfl
  have hvariant : factorBy? .variant (.anyOf (cell (rung (2 * (k + 1))) (rung (2 * (k + 1))) ::
      treads (2 * (k + 1)) (2 * n + 1 + 1))) = some (cascade (k + 1) n) := by
    rw [factorBy?_variant_cell, Rule.any_of_kind (kind_of_mem_cons_treads rfl)
      (by rw [length_cons_treads]; omega)]
    rfl
  rw [pass_cascade_eq]
  simp only [standardRules, applyRules, Rule.simplified?, flatten?_cascade, dropRepeats?_cascade,
    hrole, hvariant, factorBy?_member_cascade, Option.getD_none, Option.getD_some]

/-- At the last step there is still something to merge. -/
theorem pass_cascade_ne_none (k : Nat) : pass standardRules (cascade k 0) ≠ none := by
  rw [pass_cascade_eq]
  simp only [standardRules, applyRules, Rule.simplified?, flatten?_cascade, dropRepeats?_cascade,
    factorBy?_role_cascade]
  exact Option.some_ne_none _

/-- As many passes as a cascade has steps do not settle it. -/
theorem repeatPass_cascade (passes k n : Nat) :
    repeatPass standardRules passes (cascade k (n + passes)) = ⟨cascade (k + passes) n, false⟩ := by
  induction passes generalizing k with
  | zero => rfl
  | succ passes ih =>
    rw [repeatPass, ← Nat.add_assoc, pass_cascade]
    exact (ih (k + 1)).trans (by rw [Nat.add_right_comm, Nat.add_assoc])

/-- No number of passes is enough for every condition. -/
theorem optimize_cascade (passes n : Nat) (hpos : 0 < passes) :
    (standard passes).optimize (cascade 0 (n + passes)) = cascade passes n := by
  have hpasses : (standard passes).maxPasses = passes := Nat.max_eq_left hpos
  rw [optimize, run, hpasses]
  exact congrArg Optimized.condition
    ((repeatPass_cascade passes 0 n).trans (by rw [Nat.zero_add]))

/-! ### Optimizing twice -/

/-- What optimizing leaves alone is what a pass has nothing to do on. -/
theorem optimize_eq_self_iff {o : Optimizer} : o.optimize c = c ↔ pass o.rules c = none := by
  constructor
  · intro hself
    cases hd : pass o.rules c with
    | none => rfl
    | some d =>
      -- Otherwise the first pass makes it smaller, and no later one makes it larger.
      obtain ⟨passes, hpasses⟩ := Nat.exists_eq_succ_of_ne_zero o.pos.ne'
      have hle := size_repeatPass_le o.rules passes d
      have hlt := size_pass o.rules c d hd
      rw [optimize, run, hpasses, repeatPass, hd] at hself
      rw [hself] at hle
      exact absurd hlt (Nat.not_lt_of_le hle)
  · intro hnone
    rw [optimize, run_of_pass_eq_none o hnone]

/-- A condition that does not settle loses something in each pass. -/
theorem size_add_le_of_not_settled {passes : Nat}
    (h : (repeatPass rules passes c).settled = false) :
    (repeatPass rules passes c).condition.size + passes ≤ c.size := by
  induction passes generalizing c with
  | zero => exact Nat.le_refl _
  | succ passes ih =>
    rw [repeatPass] at h ⊢
    split at h
    · cases h
    · rename_i d hd
      have := size_pass rules c d hd
      have := ih h
      omega

/-- Nothing is left to do on a condition that is settled, or was small. -/
theorem pass_repeatPass_eq_none {passes : Nat}
    (h : (repeatPass rules passes c).settled = true ∨ c.size ≤ passes + 1) :
    pass rules (repeatPass rules passes c).condition = none := by
  cases hsettled : (repeatPass rules passes c).settled with
  | true => exact pass_of_settled hsettled
  | false =>
    have hsize := h.resolve_left (hsettled ▸ Bool.false_ne_true)
    have := size_add_le_of_not_settled hsettled
    exact pass_eq_none_of_size_le_one (by omega)

/-- Optimizing twice is optimizing once just if a further pass has nothing to do. So it is for
    every condition that settles, and for every one with at most one condition more in it than
    there are passes. -/
theorem optimize_again (c : Condition) :
    (usual.optimize (usual.optimize c) = usual.optimize c ↔
      pass standardRules (usual.optimize c) = none) ∧
    ((usual.run c).settled = true ∨ c.size ≤ usualPasses + 1 →
      usual.optimize (usual.optimize c) = usual.optimize c) :=
  ⟨optimize_eq_self_iff, fun h => optimize_eq_self_iff.2 (pass_repeatPass_eq_none h)⟩

/-- Editors or administrators are found, once and for all. -/
theorem optimize_again_editorsOrAdmins : editorsOrAdmins.size ≤ usualPasses + 1 ∧
    usual.optimize (usual.optimize editorsOrAdmins) = usual.optimize editorsOrAdmins := by
  have hsize : editorsOrAdmins.size ≤ usualPasses + 1 := by decide
  exact ⟨hsize, (optimize_again editorsOrAdmins).2 (.inr hsize)⟩

/-- A cascade with as many steps as the usual number of passes: optimizing it again goes on. -/
theorem usual_not_idempotent :
    usual.optimize (usual.optimize (cascade 0 32)) ≠ usual.optimize (cascade 0 32) := by
  have hleft : usual.optimize (cascade 0 32) = cascade 32 0 :=
    optimize_cascade 32 0 (by decide)
  rw [hleft]
  intro hself
  have hnone : pass usual.rules (cascade 32 0) = none := optimize_eq_self_iff.1 hself
  exact pass_cascade_ne_none 32 hnone

end Optimizer

end Authorization
