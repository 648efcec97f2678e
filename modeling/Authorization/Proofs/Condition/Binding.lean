import Authorization.Proofs.Condition.Truth

/-!
# Bound memberships

Binding the memberships in a condition to roles leaves nothing to hold that did
not hold before (`holdsOn_of_holdsOn_bind`). Where the roles of a membership are
not known, it changes nothing (`holdsOn_bind_of_unknown`); nor does it without an
object, as far as that decides anything (`toOption_holds_bind_none`).

Binding reaches the memberships at every depth (`isBound_bind`) and nothing else
(`leftOpen_bind`), and what is bound cannot be bound again
(`bind_eq_self_of_isBound`).
-/

namespace Authorization.Condition

variable {s : Session} {r : Record}

/-- A condition holds if it does so with its memberships bound. -/
theorem holdsOn_of_holdsOn_bind (roles : Option NameSet) :
    ∀ c : Condition, (c.bind roles).holdsOn s r = true → c.holdsOn s r = true := by
  refine byParts (fun _ h => h) (fun _ h => h) ?member (fun _ _ h => h) (fun h => h) ?allOf ?anyOf
  case member =>
    intro bound h
    cases bound with
    | some names => exact h
    | none =>
      -- With the roles of the policy it is a membership all the same.
      rw [holdsOn, memberHolds_none]
      exact member_of_memberHolds h
  case allOf =>
    intro parts ih h
    rw [bind, bindAll_eq_map, holdsOn_allOf, List.all_map, List.all_eq_true] at h
    rw [holdsOn_allOf, List.all_eq_true]
    exact fun c hc => ih c hc (h c hc)
  case anyOf =>
    intro parts ih h
    rw [bind, bindAll_eq_map, holdsOn_anyOf, List.any_map, List.any_eq_true] at h
    obtain ⟨c, hc, htrue⟩ := h
    rw [holdsOn_anyOf, List.any_eq_true]
    exact ⟨c, hc, ih c hc htrue⟩

/-- Where the roles of a membership are not known, binding does not matter. -/
theorem holdsOn_bind_of_unknown (hr : r.membershipRoles = none) (roles : Option NameSet) :
    ∀ c : Condition, (c.bind roles).holdsOn s r = c.holdsOn s r := by
  refine byParts (fun _ => rfl) (fun _ => rfl) ?member (fun _ _ => rfl) rfl ?allOf ?anyOf
  case member =>
    intro bound
    rw [bind, holdsOn, holdsOn, memberHolds_of_unknown hr, memberHolds_of_unknown hr]
  case allOf =>
    intro parts ih
    rw [bind, bindAll_eq_map, holdsOn_allOf, holdsOn_allOf, List.all_map, Bool.eq_iff_iff,
      List.all_eq_true, List.all_eq_true]
    exact forall₂_congr fun c hc => Bool.eq_iff_iff.1 (ih c hc)
  case anyOf =>
    intro parts ih
    rw [bind, bindAll_eq_map, holdsOn_anyOf, holdsOn_anyOf, List.any_map, Bool.eq_iff_iff,
      List.any_eq_true, List.any_eq_true]
    exact exists_congr fun c => and_congr_right fun hc => Bool.eq_iff_iff.1 (ih c hc)

/-! ### Without an object -/

theorem toOption_allHold_cons {o : Option Record} (c : Condition) (cs : List Condition) :
    (allHold s o (c :: cs)).toOption = (c.holds s o).toOption.bind fun b =>
      if b then (allHold s o cs).toOption else some false := by
  rw [allHold]
  rcases c.holds s o with fault | _ | _ <;> rfl

theorem toOption_anyHolds_cons {o : Option Record} (c : Condition) (cs : List Condition) :
    (anyHolds s o (c :: cs)).toOption = (c.holds s o).toOption.bind fun b =>
      if b then some true else (anyHolds s o cs).toOption := by
  rw [anyHolds]
  rcases c.holds s o with fault | _ | _ <;> rfl

/-- Without an object no membership is decided, so the same is decided, bound or not. -/
theorem toOption_holds_bind_none (roles : Option NameSet) : ∀ c : Condition,
    ((c.bind roles).holds s none).toOption = (c.holds s none).toOption := by
  refine byParts (fun _ => rfl) (fun _ => rfl) (fun _ => rfl) (fun _ _ => rfl) rfl ?allOf ?anyOf
  case allOf =>
    intro parts ih
    rw [bind, holds, holds]
    induction parts with
    | nil => rfl
    | cons c cs ihcs =>
      obtain ⟨hc, hcs⟩ := List.forall_mem_cons.1 ih
      rw [bindAll, toOption_allHold_cons, toOption_allHold_cons, hc, ihcs hcs]
  case anyOf =>
    intro parts ih
    rw [bind, holds, holds]
    induction parts with
    | nil => rfl
    | cons c cs ihcs =>
      obtain ⟨hc, hcs⟩ := List.forall_mem_cons.1 ih
      rw [bindAll, toOption_anyHolds_cons, toOption_anyHolds_cons, hc, ihcs hcs]

/-- With an object or without, a condition holds if it does so with its memberships bound. -/
theorem holds_of_holds_bind {roles : Option NameSet} {o : Option Record} {c : Condition}
    (h : (c.bind roles).holds s o = .ok true) : c.holds s o = .ok true := by
  cases o with
  | some r =>
    rw [holds_some, Except.ok.injEq] at h ⊢
    exact holdsOn_of_holdsOn_bind roles c h
  | none =>
    have hsame := toOption_holds_bind_none (s := s) roles c
    rw [h] at hsame
    cases hholds : c.holds s none with
    | error fault => rw [hholds] at hsame; cases hsame
    | ok b => rw [hholds] at hsame; cases hsame; rfl

/-! ### What binding reaches -/

mutual

/-- The condition with the roles of all memberships left open. -/
def leftOpen : Condition → Condition
  | .member _ => .member none
  | .allOf parts => .allOf (allLeftOpen parts)
  | .anyOf parts => .anyOf (allLeftOpen parts)
  | c => c

/-- The conditions with the roles of all memberships left open. -/
def allLeftOpen : List Condition → List Condition
  | [] => []
  | c :: cs => leftOpen c :: allLeftOpen cs

end

@[simp] theorem allLeftOpen_eq_map (cs : List Condition) : allLeftOpen cs = cs.map leftOpen := by
  induction cs with
  | nil => rw [allLeftOpen, List.map_nil]
  | cons c cs ih => rw [allLeftOpen, List.map_cons, ih]

/-- Binding changes nothing but the roles of memberships. -/
theorem leftOpen_bind (roles : Option NameSet) : ∀ c : Condition,
    (c.bind roles).leftOpen = c.leftOpen := by
  refine byParts (fun _ => rfl) (fun _ => rfl) (fun _ => rfl) (fun _ _ => rfl) rfl ?allOf ?anyOf
  case allOf =>
    intro parts ih
    rw [bind, leftOpen, leftOpen, bindAll_eq_map, allLeftOpen_eq_map, allLeftOpen_eq_map,
      List.map_map]
    exact congrArg allOf (List.map_congr_left ih)
  case anyOf =>
    intro parts ih
    rw [bind, leftOpen, leftOpen, bindAll_eq_map, allLeftOpen_eq_map, allLeftOpen_eq_map,
      List.map_map]
    exact congrArg anyOf (List.map_congr_left ih)

/-- A condition that is found in another one, at any depth. -/
inductive FoundIn (d : Condition) : Condition → Prop
  | self : FoundIn d d
  | allOf {c : Condition} {parts : List Condition} : c ∈ parts → FoundIn d c →
    FoundIn d (.allOf parts)
  | anyOf {c : Condition} {parts : List Condition} : c ∈ parts → FoundIn d c →
    FoundIn d (.anyOf parts)

/-- All memberships in a condition are bound to some roles. -/
def IsBound (c : Condition) : Prop := ∀ roles, FoundIn (.member roles) c → roles ≠ none

/-- Whatever is bound to roles has no unbound membership left in it. -/
theorem isBound_bind (names : NameSet) : ∀ c : Condition, (c.bind (some names)).IsBound := by
  refine byParts (fun _ => nofun) (fun _ => nofun) ?member (fun _ _ => nofun) nofun ?allOf ?anyOf
  case member =>
    intro bound roles h
    cases bound with
    | none =>
      cases h
      exact nofun
    | some bound =>
      cases h
      exact nofun
  case allOf =>
    intro parts ih roles h
    rw [bind, bindAll_eq_map] at h
    cases h with
    | allOf hmem hfound =>
      obtain ⟨c, hc, rfl⟩ := List.mem_map.1 hmem
      exact ih c hc roles hfound
  case anyOf =>
    intro parts ih roles h
    rw [bind, bindAll_eq_map] at h
    cases h with
    | anyOf hmem hfound =>
      obtain ⟨c, hc, rfl⟩ := List.mem_map.1 hmem
      exact ih c hc roles hfound

/-- What is bound stays as it is, whatever it is bound to after that. -/
theorem bind_eq_self_of_isBound (roles : Option NameSet) : ∀ c : Condition,
    c.IsBound → c.bind roles = c := by
  refine byParts (fun _ _ => rfl) (fun _ _ => rfl) ?member (fun _ _ _ => rfl) (fun _ => rfl)
    ?allOf ?anyOf
  case member =>
    intro bound h
    cases bound with
    | none => exact absurd rfl (h none .self)
    | some bound => rfl
  case allOf =>
    intro parts ih h
    have hparts : ∀ c ∈ parts, c.bind roles = c := fun c hc =>
      ih c hc fun bound hfound => h bound (.allOf hc hfound)
    rw [bind, bindAll_eq_map, List.map_congr_left hparts, List.map_id']
  case anyOf =>
    intro parts ih h
    have hparts : ∀ c ∈ parts, c.bind roles = c := fun c hc =>
      ih c hc fun bound hfound => h bound (.anyOf hc hfound)
    rw [bind, bindAll_eq_map, List.map_congr_left hparts, List.map_id']

end Authorization.Condition
