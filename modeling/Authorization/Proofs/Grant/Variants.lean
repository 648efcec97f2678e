import Mathlib.Data.List.Induction
import Authorization.Proofs.Grant.Writing

/-!
# What the grants on variants are under

The condition and the restriction to variants are set apart from each other.
Which ones are in force can be told from the steps taken so far: the last of
each since the stage was cleared.

* Whatever is granted on objects is recorded under both of them
  (`VariantGranter.object_finish`).
* A condition is idle while nothing but restrictions follow it. It is reported
  when the stage is cleared, in the end, and when another one takes its place
  (`VariantGranter.records_and_reports`), but not when another one takes its
  place under a restriction: then it is dropped without a trace
  (`VariantGranter.drops_membership`).
-/

namespace Authorization

namespace Stage

variable {s : Stage} {c : Option Condition}

theorem pending_rework : (s.rework c).pending = c.toList := by
  cases c <;> rfl

theorem pending_use : s.use.pending = [] := by
  unfold pending use
  cases s.current <;> rfl

end Stage

namespace VariantStep

/-- Whether the step clears the stage. -/
def clears : VariantStep → Bool
  | .or => true
  | _ => false

/-- The condition that the step stages. -/
def condition? : VariantStep → Option Condition
  | .when c => some c
  | _ => none

/-- The restriction that the step makes. -/
def restriction? : VariantStep → Option Condition
  | .variants names => some (.variant (.ofList names))
  | _ => none

end VariantStep

namespace VariantGranter

/-! ### What the past tells -/

/-- The steps since the stage was cleared, the last one first. -/
def sinceClear (past : List VariantStep) : List VariantStep :=
  past.reverse.takeWhile (!·.clears)

/-- The last condition since the stage was cleared. -/
def lastCondition (past : List VariantStep) : Option Condition :=
  (sinceClear past).findSome? VariantStep.condition?

/-- The last restriction since the stage was cleared. -/
def lastRestriction (past : List VariantStep) : Option Condition :=
  (sinceClear past).findSome? VariantStep.restriction?

/-- The last condition and the last restriction together. -/
def inForce (past : List VariantStep) : Option Condition :=
  match lastCondition past, lastRestriction past with
  | some c, some v => some (.allOf [c, v])
  | some c, none => some c
  | none, some v => some v
  | none, none => none

/-- What is granted under: what is in force, if anything is. -/
def granted (past : List VariantStep) : Permission := (inForce past).elim .allow .when

/-- What a step records on objects: the action it grants, under what is in force. -/
def recorded (past : List VariantStep) : VariantStep → Entries
  | .grant a => [(a, granted past)]
  | _ => []

/-- What is recorded from the past on, to the end. -/
def allRecorded (past : List VariantStep) : List VariantStep → Entries
  | [] => []
  | s :: steps => recorded past s ++ allRecorded (past ++ [s]) steps

/-- What is in force and idle: nothing was granted under it. -/
def idle (past : List VariantStep) : List Condition :=
  match past.getLast? with
  | some (.when _) | some (.variants _) => (inForce past).toList
  | _ => []

/-- What a step reports of what was idle before: with a restriction in force, another condition
    takes the place of the last one and reports nothing. -/
def reported (past : List VariantStep) : VariantStep → List Condition
  | .or => idle past
  | .when _ => if (lastRestriction past).isSome then [] else idle past
  | _ => []

/-- What is reported from the past on, to the end. -/
def allReported (past : List VariantStep) : List VariantStep → List Condition
  | [] => idle past
  | s :: steps => reported past s ++ allReported (past ++ [s]) steps

theorem sinceClear_concat (past : List VariantStep) (s : VariantStep) :
    sinceClear (past ++ [s]) = if s.clears then [] else s :: sinceClear past := by
  rw [sinceClear, List.reverse_append, List.reverse_singleton, List.singleton_append,
    List.takeWhile_cons]
  cases s.clears <;> rfl

theorem lastCondition_concat (past : List VariantStep) (s : VariantStep) :
    lastCondition (past ++ [s]) =
      if s.clears then none else s.condition?.or (lastCondition past) := by
  rw [lastCondition, sinceClear_concat]
  cases s <;> rfl

theorem lastRestriction_concat (past : List VariantStep) (s : VariantStep) :
    lastRestriction (past ++ [s]) =
      if s.clears then none else s.restriction?.or (lastRestriction past) := by
  rw [lastRestriction, sinceClear_concat]
  cases s <;> rfl

theorem inForce_eq_both (past : List VariantStep) :
    inForce past = both (lastCondition past) (lastRestriction past) := by
  rw [inForce]
  cases lastCondition past <;> cases lastRestriction past <;> rfl

theorem inForce_concat (past : List VariantStep) (s : VariantStep) :
    inForce (past ++ [s]) =
      if s.clears then none
      else both (s.condition?.or (lastCondition past))
        (s.restriction?.or (lastRestriction past)) := by
  rw [inForce_eq_both, lastCondition_concat, lastRestriction_concat]
  cases s.clears <;> rfl

theorem idle_concat (past : List VariantStep) (s : VariantStep) :
    idle (past ++ [s]) = if (s.condition?.or s.restriction?).isSome
      then (inForce (past ++ [s])).toList else [] := by
  rw [idle, List.getLast?_concat]
  cases s <;> rfl

/-! ### What the granter keeps -/

/-- What the granter keeps is what the past tells. -/
structure Follows (past : List VariantStep) (g : VariantGranter) : Prop where
  /-- The condition is the last one. -/
  condition : g.condition = lastCondition past
  /-- The restriction is the last one. -/
  restriction : g.restriction = lastRestriction past
  /-- What is staged is in force. -/
  staged : g.base.stage.condition? = inForce past
  /-- What is idle on the stage is idle. -/
  pending : g.base.stage.pending = idle past

variable {past : List VariantStep} {g : VariantGranter}

theorem follows_start (r : Resource) : (start r).Follows [] := ⟨rfl, rfl, rfl, rfl⟩

namespace Follows

/-- A step that grants something uses what is in force, and leaves it there. -/
theorem use (h : g.Follows past) {s : VariantStep} {base : Granter}
    (hstage : base.stage = g.base.stage.use) (hclears : s.clears = false)
    (hcondition : s.condition? = none) (hrestriction : s.restriction? = none) :
    ({ g with base } : VariantGranter).Follows (past ++ [s]) := by
  have hforce : inForce (past ++ [s]) = inForce past := by
    rw [inForce_concat, hclears, hcondition, hrestriction, inForce_eq_both]
    rfl
  refine ⟨?_, ?_, ?_, ?_⟩
  · rw [lastCondition_concat, hclears, hcondition]
    exact h.condition
  · rw [lastRestriction_concat, hclears, hrestriction]
    exact h.restriction
  · rw [hforce, ← h.staged, hstage, Stage.condition?_use]
  · rw [idle_concat, hcondition, hrestriction, hstage, Stage.pending_use]
    rfl

/-- What a step leaves is what the past tells, with the step. -/
theorem step (h : g.Follows past) (s : VariantStep) : (g.step s).Follows (past ++ [s]) := by
  cases s with
  | variants names =>
    have hforce : inForce (past ++ [.variants names]) =
        both g.condition (some (.variant (.ofList names))) := by
      rw [inForce_concat, h.condition]
      rfl
    refine ⟨?_, ?_, ?_, ?_⟩
    · rw [lastCondition_concat]
      exact h.condition
    · rw [lastRestriction_concat]
      rfl
    · rw [hforce]
      exact Stage.condition?_rework _
    · rw [idle_concat, hforce]
      exact Stage.pending_rework
  | grant a => exact h.use rfl rfl rfl rfl
  | when c =>
    have hforce : inForce (past ++ [.when c]) = both (some c) g.restriction := by
      rw [inForce_concat, h.restriction]
      rfl
    refine ⟨?_, ?_, ?_, ?_⟩
    · rw [lastCondition_concat]
      rfl
    · rw [lastRestriction_concat]
      exact h.restriction
    · rw [hforce, VariantGranter.step, VariantGranter.when]
      cases g.restriction with
      | none => rfl
      | some v => exact Stage.condition?_rework _
    · rw [idle_concat, hforce, VariantGranter.step, VariantGranter.when]
      cases g.restriction with
      | none => rfl
      | some v => exact Stage.pending_rework
  | or =>
    refine ⟨?_, ?_, ?_, ?_⟩
    · rw [lastCondition_concat]
      rfl
    · rw [lastRestriction_concat]
      rfl
    · rw [inForce_concat]
      rfl
    · rw [idle_concat]
      rfl
  | specifically steps => exact h.use rfl rfl rfl rfl
  | children steps => exact h.use rfl rfl rfl rfl

theorem permission_eq (h : g.Follows past) : g.base.stage.permission = granted past := by
  rw [Stage.permission, h.staged, granted]
  cases inForce past <;> rfl

theorem object_step (h : g.Follows past) (s : VariantStep) :
    (g.step s).base.written.object = g.base.written.object ++ recorded past s := by
  cases s with
  | grant a =>
    rw [recorded, ← h.permission_eq]
    rfl
  | when c =>
    rw [VariantGranter.step, VariantGranter.when]
    cases g.restriction <;> exact (List.append_nil _).symm
  | variants _ | or | specifically _ | children _ => exact (List.append_nil _).symm

/-- What is recorded from here on. -/
theorem object_run (h : g.Follows past) (steps : List VariantStep) :
    (g.run steps).base.written.object = g.base.written.object ++ allRecorded past steps := by
  induction steps generalizing past g with
  | nil => exact (List.append_nil _).symm
  | cons s steps ih =>
    refine (ih (h.step s)).trans ?_
    rw [h.object_step, allRecorded, List.append_assoc]

theorem unused_step (h : g.Follows past) (s : VariantStep) :
    (g.step s).base.stage.unused = g.base.stage.unused ++ reported past s := by
  cases s with
  | when c =>
    rw [reported, VariantGranter.step, VariantGranter.when, ← h.restriction, ← h.pending]
    cases g.restriction with
    | none => rfl
    | some v => exact (List.append_nil _).symm
  | or =>
    rw [reported, ← h.pending]
    rfl
  | variants _ | grant _ | specifically _ | children _ => exact (List.append_nil _).symm

/-- What is reported from here on, but for what is written inside. -/
theorem unused_run (h : g.Follows past) (steps : List VariantStep) :
    (g.run steps).base.stage.allUnused = g.base.stage.unused ++ allReported past steps := by
  induction steps generalizing past g with
  | nil => rw [allReported, ← h.pending]; rfl
  | cons s steps ih =>
    refine (ih (h.step s)).trans ?_
    rw [h.unused_step, allReported, List.append_assoc]

end Follows

/-! ### What is reported -/

/-- The condition in force and the restrictions that follow it are given up: in the end, when the
    stage is cleared, or for another condition with no restriction in force. -/
def GivesUp (past : List VariantStep) : List VariantStep → Prop
  | [] | .or :: _ => True
  | .when _ :: _ => lastRestriction past = none
  | _ => False

variable {before restrictions after steps : List VariantStep} {c d : Condition}

theorem lastCondition_of_restrictions (h : ∀ s ∈ restrictions, s.restriction?.isSome = true) :
    lastCondition (before ++ .when c :: restrictions) = some c := by
  induction restrictions using List.reverseRecOn with
  | nil => exact lastCondition_concat before (.when c)
  | append_singleton restrictions s ih =>
    obtain ⟨hrestrictions, hs⟩ := List.forall_mem_append.1 h
    rw [← List.cons_append, ← List.append_assoc, lastCondition_concat]
    cases s with
    | variants names => exact ih hrestrictions
    | grant _ | when _ | or | specifically _ | children _ =>
      exact absurd (hs _ (List.mem_singleton_self _)) Bool.false_ne_true

/-- A condition is idle while nothing but restrictions follow it. -/
theorem idle_of_restrictions (h : ∀ s ∈ restrictions, s.restriction?.isSome = true) :
    idle (before ++ .when c :: restrictions) =
      (inForce (before ++ .when c :: restrictions)).toList := by
  rcases List.eq_nil_or_concat restrictions with rfl | ⟨restrictions, s, rfl⟩
  · exact idle_concat before (.when c)
  · rw [List.concat_eq_append] at h ⊢
    rw [← List.cons_append, ← List.append_assoc, idle_concat, if_pos]
    have hs := h s (List.mem_append_right _ (List.mem_singleton_self s))
    rw [Option.isSome_or, hs, Bool.or_true]

/-- What is in force with a condition has it as a part. -/
theorem exists_mem_inForce (h : lastCondition past = some c) :
    ∃ d ∈ (inForce past).toList, d = c ∨ ∃ parts, d = .allOf parts ∧ c ∈ parts := by
  rw [inForce, h]
  cases lastRestriction past with
  | none => exact ⟨c, List.mem_singleton_self c, .inl rfl⟩
  | some v => exact ⟨_, List.mem_singleton_self _, .inr ⟨_, rfl, List.mem_cons_self⟩⟩

/-- What is idle when it is given up is reported. -/
theorem mem_allReported_of_idle (h : GivesUp past steps) (hd : d ∈ idle past) :
    d ∈ allReported past steps := by
  match steps, h with
  | [], _ => exact hd
  | .or :: _, _ => exact List.mem_append_left _ hd
  | .when _ :: _, h =>
    refine List.mem_append_left _ ?_
    rw [reported, if_neg (by rw [h]; exact Bool.false_ne_true)]
    exact hd

theorem mem_allReported_append (h : d ∈ allReported (past ++ before) steps) :
    d ∈ allReported past (before ++ steps) := by
  induction before generalizing past with
  | nil => rwa [List.append_nil] at h
  | cons s before ih =>
    rw [List.append_cons] at h
    exact List.mem_append_right _ (ih h)

theorem object_finish (r : Resource) (steps : List VariantStep) :
    ((start r).run steps).finish.object = allRecorded [] steps :=
  (follows_start r).object_run steps

/-- Besides what is reported inside, on properties and relations, the grant reports what the steps
    do. -/
theorem unused_finish (r : Resource) (steps : List VariantStep) :
    ((start r).run steps).finish.unused =
      ((start r).run steps).base.written.unused ++ allReported [] steps :=
  congrArg (_ ++ ·) ((follows_start r).unused_run steps)

/-- Each action is recorded under the last condition and the last restriction since the stage was
    cleared. A condition that is given up with nothing but restrictions after it is reported, by
    itself or with the restriction, unless another one takes its place under a restriction. -/
theorem records_and_reports (r : Resource) (steps : List VariantStep) :
    ((start r).run steps).finish.object = allRecorded [] steps ∧
      ∀ before c restrictions after, steps = before ++ .when c :: restrictions ++ after →
        (∀ s ∈ restrictions, s.restriction?.isSome = true) →
        GivesUp (before ++ .when c :: restrictions) after →
        ∃ d ∈ ((start r).run steps).finish.unused,
          d = c ∨ ∃ parts, d = .allOf parts ∧ c ∈ parts := by
  refine ⟨object_finish r steps, ?_⟩
  rintro before c restrictions after rfl hrestrictions hgivesUp
  have hlast : lastCondition (before ++ .when c :: restrictions) = some c :=
    lastCondition_of_restrictions hrestrictions
  obtain ⟨d, hd, hc⟩ := exists_mem_inForce hlast
  rw [← idle_of_restrictions hrestrictions] at hd
  refine ⟨d, ?_, hc⟩
  rw [unused_finish]
  exact List.mem_append_right _ (mem_allReported_append (mem_allReported_of_idle hgivesUp hd))

/-! ### Projects -/

/-- Projects are active or archived. -/
def project : Resource :=
  { Resource.ofName "Project" with variants := ["active", "archived"] }

/-- The members of active projects are forgotten before everybody may read projects. -/
def forgetful : List VariantStep :=
  [.when .membership, .variants ["active"], .or, .grant .read]

theorem reports_membership :
    forgetful = [] ++ .when .membership :: [.variants ["active"]] ++ [.or, .grant .read] ∧
      ((start project).run forgetful).finish.object = [(.read, .allow)] ∧
      ∃ d ∈ ((start project).run forgetful).finish.unused,
        d = .membership ∨ ∃ parts, d = .allOf parts ∧ .membership ∈ parts := by
  obtain ⟨hobject, hunused⟩ := records_and_reports project forgetful
  exact ⟨rfl, hobject, hunused [] _ [.variants ["active"]] [.or, .grant .read] rfl
    (List.forall_mem_singleton.2 rfl) trivial⟩

/-- On active projects, members are replaced by administrators before anything is granted. -/
def replaced : List VariantStep :=
  [.variants ["active"], .when .membership, .when (.role (.ofList ["admin"])), .grant .read]

/-- That members were given up for administrators is not reported. -/
theorem drops_membership :
    replaced = [.variants ["active"]] ++
        .when .membership :: [] ++ [.when (.role (.ofList ["admin"])), .grant .read] ∧
      (∃ g, Script.grantOnVariants project replaced = .ok g ∧
        g = ((start project).run replaced).finish ∧ g.faults = []) ∧
      ((start project).run replaced).finish.object = [(.read,
        .when (.allOf [.role (.ofList ["admin"]), .variant (.ofList ["active"])]))] ∧
      ((start project).run replaced).finish.unused = [] :=
  ⟨rfl, ⟨_, rfl, rfl, rfl⟩, rfl, rfl⟩

end VariantGranter

end Authorization
