import Authorization.Proofs.Condition.Alike
import Authorization.Proofs.Condition.Binding
import Mathlib.Data.List.Basic

/-!
# Leaves

The *leaves* of a condition are the conditions in it that are not made of parts,
in the order in which they stand there. What is gathered from a condition part
by part is gathered from its leaves (`eq_flatMap_leaves`), whatever joins them.
Conditions that are alike have the same leaves in some order
(`Alike.leaves_perm`).
-/

namespace Authorization.Condition

mutual

/-- The conditions in a condition that are not made of parts, in their order. -/
def leaves : Condition → List Condition
  | .allOf parts | .anyOf parts => leavesOfEach parts
  | c => [c]

/-- The leaves of conditions, one condition after the other. -/
def leavesOfEach : List Condition → List Condition
  | [] => []
  | c :: cs => leaves c ++ leavesOfEach cs

end

@[simp] theorem leavesOfEach_eq_flatMap (cs : List Condition) :
    leavesOfEach cs = cs.flatMap leaves := by
  induction cs with
  | nil => rw [leavesOfEach, List.flatMap_nil]
  | cons c cs ih => rw [leavesOfEach, List.flatMap_cons, ih]

@[simp] theorem leaves_allOf (parts : List Condition) :
    (allOf parts).leaves = parts.flatMap leaves := by
  rw [leaves, leavesOfEach_eq_flatMap]

@[simp] theorem leaves_anyOf (parts : List Condition) :
    (anyOf parts).leaves = parts.flatMap leaves := by
  rw [leaves, leavesOfEach_eq_flatMap]

theorem leaves_of_leaf {c : Condition} (h : c.parts? = none) : c.leaves = [c] := by
  cases c with
  | allOf => cases h
  | anyOf => cases h
  | _ => rfl

/-- What is gathered part by part is gathered leaf by leaf. -/
theorem eq_flatMap_leaves {α : Type} (gather ofLeaf : Condition → List α)
    (hleaf : ∀ c, c.parts? = none → gather c = ofLeaf c)
    (hall : ∀ parts, gather (allOf parts) = parts.flatMap gather)
    (hany : ∀ parts, gather (anyOf parts) = parts.flatMap gather) :
    ∀ c, gather c = c.leaves.flatMap ofLeaf := by
  have hone : ∀ {c : Condition}, c.parts? = none → gather c = c.leaves.flatMap ofLeaf := by
    intro c hc
    rw [leaves_of_leaf hc, List.flatMap_singleton, hleaf c hc]
  refine byParts (fun _ => hone rfl) (fun _ => hone rfl) (fun _ => hone rfl) (fun _ _ => hone rfl)
    (hone rfl) ?allOf ?anyOf
  case allOf =>
    intro parts ih
    rw [hall, leaves_allOf, List.flatMap_assoc]
    exact List.flatMap_congr ih
  case anyOf =>
    intro parts ih
    rw [hany, leaves_anyOf, List.flatMap_assoc]
    exact List.flatMap_congr ih

/-- A condition without parts is found in another one just where it is one of its leaves. -/
theorem mem_leaves_iff {d : Condition} (hd : d.parts? = none) :
    ∀ c, d ∈ c.leaves ↔ FoundIn d c := by
  have hleaf : ∀ {c : Condition}, c.parts? = none → (d ∈ c.leaves ↔ FoundIn d c) := by
    intro c hc
    rw [leaves_of_leaf hc, List.mem_singleton]
    constructor
    · rintro rfl
      exact .self
    · intro h
      cases h with
      | self => rfl
      | allOf => cases hc
      | anyOf => cases hc
  refine byParts (fun _ => hleaf rfl) (fun _ => hleaf rfl) (fun _ => hleaf rfl)
    (fun _ _ => hleaf rfl) (hleaf rfl) ?allOf ?anyOf
  case allOf =>
    intro parts ih
    rw [leaves_allOf, List.mem_flatMap]
    constructor
    · rintro ⟨c, hc, h⟩
      exact .allOf hc ((ih c hc).1 h)
    · intro h
      cases h with
      | self => cases hd
      | allOf hc h => exact ⟨_, hc, (ih _ hc).2 h⟩
  case anyOf =>
    intro parts ih
    rw [leaves_anyOf, List.mem_flatMap]
    constructor
    · rintro ⟨c, hc, h⟩
      exact .anyOf hc ((ih c hc).1 h)
    · intro h
      cases h with
      | self => cases hd
      | anyOf hc h => exact ⟨_, hc, (ih _ hc).2 h⟩

/-! ### Leaves in another order -/

mutual

/-- Conditions that are alike have the same leaves, in some order. -/
theorem Alike.leaves_perm : ∀ {c d : Condition}, Alike c d → c.leaves.Perm d.leaves
  | _, _, .refl _ => .refl _
  | .allOf as, .allOf bs, .allOf h => by
    rw [leaves_allOf, leaves_allOf]
    exact AlikeParts.leaves_perm h
  | .anyOf as, .anyOf bs, .anyOf h => by
    rw [leaves_anyOf, leaves_anyOf]
    exact AlikeParts.leaves_perm h

theorem AlikeParts.leaves_perm : ∀ {as bs : List Condition}, AlikeParts as bs →
    (as.flatMap leaves).Perm (bs.flatMap leaves)
  | _, _, .nil => .refl _
  | _, _, .cons h hs => by
    rw [List.flatMap_cons, List.flatMap_cons]
    exact (Alike.leaves_perm h).append (AlikeParts.leaves_perm hs)
  | _, _, .swap a b as => (List.Perm.swap a b as).flatMap_right leaves
  | _, _, .trans h h' => (AlikeParts.leaves_perm h).trans (AlikeParts.leaves_perm h')

end

end Authorization.Condition
