import Authorization.Policy.Compilation
import Authorization.Proofs.Sorted.Agreement

/-!
# Grants in another order

Grants are joined by resource, and the entries in them by key, in the order in
which they were written. If they were written in another order, there are the
same resources and the same keys, and the same entries for each of them in
another order (`Grant.Reordered`, `agree_collect`).
-/

namespace Authorization

/-! ### Entries -/

/-- Entries that are added one after the other are the same for each key, whatever order they are
    added in. -/
theorem agree_foldl_addEntries {es fs : List (String × Entries)} (h : es.Perm fs)
    {m n : NameMap Entries} (hmn : m.Agree List.Perm n) :
    (es.foldl (fun m e => addEntries m e.1 e.2) m).Agree List.Perm
      (fs.foldl (fun m e => addEntries m e.1 e.2) n) := by
  refine h.foldl_of_swap (.refl .refl) (fun _ _ _ => .trans fun _ _ _ => .trans) ?_ ?_ hmn
  · intro m n e hmn
    exact hmn.update e.1 fun x y hxy => (hxy.getD .nil).append_right e.2
  · intro m e e'
    refine .update_swap .refl fun _ x => ?_
    rw [Option.getD_some, Option.getD_some, List.append_assoc, List.append_assoc]
    exact List.perm_append_comm.append_left _

theorem agree_joinEntries {m n : NameMap Entries} (hmn : m.Agree List.Perm n)
    (added : NameMap Entries) : (joinEntries m added).Agree List.Perm (joinEntries n added) :=
  agree_foldl_addEntries (.refl added.toList) hmn

theorem agree_joinEntries_swap (m a b : NameMap Entries) :
    (joinEntries (joinEntries m a) b).Agree List.Perm (joinEntries (joinEntries m b) a) := by
  rw [joinEntries, joinEntries, joinEntries, joinEntries, ← List.foldl_append,
    ← List.foldl_append]
  exact agree_foldl_addEntries List.perm_append_comm (.refl .refl m)

/-! ### Grants -/

namespace Grant

/-- What is granted is the same, in another order. -/
structure Reordered (g h : Grant) : Prop where
  /-- What is granted on objects. -/
  object : g.object.Perm h.object
  /-- What is granted on properties. -/
  props : g.props.Agree List.Perm h.props
  /-- What is granted on relations. -/
  relations : g.relations.Agree List.Perm h.relations

namespace Reordered

variable {g h k : Grant}

theorem refl (g : Grant) : g.Reordered g := ⟨.refl _, .refl .refl _, .refl .refl _⟩

theorem trans (hgh : g.Reordered h) (hhk : h.Reordered k) : g.Reordered k where
  object := hgh.object.trans hhk.object
  props := hgh.props.trans (fun _ _ _ => .trans) hhk.props
  relations := hgh.relations.trans (fun _ _ _ => .trans) hhk.relations

theorem join (hgh : g.Reordered h) (k : Grant) : (g.join k).Reordered (h.join k) where
  object := hgh.object.append_right k.object
  props := agree_joinEntries hgh.props k.props
  relations := agree_joinEntries hgh.relations k.relations

/-- Two grants can be joined in either order. -/
theorem join_swap (g a b : Grant) : ((g.join a).join b).Reordered ((g.join b).join a) where
  object := by
    rw [Grant.join, Grant.join, Grant.join, Grant.join, List.append_assoc, List.append_assoc]
    exact List.perm_append_comm.append_left _
  props := agree_joinEntries_swap g.props a.props b.props
  relations := agree_joinEntries_swap g.relations a.relations b.relations

end Reordered

end Grant

/-- Grants in another order are the same for each resource, in another order. -/
theorem agree_collect {gs hs : List Grant} (h : gs.Perm hs) :
    (collect gs).Agree Grant.Reordered (collect hs) := by
  refine h.foldl_of_swap (.refl .refl) (fun _ _ _ => .trans fun _ _ _ => .trans) ?_ ?_ .empty
  · intro m n g hmn
    exact hmn.update g.resource fun x y hxy => (hxy.getD (.refl _)).join g
  · intro m g g'
    refine .update_swap .refl fun hresource x => ?_
    rw [Option.getD_some, Option.getD_some, hresource]
    exact .join_swap _ g g'

end Authorization
