import Authorization.Proofs.Catalogue.Ancestors
import Authorization.Proofs.Policy.Powers
import Mathlib.Data.List.Perm.Subperm
import Mathlib.Logic.Function.Iterate
import Mathlib.Logic.Relation

/-!
# Searching for powers

The powers below a resource can be searched for with a list of the names that are
still pending (`Catalogue.Search`). The next of them is taken away; if nothing is
said of it, it is found, and its direct implementations are pending in its place.
What was found before is not remembered on the way.

* `Search.empties_iff`: so the search comes to an end if and only if there is no
  circle below the resource, among those of which nothing is said, and
* `Search.mem_found_iff`: it has then found what is handed down from there.

Together this tells when there are powers, and what they are (`powers_searched`).
A catalogue makes sure that the interfaces are there, not that they never lead back
to where they come from. If they do, the search may go on forever
(`copies_searched`).
-/

namespace Authorization.Catalogue

variable {c : Catalogue} {raw : GrantMap} {name x y : String}

/-! ### One step down -/

/-- What is handed down comes through a direct implementation of which nothing is said. -/
theorem handedDown_iff : c.HandedDown raw x name ↔
    ∃ i ∈ c.implementations name, raw.get? i = none ∧ (x = i ∨ c.HandedDown raw x i) := by
  constructor
  · intro h
    cases h with
    | direct hmem hnone => exact ⟨x, hmem, hnone, .inl rfl⟩
    | further hmem hnone h => exact ⟨_, hmem, hnone, .inr h⟩
  · rintro ⟨i, hmem, hnone, rfl | h⟩
    · exact .direct hmem hnone
    · exact .further hmem hnone h

/-- What is handed down to an implementation of which nothing is said is handed down further. -/
theorem HandedDown.trans (h : c.HandedDown raw y name) (hxy : c.HandedDown raw x y) :
    c.HandedDown raw x name := by
  induction h with
  | direct hmem hnone => exact .further hmem hnone hxy
  | further hmem hnone _ ih => exact .further hmem hnone ih

/-- From a name downwards, through that of which nothing is said, one comes to an end. -/
inductive EndsBelow (c : Catalogue) (raw : GrantMap) : String → Prop
  | said {name : String} : raw.contains name = true → EndsBelow c raw name
  | unsaid {name : String} : (∀ i ∈ c.implementations name, EndsBelow c raw i) →
    EndsBelow c raw name

/-- Something is handed down to a name from itself: there is a circle, and nothing is said of
    any name on it. -/
abbrev OnCircle (c : Catalogue) (raw : GrantMap) (x : String) : Prop := c.HandedDown raw x x

theorem EndsBelow.not_onCircle (h : c.EndsBelow raw name) (hnone : raw.get? name = none) :
    ¬c.OnCircle raw name ∧ ∀ x, c.HandedDown raw x name → ¬c.OnCircle raw x := by
  induction h with
  | said hsaid => rw [SortedMap.contains, hnone] at hsaid; cases hsaid
  | @unsaid name _ ih =>
    have hbelow : ∀ x, c.HandedDown raw x name → ¬c.OnCircle raw x := by
      intro x hx
      obtain ⟨i, hi, hnone, rfl | hx⟩ := handedDown_iff.1 hx
      · exact (ih x hi hnone).1
      · exact (ih i hi hnone).2 x hx
    exact ⟨fun h => hbelow name h h, hbelow⟩

/-- If a name leads to an end, then what is below it is on no circle. -/
theorem not_onCircle_of_forall_endsBelow (h : ∀ i ∈ c.implementations name, c.EndsBelow raw i)
    (hx : c.HandedDown raw x name) : ¬c.OnCircle raw x := by
  obtain ⟨i, hi, hnone, rfl | hx⟩ := handedDown_iff.1 hx
  · exact ((h x hi).not_onCircle hnone).1
  · exact ((h i hi).not_onCircle hnone).2 x hx

/-! ### Going through the implementations -/

section Lookups

variable {α β : Type} {f : α → Option β} {xs : List α}

/-- Several are found if each is. -/
theorem exists_mapM_eq_some (h : ∀ x ∈ xs, ∃ y, f x = some y) : ∃ ys, xs.mapM f = some ys := by
  induction xs with
  | nil => exact ⟨[], rfl⟩
  | cons x xs ih =>
    obtain ⟨y, hy⟩ := h x List.mem_cons_self
    obtain ⟨ys, hys⟩ := ih fun x hx => h x (List.mem_cons_of_mem _ hx)
    exact ⟨y :: ys, by rw [List.mapM_cons, hy, hys]; rfl⟩

end Lookups

/-- Where the names below were gone through, there was an end. -/
theorem endsBelow_of_unsaid? : ∀ {depth : Nat} {name : String} {found : List String},
    c.unsaid? raw depth name = some found → c.EndsBelow raw name
  | 0, _, _, h => by cases h
  | depth + 1, name, found, h => by
    rw [unsaid?] at h
    split at h
    · rename_i hsaid
      exact .said hsaid
    · obtain ⟨parts, hparts, _⟩ := Option.bind_eq_some_iff.1 h
      refine .unsaid fun i hi => ?_
      obtain ⟨part, _, hpart⟩ := (forall₂_of_mapM_eq_some hparts).exists_right hi
      exact endsBelow_of_unsaid? hpart

theorem mem_names_of_mem_implementations (h : x ∈ c.implementations name) :
    x ∈ c.toList.map (·.name) := by
  obtain ⟨r, hr, _, rfl⟩ := mem_implementations.1 h
  exact List.mem_map_of_mem hr

/-- Without a circle below the source there is an end: the names on the way down to a name are
    different ones, so they are not more than there are resources. -/
theorem exists_unsaid?_eq_some {source : String}
    (hcircle : ∀ x, c.HandedDown raw x source → ¬c.OnCircle raw x) :
    ∀ {depth : Nat} {path : List String} {name : String}, path.Nodup →
    path ⊆ c.toList.map (·.name) → name ∈ c.toList.map (·.name) →
    (raw.get? name = none → ∀ above ∈ source :: path, c.HandedDown raw name above) →
    c.toList.length + 1 ≤ path.length + depth → ∃ found, c.unsaid? raw depth name = some found
  | 0, path, _, hnodup, hsub, _, _, hlong => by
    have hshort := (hnodup.subperm hsub).length_le
    rw [List.length_map] at hshort
    omega
  | depth + 1, path, name, hnodup, hsub, hname, hpath, hlong => by
    rw [unsaid?]
    split
    · exact ⟨[], rfl⟩
    · rename_i hunsaid
      have hpath := hpath (SortedMap.get?_of_contains_eq_false (Bool.eq_false_iff.2 hunsaid))
      -- A name that comes again on the way is on a circle.
      have hnew : name ∉ path := fun hmem =>
        hcircle name (hpath source List.mem_cons_self) (hpath name (List.mem_cons_of_mem _ hmem))
      have hparts : ∀ i ∈ (c.implementations name).toList,
          ∃ part, c.unsaid? raw depth i = some part := by
        intro i hi
        refine exists_unsaid?_eq_some hcircle (List.nodup_cons.2 ⟨hnew, hnodup⟩)
          (List.cons_subset.2 ⟨hname, hsub⟩) (mem_names_of_mem_implementations hi) ?_ ?_
        · intro hnone above habove
          have hbelow : c.HandedDown raw i name := .direct hi hnone
          rcases List.mem_cons.1 habove with rfl | habove
          · exact (hpath above List.mem_cons_self).trans hbelow
          rcases List.mem_cons.1 habove with rfl | habove
          · exact hbelow
          · exact (hpath above (List.mem_cons_of_mem _ habove)).trans hbelow
        · rw [List.length_cons]
          omega
      obtain ⟨parts, hparts⟩ := exists_mapM_eq_some hparts
      exact ⟨name :: parts.flatten, by rw [hparts]; rfl⟩

/-- Of a name of which nothing is said the implementations are gone through. -/
theorem exists_parts_of_unsaid? {depth : Nat} {found : List String}
    (h : c.unsaid? raw depth name = some found) (hnone : raw.get? name = none) :
    ∃ depth parts, (c.implementations name).toList.mapM (c.unsaid? raw depth) = some parts ∧
      found = name :: parts.flatten := by
  cases depth with
  | zero => cases h
  | succ depth =>
    rw [unsaid?, SortedMap.contains, hnone] at h
    obtain ⟨parts, hparts, h⟩ := Option.bind_eq_some_iff.1 h
    cases h
    exact ⟨depth, parts, hparts, rfl⟩

/-- Where the implementations of a name were gone through, all that it hands down was found. -/
theorem HandedDown.mem_flatten (h : c.HandedDown raw x name) : ∀ {depth : Nat}
    {parts : List (List String)},
    (c.implementations name).toList.mapM (c.unsaid? raw depth) = some parts →
    x ∈ parts.flatten := by
  induction h with
  | direct hmem hnone =>
    intro depth parts hparts
    obtain ⟨part, hmem, hpart⟩ := (forall₂_of_mapM_eq_some hparts).exists_right hmem
    obtain ⟨_, _, _, rfl⟩ := exists_parts_of_unsaid? hpart hnone
    exact List.mem_flatten_of_mem hmem List.mem_cons_self
  | further hmem hnone _ ih =>
    intro depth parts hparts
    obtain ⟨part, hmem, hpart⟩ := (forall₂_of_mapM_eq_some hparts).exists_right hmem
    obtain ⟨_, _, hparts, rfl⟩ := exists_parts_of_unsaid? hpart hnone
    exact List.mem_flatten_of_mem hmem (List.mem_cons_of_mem _ (ih hparts))

/-- What is found below a name is what is handed down from it. -/
theorem mem_unsaidBelow?_iff {found : List String} (h : c.unsaidBelow? raw name = some found) :
    x ∈ found ↔ c.HandedDown raw x name := by
  obtain ⟨parts, hparts, rfl⟩ := Option.map_eq_some_iff.1 h
  constructor
  · intro hx
    obtain ⟨part, hpart, hx⟩ := List.mem_flatten.1 hx
    obtain ⟨i, hi, hpart⟩ := (forall₂_of_mapM_eq_some hparts).exists_left hpart
    exact handedDown_iff.2 ⟨i, hi, handedDown_of_mem_unsaid? hpart x hx⟩
  · exact fun hx => hx.mem_flatten hparts

/-- Something is found below a name if and only if there is no circle below it. -/
theorem exists_unsaidBelow?_iff : (∃ found, c.unsaidBelow? raw name = some found) ↔
    ∀ x, c.HandedDown raw x name → ¬c.OnCircle raw x := by
  constructor
  · rintro ⟨found, h⟩ x
    obtain ⟨parts, hparts, -⟩ := Option.map_eq_some_iff.1 h
    refine not_onCircle_of_forall_endsBelow fun i hi => ?_
    obtain ⟨part, _, hpart⟩ := (forall₂_of_mapM_eq_some hparts).exists_right hi
    exact endsBelow_of_unsaid? hpart
  · intro hcircle
    have hparts : ∀ i ∈ (c.implementations name).toList,
        ∃ part, c.unsaid? raw (c.toList.length + 1) i = some part := by
      intro i hi
      refine exists_unsaid?_eq_some hcircle List.nodup_nil (List.nil_subset _)
        (mem_names_of_mem_implementations hi) (fun hnone above habove => ?_) (by simp)
      obtain rfl := List.mem_singleton.1 habove
      exact .direct hi hnone
    obtain ⟨parts, hparts⟩ := exists_mapM_eq_some hparts
    exact ⟨parts.flatten, by rw [unsaidBelow?, hparts]; rfl⟩

/-! ### The search -/

/-- A search for that of which nothing is said. -/
structure Search where
  /-- What is still to be looked at, the next first. -/
  pending : List String
  /-- What was found, the last first. -/
  found : List String

namespace Search

variable {s : Search} {rest found : List String}

/-- The search below a resource, before anything was looked at: its implementations are pending,
    the last by name is the next. -/
def below (c : Catalogue) (name : String) : Search := ⟨(c.implementations name).toList.reverse, []⟩

/-- Looks at the next name that is pending. If nothing is said of it, it is found, and its
    implementations are pending instead. -/
def next (c : Catalogue) (raw : GrantMap) : Search → Search
  | ⟨[], found⟩ => ⟨[], found⟩
  | ⟨name :: rest, found⟩ =>
    if raw.contains name then ⟨rest, found⟩
    else ⟨(c.implementations name).toList.reverse ++ rest, name :: found⟩

/-- The search after some steps. -/
def after (c : Catalogue) (raw : GrantMap) (steps : Nat) (s : Search) : Search :=
  (next c raw)^[steps] s

/-- After some number of steps nothing is pending. -/
def Empties (c : Catalogue) (raw : GrantMap) (s : Search) : Prop :=
  ∃ steps, (after c raw steps s).pending = []

theorem after_succ (steps : Nat) : after c raw (steps + 1) s = after c raw steps (next c raw s) :=
  Function.iterate_succ_apply _ _ _

theorem next_said (h : raw.contains name = true) :
    next c raw ⟨name :: rest, found⟩ = ⟨rest, found⟩ := by
  rw [next, if_pos h]

theorem next_unsaid (h : raw.contains name = false) :
    next c raw ⟨name :: rest, found⟩ =
      ⟨(c.implementations name).toList.reverse ++ rest, name :: found⟩ := by
  rw [next, h]
  rfl

/-! ### When it comes to an end -/

theorem Empties.of_next (h : (next c raw s).Empties c raw) : s.Empties c raw := by
  obtain ⟨steps, h⟩ := h
  exact ⟨steps + 1, by rw [after_succ, h]⟩

/-- If each of several names can be put in front of what is pending, so can all. -/
theorem empties_append {names : List String}
    (hnames : ∀ name ∈ names, ∀ rest, (∀ found, (mk rest found).Empties c raw) →
      ∀ found, (mk (name :: rest) found).Empties c raw)
    (h : ∀ found, (mk rest found).Empties c raw) :
    ∀ found, (mk (names ++ rest) found).Empties c raw := by
  induction names with
  | nil => exact h
  | cons name names ih =>
    exact hnames name List.mem_cons_self _ (ih fun name hname =>
      hnames name (List.mem_cons_of_mem _ hname))

/-- What leads to an end can be put in front of what is pending. -/
theorem empties_cons (hname : c.EndsBelow raw name) : ∀ rest,
    (∀ found, (mk rest found).Empties c raw) →
      ∀ found, (mk (name :: rest) found).Empties c raw := by
  induction hname with
  | said hsaid =>
    intro rest h found
    refine .of_next ?_
    rw [next_said hsaid]
    exact h found
  | @unsaid name _ ih =>
    intro rest h found
    refine .of_next ?_
    cases hsaid : raw.contains name with
    | true =>
      rw [next_said hsaid]
      exact h found
    | false =>
      rw [next_unsaid hsaid]
      exact empties_append (fun i hi => ih i (List.mem_reverse.1 hi)) h _

/-- If all that is pending leads to an end, the search does. -/
theorem empties_of_forall_endsBelow (h : ∀ name ∈ s.pending, c.EndsBelow raw name) :
    s.Empties c raw := by
  have hnil : ∀ found, (mk [] found).Empties c raw := fun _ => ⟨0, rfl⟩
  have hempties := empties_append (fun name hname => empties_cons (h name hname)) hnil s.found
  rw [List.append_nil] at hempties
  exact hempties

/-- A search that comes to an end went down to the end from all that was pending. -/
theorem endsBelow_of_after : ∀ {steps : Nat} {s : Search}, (after c raw steps s).pending = [] →
    ∀ name ∈ s.pending, c.EndsBelow raw name
  | 0, s, h, name, hname => by
    rw [show s.pending = [] from h] at hname
    exact absurd hname List.not_mem_nil
  | steps + 1, ⟨[], _⟩, _, _, hname => absurd hname List.not_mem_nil
  | steps + 1, ⟨next :: rest, found⟩, h, name, hname => by
    rw [after_succ] at h
    have ih := endsBelow_of_after h
    cases hsaid : raw.contains next with
    | true =>
      rw [next_said hsaid] at ih
      rcases List.mem_cons.1 hname with rfl | hname
      · exact .said hsaid
      · exact ih name hname
    | false =>
      rw [next_unsaid hsaid] at ih
      rcases List.mem_cons.1 hname with rfl | hname
      · exact .unsaid fun i hi => ih i (List.mem_append_left _ (List.mem_reverse.2 hi))
      · exact ih name (List.mem_append_right _ hname)

/-- The search below a resource comes to an end if and only if there is no circle below it. -/
theorem empties_iff : (below c name).Empties c raw ↔
    ∀ x, c.HandedDown raw x name → ¬c.OnCircle raw x := by
  constructor
  · rintro ⟨steps, h⟩ x
    exact not_onCircle_of_forall_endsBelow fun i hi =>
      endsBelow_of_after h i (List.mem_reverse.2 hi)
  · intro hcircle
    refine empties_of_forall_endsBelow fun i hi => ?_
    obtain ⟨found, h⟩ := exists_unsaidBelow?_iff.2 hcircle
    obtain ⟨parts, hparts, -⟩ := Option.map_eq_some_iff.1 h
    obtain ⟨part, _, hpart⟩ :=
      (forall₂_of_mapM_eq_some hparts).exists_right (List.mem_reverse.1 hi)
    exact endsBelow_of_unsaid? hpart

/-! ### What it finds -/

/-- A name was found, or will be: it is handed down by what is pending. -/
def Covers (c : Catalogue) (raw : GrantMap) (x : String) (s : Search) : Prop :=
  x ∈ s.found ∨ ∃ i ∈ s.pending, raw.get? i = none ∧ (x = i ∨ c.HandedDown raw x i)

/-- A step neither loses a name nor adds one. -/
theorem covers_next : (next c raw s).Covers c raw x ↔ s.Covers c raw x := by
  obtain ⟨_ | ⟨name, rest⟩, found⟩ := s
  · rfl
  · cases hsaid : raw.contains name with
    | true =>
      have hget : raw.get? name ≠ none := Option.isSome_iff_ne_none.1 hsaid
      rw [next_said hsaid, Covers, Covers]
      simp [hget]
    | false =>
      have hnone := SortedMap.get?_of_contains_eq_false hsaid
      have hbelow : c.HandedDown raw x name ↔ ∃ i ∈ (c.implementations name).toList,
          raw.get? i = none ∧ (x = i ∨ c.HandedDown raw x i) := handedDown_iff
      rw [next_unsaid hsaid, Covers, Covers]
      simp only [List.mem_cons, List.mem_append, List.mem_reverse, or_and_right, exists_or,
        exists_eq_left, hnone, true_and, ← hbelow, or_assoc, or_left_comm]

theorem covers_after (steps : Nat) : (after c raw steps s).Covers c raw x ↔ s.Covers c raw x := by
  induction steps generalizing s with
  | zero => rfl
  | succ steps ih => rw [after_succ, ih, covers_next]

/-- A search that has come to an end has found what is handed down from the resource. -/
theorem mem_found_iff {steps : Nat} (h : (after c raw steps (below c name)).pending = []) :
    x ∈ (after c raw steps (below c name)).found ↔ c.HandedDown raw x name := by
  have hend : (after c raw steps (below c name)).Covers c raw x ↔
      x ∈ (after c raw steps (below c name)).found := by
    rw [Covers, h]
    simp
  have hstart : (below c name).Covers c raw x ↔ c.HandedDown raw x name := by
    rw [handedDown_iff, Covers, below]
    simp [SortedSet.mem_def]
  rw [← hend, covers_after, hstart]

end Search

/-! ### The powers of a policy -/

/-- There are powers if and only if there is no circle below what can be created. -/
theorem exists_powers?_iff : (∃ powers, c.powers? raw = some powers) ↔
    ∀ name ∈ creatable raw, ∀ x, c.HandedDown raw x name → ¬c.OnCircle raw x := by
  constructor
  · rintro ⟨powers, h⟩ name hname
    obtain ⟨parts, hparts, -⟩ := Option.map_eq_some_iff.1 h
    obtain ⟨part, _, hpart⟩ := (forall₂_of_mapM_eq_some hparts).exists_right hname
    obtain ⟨found, hfound, -⟩ := Option.map_eq_some_iff.1 hpart
    exact exists_unsaidBelow?_iff.1 ⟨found, hfound⟩
  · intro hcircle
    have hparts : ∀ name ∈ creatable raw, ∃ part, c.powersOf? raw name = some part := by
      intro name hname
      obtain ⟨found, hfound⟩ := exists_unsaidBelow?_iff.2 (hcircle name hname)
      exact ⟨(name :: found).map Power.mk, by rw [powersOf?, hfound]; rfl⟩
    obtain ⟨parts, hparts⟩ := exists_mapM_eq_some hparts
    exact ⟨.ofList parts.flatten, by rw [powers?, hparts]; rfl⟩

/-- The powers are on what can be created, and on what is handed down from there. -/
theorem mem_powers?_iff {powers : SortedSet Power} (h : c.powers? raw = some powers) :
    ⟨x⟩ ∈ powers ↔ ∃ name ∈ creatable raw, x = name ∨ c.HandedDown raw x name := by
  constructor
  · intro hx
    obtain ⟨name, g, hg, hfree, hx⟩ := exists_of_mem_powers? h hx
    exact ⟨name, mem_creatable.2 ⟨g, hg, hfree⟩, hx⟩
  · rintro ⟨name, hname, hx⟩
    obtain ⟨parts, hparts, rfl⟩ := Option.map_eq_some_iff.1 h
    obtain ⟨part, hmem, hpart⟩ := (forall₂_of_mapM_eq_some hparts).exists_right hname
    obtain ⟨found, hfound, rfl⟩ := Option.map_eq_some_iff.1 hpart
    refine SortedSet.mem_ofList.2 (List.mem_flatten_of_mem hmem (List.mem_map_of_mem ?_))
    exact List.mem_cons.2 (hx.imp_right (mem_unsaidBelow?_iff hfound).2)

/-- The powers are what the searches have found once they come to an end. -/
theorem powers?_eq_of_pending_eq_nil {steps : String → Nat}
    (h : ∀ name ∈ creatable raw,
      (Search.after c raw (steps name) (.below c name)).pending = []) :
    c.powers? raw = some (.ofList ((creatable raw).flatMap fun name =>
      (name :: (Search.after c raw (steps name) (.below c name)).found).map Power.mk)) := by
  obtain ⟨powers, hpowers⟩ := exists_powers?_iff.2 fun name hname =>
    Search.empties_iff.1 ⟨steps name, h name hname⟩
  rw [hpowers]
  congr 1
  refine SortedSet.ext fun ⟨x⟩ => ?_
  rw [mem_powers?_iff hpowers, SortedSet.mem_ofList, List.mem_flatMap]
  refine exists_congr fun name => and_congr_right fun hname => ?_
  rw [← Search.mem_found_iff (h name hname), ← List.mem_cons,
    List.mem_map_of_injective fun _ _ heq => Power.mk.inj heq]

/-- What is handed down comes to names that list the one it is from, some by way of others. -/
theorem HandedDown.transGen (h : c.HandedDown raw x y) : Relation.TransGen c.Lists x y := by
  induction h with
  | direct hmem _ => exact .single (lists_of_mem_implementations hmem)
  | further hmem _ _ ih => exact .tail ih (lists_of_mem_implementations hmem)

/-- The searches for powers come to an end if and only if there is no circle below what can be
    created, among that of which nothing is said; so they do whenever no resource lists itself,
    by way of others. There are powers if and only if the searches come to an end, and then they
    are what was found. -/
theorem powers_searched (c : Catalogue) (raw : GrantMap) :
    ((∀ name ∈ creatable raw, (Search.below c name).Empties c raw) ↔
      ∀ name ∈ creatable raw, ∀ x, c.HandedDown raw x name → ¬c.OnCircle raw x) ∧
    ((∀ x, ¬Relation.TransGen c.Lists x x) →
      ∀ name ∈ creatable raw, (Search.below c name).Empties c raw) ∧
    ((∃ powers, c.powers? raw = some powers) ↔
      ∀ name ∈ creatable raw, (Search.below c name).Empties c raw) ∧
    ∀ steps : String → Nat,
      (∀ name ∈ creatable raw,
        (Search.after c raw (steps name) (.below c name)).pending = []) →
      c.powers? raw = some (.ofList ((creatable raw).flatMap fun name =>
        (name :: (Search.after c raw (steps name) (.below c name)).found).map Power.mk)) := by
  have hempties : (∀ name ∈ creatable raw, (Search.below c name).Empties c raw) ↔
      ∀ name ∈ creatable raw, ∀ x, c.HandedDown raw x name → ¬c.OnCircle raw x :=
    forall₂_congr fun _ _ => Search.empties_iff
  refine ⟨hempties, fun hlists => ?_, ?_, fun steps h => powers?_eq_of_pending_eq_nil h⟩
  · exact hempties.2 fun name _ x _ hcircle => hlists x hcircle.transGen
  · rw [exists_powers?_iff, hempties]

/-! ### Copies -/

/-- Documents can be drafted. -/
def document : Resource := .ofName "Document"

/-- Drafts are documents. -/
def draft : Resource := { Resource.ofName "Draft" with interfaces := ["Document"] }

/-- Copies are drafts, and so documents. -/
def copy : Resource := { Resource.ofName "Copy" with interfaces := ["Draft", "Document"] }

/-- A catalogue without a circle. -/
def drafts : Catalogue :=
  ⟨.ofList [("Document", document), ("Draft", draft), ("Copy", copy)], rfl⟩

/-- Drafts that are copies as well. -/
def copiedDraft : Resource := { Resource.ofName "Draft" with interfaces := ["Copy", "Document"] }

/-- Copies of which it is only said that they are drafts. -/
def draftCopy : Resource := { Resource.ofName "Copy" with interfaces := ["Draft"] }

/-- A catalogue with a circle: drafts are copies, and these are drafts. -/
def copies : Catalogue :=
  ⟨.ofList [("Document", document), ("Draft", copiedDraft), ("Copy", draftCopy)], rfl⟩

/-- Everyone can create documents. -/
def writers : Declaration := .ofScripts "writers" none [.resource "Document" [.grant [.create]]]

/-- What the policy for documents says. -/
def writersRaw : GrantMap := (writers.rawGrants copies).toOption.getD ∅

/-- Drafts and copies are found in two steps. -/
theorem drafts_searched :
    (∀ name ∈ creatable writersRaw,
      (Search.after drafts writersRaw 2 (.below drafts name)).pending = []) ∧
    drafts.powers? writersRaw = some (.ofList [⟨"Copy"⟩, ⟨"Document"⟩, ⟨"Draft"⟩]) := by
  have hends : ∀ name ∈ creatable writersRaw,
      (Search.after drafts writersRaw 2 (.below drafts name)).pending = [] := by decide
  exact ⟨hends, (powers_searched drafts writersRaw).2.2.2 (fun _ => 2) hends⟩

/-- The catalogue with a circle is one, but the search below documents goes on forever, and the
    policy for them does not compile. -/
theorem copies_searched : ofList [document, copiedDraft, draftCopy] = .ok copies ∧
    writers.rawGrants copies = .ok writersRaw ∧ "Document" ∈ creatable writersRaw ∧
    (∀ steps, (Search.after copies writersRaw steps (.below copies "Document")).pending ≠ []) ∧
    copies.compilePolicy writers =
      .error (.configuration (.circularImplementations "writers")) := by
  have hdraft : copies.HandedDown writersRaw "Draft" "Document" := .direct (by decide) rfl
  have hcopy : copies.HandedDown writersRaw "Copy" "Draft" := .direct (by decide) rfl
  have hcircle : copies.OnCircle writersRaw "Draft" := hcopy.trans (.direct (by decide) rfl)
  refine ⟨rfl, rfl, by decide, fun steps h => ?_, rfl⟩
  exact Search.empties_iff.1 ⟨steps, h⟩ "Draft" hdraft hcircle

end Authorization.Catalogue
