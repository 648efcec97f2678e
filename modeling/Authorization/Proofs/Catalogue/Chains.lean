import Authorization.Catalogue
import Authorization.Proofs.Sorted.Entries

/-!
# Chains of interfaces

In a catalogue that is made of a list, resources are found by their own names
(`Catalogue.keyed_ofList`).

Interfaces form *chains* if a resource that has some lists one, and then all
that this one lists: then it is a direct implementation of the first alone
(`Chain.mem_implementations`), and what it lists is followed upwards by
induction (`Chain`), with no way round in a circle.
-/

namespace Authorization.Catalogue

variable {c : Catalogue} {r i : Resource} {name : String}

/-! ### Keys -/

/-- Resources are found by their own names. -/
def Keyed (c : Catalogue) : Prop := ∀ name r, c.get? name = some r → r.name = name

theorem keyed_ofList {rs : List Resource} (h : ofList rs = .ok c) : c.Keyed := by
  have hresources : c.resources = .ofList (rs.map fun r => (r.name, r)) := by
    rw [ofList] at h
    split at h
    · cases h
      rfl
    · cases h
  intro name r hr
  rw [get?, hresources] at hr
  rcases SortedMap.mem_of_get?_insertAll hr with hmem | hempty
  · obtain ⟨r', _, hr'⟩ := List.mem_map.1 hmem
    cases hr'
    rfl
  · cases hempty

theorem mem_toList_of_get? (h : c.get? name = some r) : r ∈ c.toList :=
  SortedMap.mem_values_of_get? h

theorem Keyed.get?_of_mem (hc : c.Keyed) (h : r ∈ c.toList) : c.get? r.name = some r := by
  obtain ⟨name, hname⟩ := SortedMap.exists_get?_of_mem_values h
  rw [hc name r hname]
  exact hname

/-- Resources are listed in the order of their names. -/
theorem Keyed.pairwise_toList (hc : c.Keyed) : c.toList.Pairwise fun r r' => r.name < r'.name := by
  have hnames : ∀ e ∈ c.resources.toList, e.2.name = e.1 := fun e he =>
    hc e.1 e.2 (SortedMap.get?_eq_some_iff.2 he)
  refine List.pairwise_map.2 (c.resources.increasing.imp_of_mem fun he he' hlt => ?_)
  rw [hnames _ he, hnames _ he']
  exact compareOfLessAndEq_eq_lt.1 hlt

/-! ### Chains -/

/-- The interfaces of a resource that has some are one, and all that this one has. -/
def Chained (c : Catalogue) : Prop :=
  ∀ r ∈ c.toList, r.interfaces = [] ∨
    ∃ i, c.get? i.name = some i ∧ r.interfaces = i.name :: i.interfaces

/-- A resource at the end of a chain of interfaces. -/
inductive Chain (c : Catalogue) : Resource → Prop
  | top {r : Resource} : r.interfaces = [] → Chain c r
  | beneath {r i : Resource} : c.get? i.name = some i → Chain c i →
    r.interfaces = i.name :: i.interfaces → Chain c r

theorem Chained.chain (h : c.Chained) {r : Resource} (hr : r ∈ c.toList) : c.Chain r := by
  -- An interface lists one name less.
  induction hn : r.interfaces.length generalizing r with
  | zero => exact .top (List.eq_nil_of_length_eq_zero hn)
  | succ n ih =>
    rcases h r hr with htop | ⟨i, hi, hbelow⟩
    · exact .top htop
    · refine .beneath hi (ih (mem_toList_of_get? hi) ?_) hbelow
      rw [hbelow, List.length_cons] at hn
      exact Nat.succ.inj hn

namespace Chain

/-- Whatever a resource lists, lists fewer names. -/
theorem length_interfaces_lt (h : c.Chain r) (hname : name ∈ r.interfaces)
    (hi : c.get? name = some i) : i.interfaces.length < r.interfaces.length := by
  induction h with
  | top htop =>
    rw [htop] at hname
    exact absurd hname List.not_mem_nil
  | beneath hj _ hbelow ih =>
    rw [hbelow, List.length_cons]
    rw [hbelow] at hname
    rcases List.mem_cons.1 hname with rfl | hname
    · cases hj.symm.trans hi
      exact Nat.lt_succ_self _
    · exact Nat.lt_succ_of_lt (ih hname)

/-- What a resource lists is in a chain too. -/
theorem of_mem (h : c.Chain r) (hname : name ∈ r.interfaces) (hi : c.get? name = some i) :
    c.Chain i := by
  induction h with
  | top htop =>
    rw [htop] at hname
    exact absurd hname List.not_mem_nil
  | beneath hj hchain hbelow ih =>
    rw [hbelow] at hname
    rcases List.mem_cons.1 hname with rfl | hname
    · cases hj.symm.trans hi
      exact hchain
    · exact ih hname

/-- A resource is a direct implementation of the interface that it lists first. -/
theorem mem_implementations (hr : r ∈ c.toList) (hi : c.get? i.name = some i) (hchain : c.Chain i)
    (hbelow : r.interfaces = i.name :: i.interfaces) : r.name ∈ c.implementations i.name := by
  refine Catalogue.mem_implementations.2 ⟨r, hr, ?_, rfl⟩
  rw [directInterfaces, List.mem_filter, hbelow]
  refine ⟨List.mem_cons_self, ?_⟩
  rw [Bool.not_eq_true', ← Bool.not_eq_true, List.contains_iff_mem]
  -- If another interface listed it, it would list less than itself.
  intro hmem
  obtain ⟨j, hj, hlisted⟩ := List.mem_flatMap.1 hmem
  obtain ⟨name, hname, hget⟩ := List.mem_filterMap.1 hj
  rcases List.mem_cons.1 hname with rfl | hname
  · cases hi.symm.trans hget
    exact absurd (hchain.length_interfaces_lt hlisted hi) (Nat.lt_irrefl _)
  · have hlt := hchain.length_interfaces_lt hname hget
    exact absurd ((hchain.of_mem hname hget).length_interfaces_lt hlisted hi) (Nat.lt_asymm hlt)

end Chain

end Authorization.Catalogue
