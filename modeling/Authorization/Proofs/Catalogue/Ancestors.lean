import Authorization.Proofs.Catalogue.Chains
import Mathlib.Data.Set.Card
import Mathlib.Logic.Relation
import Mathlib.Order.CompletePartialOrder

/-!
# The way up to an interface

A resource lists its interfaces, near and far, in whatever order, and need not
list what these list in turn. A direct implementation is one that lists an
interface, with none of the others that it lists in between
(`Catalogue.mem_implementations_iff`).

* `Catalogue.interfaces_reached`: nothing is lost by keeping direct
  implementations only. If no resource lists itself, by way of others, they still
  lead from a resource up to each interface that it lists.

For whatever lies between a resource and an interface that it lists, there are
fewer names between it and either of them (`Catalogue.between_ssubset_below`,
`Catalogue.between_ssubset_above`), so in the end all steps are direct.
-/

namespace Authorization.Catalogue

variable {c : Catalogue} {x y z : String}

/-! ### Lists -/

/-- One resource lists another as an interface. -/
def Lists (c : Catalogue) (x y : String) : Prop := ∃ r ∈ c.toList, r.name = x ∧ y ∈ r.interfaces

theorem lists_of_mem_implementations (h : x ∈ c.implementations y) : c.Lists x y := by
  obtain ⟨r, hr, hdirect, hname⟩ := mem_implementations.1 h
  exact ⟨r, hr, hname, (List.mem_filter.1 hdirect).1⟩

/-- Where resources list only what ranks higher, none lists itself, by way of others. -/
theorem not_transGen_lists_self (rank : String → Nat)
    (h : ∀ r ∈ c.toList, ∀ i ∈ r.interfaces, rank r.name < rank i) (x : String) :
    ¬Relation.TransGen c.Lists x x := by
  have hstep : ∀ {x y}, c.Lists x y → rank x < rank y := by
    rintro x y ⟨r, hr, rfl, hy⟩
    exact h r hr y hy
  have hway : ∀ {y}, Relation.TransGen c.Lists x y → rank x < rank y := by
    intro y hxy
    induction hxy with
    | single hxy => exact hstep hxy
    | tail _ hyz ih => exact ih.trans (hstep hyz)
  exact fun hx => Nat.lt_irrefl _ (hway hx)

/-! ### Direct implementations -/

/-- A direct implementation of an interface lists it, and nothing else that it lists does. -/
theorem mem_implementations_iff (hc : c.Keyed) :
    x ∈ c.implementations y ↔ c.Lists x y ∧ ∀ name, c.Lists x name → ¬c.Lists name y := by
  constructor
  · intro h
    refine ⟨lists_of_mem_implementations h, ?_⟩
    obtain ⟨r, hr, hdirect, rfl⟩ := mem_implementations.1 h
    rintro name ⟨r', hr', hsame, hname⟩ ⟨i, hi, rfl, hy⟩
    obtain rfl : r' = r :=
      Option.some.inj ((hc.get?_of_mem hr').symm.trans (hsame ▸ hc.get?_of_mem hr))
    have hinherited : y ∈ (r'.interfaces.filterMap c.get?).flatMap (·.interfaces) :=
      List.mem_flatMap.2 ⟨i, List.mem_filterMap.2 ⟨i.name, hname, hc.get?_of_mem hi⟩, hy⟩
    rw [directInterfaces, List.mem_filter, List.contains_iff_mem.2 hinherited] at hdirect
    exact Bool.false_ne_true hdirect.2
  · rintro ⟨⟨r, hr, rfl, hy⟩, hnone⟩
    refine mem_implementations.2 ⟨r, hr, ?_, rfl⟩
    rw [directInterfaces, List.mem_filter, Bool.not_eq_true', ← Bool.not_eq_true,
      List.contains_iff_mem]
    refine ⟨hy, fun hinherited => ?_⟩
    obtain ⟨i, hi, hy⟩ := List.mem_flatMap.1 hinherited
    obtain ⟨name, hname, hget⟩ := List.mem_filterMap.1 hi
    exact hnone name ⟨r, hr, rfl, hname⟩ ⟨i, mem_toList_of_get? hget, hc name i hget, hy⟩

/-- What lists an interface without being a direct implementation lists something in between. -/
theorem exists_lists_lists (hc : c.Keyed) (h : c.Lists x y) (hx : x ∉ c.implementations y) :
    ∃ z, c.Lists x z ∧ c.Lists z y := by
  rw [mem_implementations_iff hc] at hx
  by_contra hnone
  exact hx ⟨h, fun z hxz hzy => hnone ⟨z, hxz, hzy⟩⟩

/-! ### Between a resource and an interface -/

/-- The names on the ways up from one name to another. -/
def between (c : Catalogue) (x y : String) : Set String :=
  {z | Relation.TransGen c.Lists x z ∧ Relation.TransGen c.Lists z y}

/-- These are names of resources, as there is a way up from them. -/
theorem finite_between : (c.between x y).Finite := by
  refine (c.toList.map (·.name)).finite_toSet.subset ?_
  rintro z ⟨_, hzy⟩
  obtain ⟨_, ⟨r, hr, rfl, _⟩, _⟩ := Relation.TransGen.head'_iff.1 hzy
  exact List.mem_map_of_mem hr

section Acyclic

variable (hacyclic : ∀ x, ¬Relation.TransGen c.Lists x x)
include hacyclic

/-- Less lies between a resource and something in between than up to the interface. -/
theorem between_ssubset_below (hxz : c.Lists x z) (hzy : c.Lists z y) :
    c.between x z ⊂ c.between x y := by
  refine ⟨fun name hname => ⟨hname.1, hname.2.tail hzy⟩, fun hsub => ?_⟩
  have hz : z ∈ c.between x y := ⟨.single hxz, .single hzy⟩
  exact hacyclic z (hsub hz).2

/-- Less lies between something in between and the interface than from the resource upwards. -/
theorem between_ssubset_above (hxz : c.Lists x z) (hzy : c.Lists z y) :
    c.between z y ⊂ c.between x y := by
  refine ⟨fun name hname => ⟨.head hxz hname.1, hname.2⟩, fun hsub => ?_⟩
  have hz : z ∈ c.between x y := ⟨.single hxz, .single hzy⟩
  exact hacyclic z (hsub hz).1

/-- From a resource direct implementations lead up to an interface that it lists. -/
theorem transGen_implementations (hc : c.Keyed) (h : c.Lists x y) :
    Relation.TransGen (fun x y => x ∈ c.implementations y) x y := by
  -- The induction is on the number of names between the two.
  induction hn : (c.between x y).ncard using Nat.strong_induction_on generalizing x y with
  | _ n ih =>
    subst hn
    by_cases hdirect : x ∈ c.implementations y
    · exact .single hdirect
    · obtain ⟨z, hxz, hzy⟩ := exists_lists_lists hc h hdirect
      have hbelow := Set.ncard_lt_ncard (between_ssubset_below hacyclic hxz hzy) finite_between
      have habove := Set.ncard_lt_ncard (between_ssubset_above hacyclic hxz hzy) finite_between
      exact (ih _ hbelow hxz rfl).trans (ih _ habove hzy rfl)

end Acyclic

/-- In a catalogue where no resource lists itself, by way of others, direct implementations lead
    from every resource up to every interface that it lists. In any catalogue, a direct
    implementation lists its interface, and nothing else that it lists does. -/
theorem interfaces_reached {rs : List Resource} (h : ofList rs = .ok c) :
    ((∀ x, ¬Relation.TransGen c.Lists x x) → ∀ r ∈ c.toList, ∀ i ∈ r.interfaces,
      Relation.TransGen (fun x y => x ∈ c.implementations y) r.name i) ∧
    ∀ i, ∀ d ∈ c.implementations i, c.Lists d i ∧ ∀ name, c.Lists d name → ¬c.Lists name i := by
  have hc : c.Keyed := keyed_ofList h
  refine ⟨fun hacyclic r hr i hi => ?_, fun i d hd => (mem_implementations_iff hc).1 hd⟩
  exact transGen_implementations hacyclic hc ⟨r, hr, rfl, hi⟩

/-! ### Vehicles -/

/-- Machines are nothing else. -/
def machine : Resource := .ofName "Machine"

/-- Vehicles are machines. -/
def vehicle : Resource := { Resource.ofName "Vehicle" with interfaces := ["Machine"] }

/-- Cars are vehicles; that they are machines is not said. -/
def car : Resource := { Resource.ofName "Car" with interfaces := ["Vehicle"] }

/-- Taxis are all of these, which is said in no order. -/
def taxi : Resource :=
  { Resource.ofName "Taxi" with interfaces := ["Machine", "Car", "Vehicle"] }

/-- A catalogue of vehicles. -/
def vehicles : Catalogue :=
  ⟨.ofList [("Machine", machine), ("Vehicle", vehicle), ("Car", car), ("Taxi", taxi)], rfl⟩

/-- Taxis are direct implementations of cars alone, from where it is three steps to machines. -/
theorem reached_taxi :
    ofList [machine, vehicle, car, taxi] = .ok vehicles ∧
    (∀ x, ¬Relation.TransGen vehicles.Lists x x) ∧
    Relation.TransGen (fun x y => x ∈ vehicles.implementations y) "Taxi" "Machine" ∧
    "Taxi" ∈ vehicles.implementations "Car" ∧
    ¬vehicles.Lists "Car" "Machine" := by
  have hvehicles : ofList [machine, vehicle, car, taxi] = .ok vehicles := rfl
  have hacyclic : ∀ x, ¬Relation.TransGen vehicles.Lists x x :=
    not_transGen_lists_self ["Taxi", "Car", "Vehicle", "Machine"].idxOf (by decide)
  have htaxi : taxi ∈ vehicles.toList := List.mem_of_getElem? (i := 2) rfl
  obtain ⟨hreached, _⟩ := interfaces_reached hvehicles
  refine ⟨hvehicles, hacyclic, hreached hacyclic taxi htaxi "Machine" (by decide), by decide, ?_⟩
  rintro ⟨r, hr, hname, hmachine⟩
  revert r
  decide

/-- A resource that lists itself is in between itself and what it lists, and so in the way. -/
example : ∃ c, ofList [machine, { vehicle with interfaces := ["Machine", "Vehicle"] }] = .ok c ∧
    c.implementations "Machine" = ∅ := ⟨_, rfl, rfl⟩

end Authorization.Catalogue
