import Authorization.Sorted.Set

/-!
# Sorted maps

A catalogue maps names to resources, a policy maps resources to grants, and an
entry maps actions to permissions. As with `SortedSet`, the entries are kept in
strictly increasing order of their keys, so a map is listed in one way only
and two maps with the same look-ups are the same map.

* `get?_insert`, `get?_update`, `get?_mapValues`, `get?_filter` say what a look-up
  finds after each operation;
* `ext` says that look-ups determine the map.
-/

namespace Authorization

/-- A finite map, as the list of its entries in increasing order of the keys. -/
structure SortedMap (κ : Type) (α : Type) [Ord κ] where
  /-- The entries, in increasing order of their keys. -/
  toList : List (κ × α)
  /-- Each key comes before all that follow it. -/
  increasing : toList.Pairwise fun a b => compare a.1 b.1 = .lt

namespace SortedMap

variable {κ α β : Type} [Ord κ]

/-! ### Entries in increasing order -/

/-- The value found under a key, in a list of entries. -/
def find (k : κ) : List (κ × α) → Option α
  | [] => none
  | (k', a) :: es =>
    match compare k k' with
    | .lt => none
    | .eq => some a
    | .gt => find k es

/-- The value `f` makes out of what the key `k` had, put at its place. -/
def place (k : κ) (f : Option α → α) : List (κ × α) → List (κ × α)
  | [] => [(k, f none)]
  | (k', a) :: es =>
    match compare k k' with
    | .lt => (k, f none) :: (k', a) :: es
    | .eq => (k', f (some a)) :: es
    | .gt => (k', a) :: place k f es

section Order

variable [Std.TransOrd κ] [Std.LawfulEqOrd κ]

omit [Std.TransOrd κ] [Std.LawfulEqOrd κ] in
theorem key_mem_place {k : κ} {f : Option α → α} {es : List (κ × α)} {e : κ × α}
    (he : e ∈ place k f es) : e.1 = k ∨ ∃ e' ∈ es, e'.1 = e.1 := by
  induction es with
  | nil =>
    rw [place, List.mem_singleton] at he
    exact .inl (he ▸ rfl)
  | cons e' es ih =>
    obtain ⟨k', a⟩ := e'
    rw [place] at he
    split at he
    · rcases List.mem_cons.1 he with rfl | he
      · exact .inl rfl
      · exact .inr ⟨e, he, rfl⟩
    · rcases List.mem_cons.1 he with rfl | he
      · exact .inr ⟨(k', a), List.mem_cons_self, rfl⟩
      · exact .inr ⟨e, List.mem_cons_of_mem _ he, rfl⟩
    · rcases List.mem_cons.1 he with rfl | he
      · exact .inr ⟨(k', a), List.mem_cons_self, rfl⟩
      · rcases ih he with h | ⟨e', he', h⟩
        · exact .inl h
        · exact .inr ⟨e', List.mem_cons_of_mem _ he', h⟩

omit [Std.LawfulEqOrd κ] in
theorem increasing_place {k : κ} {f : Option α → α} {es : List (κ × α)}
    (h : es.Pairwise fun a b => compare a.1 b.1 = .lt) :
    (place k f es).Pairwise fun a b => compare a.1 b.1 = .lt := by
  induction es with
  | nil => simp [place]
  | cons e es ih =>
    obtain ⟨k', a⟩ := e
    rw [List.pairwise_cons] at h
    rw [place]
    split
    · rename_i hk
      refine List.pairwise_cons.2 ⟨fun e he => ?_, List.pairwise_cons.2 h⟩
      rcases List.mem_cons.1 he with rfl | he
      · exact hk
      · exact Std.TransCmp.lt_trans hk (h.1 e he)
    · exact List.pairwise_cons.2 h
    · rename_i hk
      refine List.pairwise_cons.2 ⟨fun e he => ?_, ih h.2⟩
      rcases key_mem_place he with he | ⟨e', he', heq⟩
      · rw [he]
        exact Std.OrientedCmp.lt_of_gt hk
      · rw [← heq]
        exact h.1 e' he'

end Order

/-! ### Maps -/

/-- The map without entries. -/
def empty : SortedMap κ α := ⟨[], .nil⟩

instance : EmptyCollection (SortedMap κ α) := ⟨empty⟩

instance : Inhabited (SortedMap κ α) := ⟨empty⟩

/-- The value under a key, if there is one. -/
def get? (m : SortedMap κ α) (k : κ) : Option α := find k m.toList

/-- Whether there is a value under the key. -/
def contains (m : SortedMap κ α) (k : κ) : Bool := (m.get? k).isSome

/-- The keys, in increasing order. -/
def keys (m : SortedMap κ α) : List κ := m.toList.map Prod.fst

/-- The values, in increasing order of their keys. -/
def values (m : SortedMap κ α) : List α := m.toList.map Prod.snd

/-- The number of entries. -/
def size (m : SortedMap κ α) : Nat := m.toList.length

/-- Whether there are no entries. -/
def isEmpty (m : SortedMap κ α) : Bool := m.toList.isEmpty

/-- The map with each value replaced by the one `f` makes of it. -/
def mapValues (m : SortedMap κ α) (f : κ → α → β) : SortedMap κ β :=
  ⟨m.toList.map fun e => (e.1, f e.1 e.2), List.pairwise_map.2 m.increasing⟩

/-- The entries that `p` keeps. -/
def filter (m : SortedMap κ α) (p : κ → α → Bool) : SortedMap κ α :=
  ⟨m.toList.filter fun e => p e.1 e.2, m.increasing.filter _⟩

instance [DecidableEq κ] [DecidableEq α] : DecidableEq (SortedMap κ α) := fun m n =>
  if h : m.toList = n.toList then
    isTrue (by cases m; cases n; cases h; rfl)
  else
    isFalse fun hmn => h (congrArg toList hmn)

instance [BEq κ] [BEq α] : BEq (SortedMap κ α) := ⟨fun m n => m.toList == n.toList⟩

variable [Std.TransOrd κ] [Std.LawfulEqOrd κ]

/-- The map with the value under `k` made by `f` out of the one there was. -/
def update (m : SortedMap κ α) (k : κ) (f : Option α → α) : SortedMap κ α :=
  ⟨place k f m.toList, increasing_place m.increasing⟩

/-- The map with the value `a` under the key `k`, in place of any other. -/
def insert (m : SortedMap κ α) (k : κ) (a : α) : SortedMap κ α := m.update k fun _ => a

/-- The map of a list of entries; of several entries with one key the last
    stands. -/
def ofList (es : List (κ × α)) : SortedMap κ α :=
  es.foldl (fun m e => m.insert e.1 e.2) empty

/-! ### What look-ups find -/

omit [Std.TransOrd κ] [Std.LawfulEqOrd κ] in
@[simp] theorem get?_empty {k : κ} : (∅ : SortedMap κ α).get? k = none := rfl

theorem find_eq_some_iff {k : κ} {a : α} {es : List (κ × α)}
    (h : es.Pairwise fun a b => compare a.1 b.1 = .lt) :
    find k es = some a ↔ (k, a) ∈ es := by
  induction es with
  | nil => simp [find]
  | cons e es ih =>
    obtain ⟨k', b⟩ := e
    rw [List.pairwise_cons] at h
    rw [find, List.mem_cons]
    split
    · rename_i hk
      simp only [reduceCtorEq, false_iff, not_or]
      refine ⟨fun heq => ?_, fun hm => ?_⟩
      · obtain ⟨rfl, rfl⟩ := Prod.mk.inj heq
        exact Std.OrientedCmp.not_lt_of_lt hk hk
      · exact Std.OrientedCmp.not_lt_of_lt hk (h.1 _ hm)
    · rename_i hk
      rw [← Std.LawfulEqCmp.eq_of_compare hk]
      refine ⟨fun heq => .inl (by rw [Option.some.inj heq]), fun hm => ?_⟩
      rcases hm with heq | hm
      · rw [(Prod.mk.inj heq).2]
      · have := h.1 _ hm
        rw [← Std.LawfulEqCmp.eq_of_compare hk] at this
        exact absurd this fun hlt => Std.OrientedCmp.not_lt_of_lt hlt hlt
    · rename_i hk
      rw [ih h.2]
      refine ⟨.inr, fun hm => hm.resolve_left fun heq => ?_⟩
      obtain ⟨rfl, rfl⟩ := Prod.mk.inj heq
      have := Std.OrientedCmp.lt_of_gt hk
      exact Std.OrientedCmp.not_lt_of_lt this this

/-- A look-up finds exactly the entries of the map. -/
theorem get?_eq_some_iff {m : SortedMap κ α} {k : κ} {a : α} :
    m.get? k = some a ↔ (k, a) ∈ m.toList :=
  find_eq_some_iff m.increasing

theorem contains_eq_true {m : SortedMap κ α} {k : κ} :
    m.contains k = true ↔ k ∈ m.keys := by
  rw [contains, Option.isSome_iff_exists, keys]
  simp [get?_eq_some_iff]

omit [Std.LawfulEqOrd κ] in
theorem find_place_self {k : κ} {f : Option α → α} {es : List (κ × α)} :
    find k (place k f es) = some (f (find k es)) := by
  induction es with
  | nil => simp [place, find]
  | cons e es ih =>
    obtain ⟨k', a⟩ := e
    rw [place]
    split
    · rename_i hk
      simp [find, hk]
    · rename_i hk
      simp [find, hk]
    · rename_i hk
      simp [find, hk, ih]

theorem find_place_of_ne {k k' : κ} {f : Option α → α} {es : List (κ × α)} (hne : k' ≠ k)
    (h : es.Pairwise fun a b => compare a.1 b.1 = .lt) :
    find k' (place k f es) = find k' es := by
  refine Option.ext fun a => ?_
  rw [find_eq_some_iff (increasing_place h), find_eq_some_iff h]
  clear h
  induction es with
  | nil => simp [place, hne]
  | cons e es ih =>
    obtain ⟨k₁, a₁⟩ := e
    rw [place]
    split
    · simp [hne]
    · rename_i hk
      simp [← Std.LawfulEqCmp.eq_of_compare hk, hne]
    · simp [ih]

theorem get?_update {m : SortedMap κ α} {k k' : κ} {f : Option α → α} [DecidableEq κ] :
    (m.update k f).get? k' = if k' = k then some (f (m.get? k)) else m.get? k' := by
  split
  · rename_i h
    rw [h]
    exact find_place_self
  · rename_i h
    exact find_place_of_ne h m.increasing

theorem get?_insert {m : SortedMap κ α} {k k' : κ} {a : α} [DecidableEq κ] :
    (m.insert k a).get? k' = if k' = k then some a else m.get? k' :=
  get?_update

theorem get?_mapValues {m : SortedMap κ α} {f : κ → α → β} {k : κ} :
    (m.mapValues f).get? k = (m.get? k).map (f k) := by
  refine Option.ext fun b => ?_
  rw [get?_eq_some_iff, Option.map_eq_some_iff]
  simp only [mapValues, List.mem_map, Prod.mk.injEq]
  refine ⟨fun ⟨e, he, hk, hb⟩ => ?_, fun ⟨a, ha, hb⟩ => ?_⟩
  · subst hk
    exact ⟨e.2, get?_eq_some_iff.2 he, hb⟩
  · exact ⟨(k, a), get?_eq_some_iff.1 ha, rfl, hb⟩

theorem get?_filter {m : SortedMap κ α} {p : κ → α → Bool} {k : κ} :
    (m.filter p).get? k = (m.get? k).filter (p k) := by
  refine Option.ext fun a => ?_
  rw [get?_eq_some_iff, Option.filter_eq_some_iff, get?_eq_some_iff]
  simp [filter]

/-! ### A map is determined by its look-ups -/

omit [Std.LawfulEqOrd κ] in
private theorem entries_eq_of_find : ∀ {es fs : List (κ × α)},
    es.Pairwise (fun a b => compare a.1 b.1 = .lt) →
    fs.Pairwise (fun a b => compare a.1 b.1 = .lt) →
    (∀ e, e ∈ es ↔ e ∈ fs) → es = fs
  | [], [], _, _, _ => rfl
  | [], f :: _, _, _, h => absurd ((h f).2 List.mem_cons_self) List.not_mem_nil
  | e :: _, [], _, _, h => absurd ((h e).1 List.mem_cons_self) List.not_mem_nil
  | e :: es, f :: fs, he, hf, h => by
    rw [List.pairwise_cons] at he hf
    have hef : e = f := by
      rcases List.mem_cons.1 ((h e).1 List.mem_cons_self) with hef | hef
      · exact hef
      rcases List.mem_cons.1 ((h f).2 List.mem_cons_self) with hfe | hfe
      · exact hfe.symm
      exact absurd (he.1 f hfe) (Std.OrientedCmp.not_lt_of_lt (hf.1 e hef))
    subst hef
    have irrefl : ¬compare e.1 e.1 = .lt := fun h => Std.OrientedCmp.not_lt_of_lt h h
    refine congrArg _ (entries_eq_of_find he.2 hf.2 fun z => ⟨fun hz => ?_, fun hz => ?_⟩)
    · rcases List.mem_cons.1 ((h z).1 (List.mem_cons_of_mem _ hz)) with rfl | hz'
      · exact absurd (he.1 z hz) irrefl
      · exact hz'
    · rcases List.mem_cons.1 ((h z).2 (List.mem_cons_of_mem _ hz)) with rfl | hz'
      · exact absurd (hf.1 z hz) irrefl
      · exact hz'

/-- Two maps with the same look-ups are the same map. -/
theorem ext {m n : SortedMap κ α} (h : ∀ k, m.get? k = n.get? k) : m = n := by
  have hmem : ∀ e, e ∈ m.toList ↔ e ∈ n.toList := fun ⟨k, a⟩ => by
    rw [← get?_eq_some_iff, ← get?_eq_some_iff, h]
  obtain ⟨es, he⟩ := m
  obtain ⟨fs, hf⟩ := n
  have : es = fs := entries_eq_of_find he hf hmem
  subst this
  rfl

end SortedMap

/-- A map from names. -/
abbrev NameMap (α : Type) := SortedMap String α

end Authorization
