import Authorization.Policy.Compilation
import Authorization.Proofs.Sorted.Agreement
import Mathlib.Data.List.Perm.Basic

/-!
# Compiled policies

Every policy that compiling comes to is that of one declaration: its grants are
derived from those that the declaration writes (`Catalogue.exists_of_mem_compile`).
Declarations compile if each does for itself and no two have one name
(`Catalogue.compile_eq_ok_iff`).
-/

namespace Authorization

/-- What comes of two operations in turn: the first one came to something. -/
theorem exists_of_bind_eq_ok {ε α β : Type} {x : Except ε α} {f : α → Except ε β} {b : β}
    (h : x >>= f = .ok b) : ∃ a, x = .ok a ∧ f a = .ok b := by
  cases x with
  | error e => cases h
  | ok a => exact ⟨a, rfl, h⟩

/-- A policy is what a declaration comes to in a catalogue, from the grants that it writes. -/
structure Policy.IsCompiled (p : Policy) (c : Catalogue) (d : Declaration) (raw : GrantMap) :
    Prop where
  /-- The grants that are written. -/
  written : d.rawGrants c = .ok raw
  /-- The roles are as declared. -/
  roles : p.roles = d.roles
  /-- The grants for decisions. -/
  live : p.live = c.liveGrants d.roles raw
  /-- The grants for the database. -/
  database : p.database = c.databaseGrants raw

namespace Catalogue

variable {c : Catalogue} {ds : List Declaration} {ps : List Policy} {p : Policy}

theorem exists_of_compilePolicy {d : Declaration} (h : c.compilePolicy d = .ok p) :
    ∃ raw, p.IsCompiled c d raw := by
  obtain ⟨raw, hraw, h⟩ := exists_of_bind_eq_ok h
  obtain ⟨powers, _, h⟩ := exists_of_bind_eq_ok h
  cases h
  exact ⟨raw, hraw, rfl, rfl, rfl⟩

theorem compilePolicy_of_rawGrants {d : Declaration} {raw : GrantMap} {powers : SortedSet Power}
    (hraw : d.rawGrants c = .ok raw) (hpowers : c.powers d.name raw = .ok powers) :
    c.compilePolicy d = .ok
      ⟨d.name, d.roles, powers, c.liveGrants d.roles raw, c.databaseGrants raw⟩ := by
  rw [compilePolicy, hraw]
  show (c.powers d.name raw >>= _) = _
  rw [hpowers]
  rfl

theorem compileAfter_eq_ok_iff {names : List String} : c.compileAfter names ds = .ok ps ↔
    ((ds.map (·.name)).Nodup ∧ ∀ d ∈ ds, d.name ∉ names) ∧
      ds.Forall₂ (fun d p => c.compilePolicy d = .ok p) ps := by
  induction ds generalizing names ps with
  | nil =>
    rw [compileAfter, List.forall₂_nil_left_iff, Except.ok.injEq, eq_comm]
    exact (and_iff_right ⟨List.nodup_nil, fun _ hd => absurd hd List.not_mem_nil⟩).symm
  | cons d ds ih =>
    rw [compileAfter, List.map_cons, List.nodup_cons, List.forall_mem_cons]
    split
    · rename_i hseen
      exact ⟨nofun, fun h => absurd (List.contains_iff_mem.1 hseen) h.1.2.1⟩
    · rename_i hnew
      -- The names before are those that were given, and that of this declaration.
      have hnames : (∀ d' ∈ ds, d'.name ∉ d.name :: names) ↔
          d.name ∉ ds.map (·.name) ∧ ∀ d' ∈ ds, d'.name ∉ names := by
        simp only [List.mem_cons, not_or, List.mem_map, not_exists, not_and, forall_and]
      constructor
      · intro h
        obtain ⟨p, hp, h⟩ := exists_of_bind_eq_ok h
        obtain ⟨rest, hrest, h⟩ := exists_of_bind_eq_ok h
        cases h
        obtain ⟨⟨hnodup, hothers⟩, hall⟩ := ih.1 hrest
        obtain ⟨hname, hothers⟩ := hnames.1 hothers
        exact ⟨⟨⟨hname, hnodup⟩, fun hd => hnew (List.contains_iff_mem.2 hd), hothers⟩,
          .cons hp hall⟩
      · rintro ⟨⟨⟨hname, hnodup⟩, _, hothers⟩, hall⟩
        cases hall with
        | cons hp hrest =>
          rw [hp]
          show (c.compileAfter (d.name :: names) ds >>= fun ps => pure (_ :: ps)) = _
          rw [ih.2 ⟨⟨hnodup, hnames.2 ⟨hname, hothers⟩⟩, hrest⟩]
          rfl

/-- Declarations compile if no two have one name, and each compiles to its policy. -/
theorem compile_eq_ok_iff : c.compile ds = .ok ps ↔
    (ds.map (·.name)).Nodup ∧ ds.Forall₂ (fun d p => c.compilePolicy d = .ok p) ps := by
  rw [compile, compileAfter_eq_ok_iff]
  simp only [List.not_mem_nil, not_false_eq_true, implies_true, and_true]

/-- Declarations compile if no two have one name, and each compiles for itself. -/
theorem exists_compile (hnames : (ds.map (·.name)).Nodup)
    (h : ∀ d ∈ ds, ∃ p, c.compilePolicy d = .ok p) : ∃ ps, c.compile ds = .ok ps := by
  have hall : ∃ ps, ds.Forall₂ (fun d p => c.compilePolicy d = .ok p) ps := by
    clear hnames
    induction ds with
    | nil => exact ⟨[], .nil⟩
    | cons d ds ih =>
      obtain ⟨p, hp⟩ := h d List.mem_cons_self
      obtain ⟨ps, hps⟩ := ih fun d hd => h d (List.mem_cons_of_mem _ hd)
      exact ⟨p :: ps, .cons hp hps⟩
  exact hall.imp fun ps hps => compile_eq_ok_iff.2 ⟨hnames, hps⟩

/-- Declarations compile in any order, to the same policies in that order. -/
theorem exists_compile_of_perm {ds' : List Declaration} (hds : ds.Perm ds')
    (h : c.compile ds = .ok ps) : ∃ ps', c.compile ds' = .ok ps' ∧ ps.Perm ps' := by
  obtain ⟨hnames, hall⟩ := compile_eq_ok_iff.1 h
  obtain ⟨ps', hall', hperm⟩ := List.perm_comp_forall₂ hds.symm hall
  exact ⟨ps', compile_eq_ok_iff.2 ⟨(hds.map _).nodup_iff.1 hnames, hall'⟩, hperm.symm⟩

/-- The compiled policies are those of the declarations, whatever others there are. -/
theorem mem_of_compile (h : c.compile ds = .ok ps) :
    p ∈ ps ↔ ∃ d ∈ ds, c.compilePolicy d = .ok p := by
  have hall := (compile_eq_ok_iff.1 h).2
  refine ⟨hall.exists_left, ?_⟩
  rintro ⟨d, hd, hp⟩
  obtain ⟨q, hq, hpolicy⟩ := hall.exists_right hd
  cases hpolicy.symm.trans hp
  exact hq

/-- A compiled policy is that of one of the declarations. -/
theorem exists_of_mem_compile (h : c.compile ds = .ok ps) (hp : p ∈ ps) :
    ∃ d ∈ ds, ∃ raw, p.IsCompiled c d raw := by
  obtain ⟨d, hd, hp⟩ := (mem_of_compile h).1 hp
  exact ⟨d, hd, exists_of_compilePolicy hp⟩

/-- Policies are compiled in the order of their declarations. -/
theorem isCompiled_of_mem_zip {d : Declaration} {raw : GrantMap} (h : c.compile ds = .ok ps)
    (hp : (d, p) ∈ ds.zip ps) (hraw : d.rawGrants c = .ok raw) : p.IsCompiled c d raw := by
  obtain ⟨raw', hcompiled⟩ :=
    exists_of_compilePolicy (List.forall₂_zip (compile_eq_ok_iff.1 h).2 hp)
  cases hcompiled.written.symm.trans hraw
  exact hcompiled

end Catalogue

end Authorization
