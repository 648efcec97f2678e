import Authorization.Permission
import Authorization.RowSecurity.Statement

/-!
# What the name of a statement tells

The name of a statement is made of its table, its kind and a label, with
underscores between. The table may hold underscores too, and kinds and labels
itself, so a name is taken apart from its end:

* a label is eight hexadecimal digits, or says that the rows are computed; as this
  does not end in eight such digits, no label is the end of another
  (`IsLabel.append_inj`);
* the kinds are equally long.

So the name tells the table, the kind and the label (`Statement.of_name_inj`).
-/

namespace Authorization.RowSecurity

/-! ### Labels -/

/-- How the names of statements end. -/
inductive IsLabel : String → Prop
  /-- The rows are computed by the application. -/
  | computed : IsLabel "calculated"
  /-- The statement stands for a permission. -/
  | permission (p : Permission) : IsLabel p.fingerprint

variable {label label' : String} {xs ys : List Char}

/-- What ends in a fingerprint does not end in the label of what is computed. -/
theorem append_fingerprint_ne (s : String) :
    xs ++ (fingerprint s).toList ≠ ys ++ "calculated".toList := by
  intro h
  have hsplit : "calculated".toList = "ca".toList ++ "lculated".toList := rfl
  rw [hsplit, ← List.append_assoc] at h
  have hlength : (fingerprint s).toList.length = "lculated".toList.length :=
    length_fingerprint s
  have hl : 'l' ∈ (fingerprint s).toList := by
    rw [(List.append_inj' h hlength).2]
    decide
  exact absurd (mem_of_mem_fingerprint hl) (by decide)

/-- No label is the end of another. -/
theorem IsLabel.append_inj (hlabel : IsLabel label) (hlabel' : IsLabel label')
    (h : xs ++ label.toList = ys ++ label'.toList) : xs = ys ∧ label = label' := by
  cases hlabel with
  | computed =>
    cases hlabel' with
    | computed => exact ⟨List.append_cancel_right h, rfl⟩
    | permission p => exact absurd h.symm (append_fingerprint_ne p.id)
  | permission p =>
    cases hlabel' with
    | computed => exact absurd h (append_fingerprint_ne p.id)
    | permission q =>
      have hlength : p.fingerprint.toList.length = q.fingerprint.toList.length :=
        (length_fingerprint p.id).trans (length_fingerprint q.id).symm
      obtain ⟨hxs, hlabel⟩ := List.append_inj' h hlength
      exact ⟨hxs, String.toList_inj.1 hlabel⟩

/-! ### Kinds -/

namespace Kind

/-- The place of a kind among all. -/
def place : Kind → Nat
  | select => 0
  | insert => 1
  | delete => 2

theorem pairwise_all : all.Pairwise fun kind kind' => kind.place < kind'.place := by decide

theorem length_label (kind : Kind) : kind.label.toList.length = 6 := by cases kind <;> rfl

theorem label_inj {kind kind' : Kind} (h : kind.label.toList = kind'.label.toList) :
    kind = kind' := by
  cases kind <;> cases kind' <;> first | rfl | exact absurd h (by decide)

end Kind

/-! ### Names -/

namespace Statement

theorem toList_of_name (r : Resource) (kind : Kind) (label : String) (predicate : List Piece) :
    (of r kind label predicate).name.toList =
      (r.storage.table.toList ++ '_' :: kind.label.toList) ++ ['_'] ++ label.toList := by
  simp [of, String.toList_append]

/-- The name of a statement tells its table, its kind and its label. -/
theorem of_name_inj {r r' : Resource} {kind kind' : Kind} {predicate predicate' : List Piece}
    (hlabel : IsLabel label) (hlabel' : IsLabel label')
    (h : (of r kind label predicate).name = (of r' kind' label' predicate').name) :
    r.storage.table = r'.storage.table ∧ kind = kind' ∧ label = label' := by
  have hchars := congrArg String.toList h
  rw [toList_of_name, toList_of_name] at hchars
  obtain ⟨hfront, hlabels⟩ := hlabel.append_inj hlabel' hchars
  have hlength : ('_' :: kind.label.toList).length = ('_' :: kind'.label.toList).length := by
    rw [List.length_cons, List.length_cons, Kind.length_label, Kind.length_label]
  obtain ⟨htable, hkind⟩ := List.append_inj' (List.append_cancel_right hfront) hlength
  exact ⟨String.toList_inj.1 htable, Kind.label_inj (List.cons.inj hkind).2, hlabels⟩

end Statement

end Authorization.RowSecurity
