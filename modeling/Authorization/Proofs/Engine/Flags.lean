import Authorization.Proofs.Engine.Enforcement
import Authorization.Proofs.Engine.Securing

/-!
# Flags

Whether a secured key can be read and edited is told three times: by its edge,
by the map of a view, and by a secured record, in which a relation can be edited
if it can be added to or edited.

Of reading all three tell the same, for it means something for every key
(`Edge.supports_read`); and of editing a property they do. Of a relation an edge
says no to what means nothing for its cardinality, but a view and a secured
record ask the privileges on the resource all the same, which fall back on what
is granted on the object. So they tell the same just as far as these *refuse*
what means nothing for the key (`Edge.Refuses`, `Edge.flags_agree`).
-/

namespace Authorization.Edge

variable {e : Engine} {edge : Edge} {a : Action} {p : Privileges} {allowed : Bool}

/-! ### What means something for a key -/

/-- Reading means something for every key. -/
theorem supports_read (edge : Edge) : edge.supports .read = true := by
  rw [supports, Resource.supports]
  cases edge.privileges.resource.relation? edge.key with
  | none => rfl
  | some rel =>
    obtain ⟨cardinality, target⟩ := rel
    cases cardinality <;> rfl

/-- Editing means something for every property. -/
theorem supports_edit_of_prop (h : edge.isRelation = false) : edge.supports .edit = true := by
  rw [isRelation, Option.isSome_eq_false_iff, Option.isNone_iff_eq_none] at h
  rw [supports, Resource.supports, h]
  rfl

/-- The privileges on the resource refuse an action under a key if it means nothing for it. -/
def Refuses (e : Engine) (edge : Edge) (a : Action) : Prop :=
  edge.supports a = false → (e.run (edge.privileges.can a (some edge.key))).1 = .ok false

/-- For a property there is no editing to refuse. -/
theorem refuses_edit_of_prop (h : edge.isRelation = false) : edge.Refuses e .edit :=
  fun hnothing => absurd (supports_edit_of_prop h) (Bool.eq_false_iff.1 hnothing)

/-- What means nothing for its key an edge says no to, whatever the executor decides. -/
theorem run_can_of_decision (h : e.Reachable)
    (hdecision : edge.privileges.decision e.executor a (some edge.key) = .ok allowed) :
    (e.run (edge.can a)).1 = .ok (edge.supports a && allowed) := by
  rw [run_can, Privileges.run_can_of_reachable h, hdecision]
  cases edge.supports a <;> rfl

/-- An edge tells what the executor decides just where what means nothing is refused. -/
theorem eq_and_iff_refuses (h : e.Reachable)
    (hdecision : edge.privileges.decision e.executor a (some edge.key) = .ok allowed) :
    allowed = (edge.supports a && allowed) ↔ edge.Refuses e a := by
  rw [Refuses, Privileges.run_can_of_reachable h, hdecision, Except.ok.injEq]
  cases edge.supports a with
  | true => exact ⟨nofun, fun _ => rfl⟩
  | false => exact ⟨fun hallowed _ => hallowed, fun hrefused => hrefused rfl⟩

/-! ### What is told of a key -/

/-- The flags of a key in the map of a view are those that its edge tells: that of reading always,
    that of editing just where it is refused if it means nothing. -/
structure ReportedAs (e : Engine) (edge : Edge) (flags : SortedMap Action Bool) : Prop where
  /-- Whether the key can be read. -/
  read : ∃ canRead, (e.run (edge.can .read)).1 = .ok canRead ∧ flags.get? .read = some canRead
  /-- Whether the key can be edited. -/
  edit : ∃ canEdit, (e.run (edge.can .edit)).1 = .ok canEdit ∧
    (flags.get? .edit = some canEdit ↔ edge.Refuses e .edit)

/-- The flags of a field are those that its edge tells: of a property both; of a relation, that it
    can be edited if its edge can be added to or edited, unless what means nothing is not
    refused. -/
structure ShownAs (e : Engine) (edge : Edge) (field : SecuredField) : Prop where
  /-- Whether the key can be read. -/
  read : (e.run (edge.can .read)).1 = .ok field.canRead
  /-- Whether a property can be edited. -/
  prop : edge.isRelation = false → (e.run (edge.can .edit)).1 = .ok field.canEdit
  /-- Whether a relation can be added to or edited. -/
  relation : edge.isRelation = true → ∃ canCreate canEdit,
    (e.run (edge.can .create)).1 = .ok canCreate ∧ (e.run (edge.can .edit)).1 = .ok canEdit ∧
      (field.canEdit = (canCreate || canEdit) ↔
        (canCreate || canEdit) = true ∨ edge.Refuses e .create ∧ edge.Refuses e .edit)

/-- An edge is of a secured key. -/
theorem mem_of_of_eq_ok {key : String} (h : of p key = .ok edge) :
    key ∈ p.resource.securedKeys := by
  rw [of] at h
  split at h
  · rename_i hkey
    exact List.contains_iff_mem.1 hkey
  · cases h

theorem reportedAs_of_decisions {flags : SortedMap Action Bool} (h : e.Reachable)
    (hflags : decideAll (fun a => edge.privileges.decision e.executor a (some edge.key))
      Action.onProperty ∅ = .ok flags) : edge.ReportedAs e flags := by
  have hget : ∀ a ∈ Action.onProperty, ∃ allowed,
      edge.privileges.decision e.executor a (some edge.key) = .ok allowed ∧
        flags.get? a = some allowed := fun a ha => (get?_of_decideAll_ok hflags a).1 ha
  obtain ⟨canRead, hread, hreadFlag⟩ := hget .read (by decide)
  obtain ⟨canEdit, hedit, heditFlag⟩ := hget .edit (by decide)
  refine ⟨⟨canRead, ?_, hreadFlag⟩, ⟨_, run_can_of_decision h hedit, ?_⟩⟩
  · rw [run_can_of_decision h hread, supports_read, Bool.true_and]
  · rw [heditFlag, Option.some.injEq, eq_and_iff_refuses h hedit]

theorem shownAs_of_securedField {record : Record} {field : SecuredField} (h : e.Reachable)
    (hdecided : ∀ a, ∃ allowed, edge.privileges.decision e.executor a (some edge.key) = .ok allowed)
    (hfield : edge.privileges.securedField e.executor record edge.key = .ok field) :
    edge.ShownAs e field := by
  obtain ⟨canRead, hread, hfield⟩ := exists_of_bind_eq_ok hfield
  obtain ⟨changeable, hchangeable, hfield⟩ := exists_of_bind_eq_ok hfield
  cases hfield
  obtain ⟨canCreate, hcreate⟩ := hdecided .create
  obtain ⟨canEdit, hedit⟩ := hdecided .edit
  refine ⟨?_, fun hprop => ?_, fun hrelation => ⟨_, _, run_can_of_decision h hcreate,
    run_can_of_decision h hedit, ?_⟩⟩
  · rw [run_can_of_decision h hread, supports_read, Bool.true_and]
  · rw [isRelation] at hprop
    rw [Privileges.changeable, hprop, if_neg Bool.false_ne_true, hedit] at hchangeable
    cases hchangeable
    rw [run_can_of_decision h hedit, supports_edit_of_prop hprop, Bool.true_and]
  · rw [isRelation] at hrelation
    have hdecision : changeable = (canCreate || canEdit) := by
      rw [Privileges.changeable, if_pos hrelation, hcreate] at hchangeable
      cases canCreate with
      | true => exact (Except.ok.inj hchangeable).symm
      | false => exact Except.ok.inj (hchangeable.symm.trans hedit)
    have hflags : ∀ means means' b b' : Bool, (b || b') = (means && b || means' && b') ↔
        (means && b || means' && b') = true ∨ b = (means && b) ∧ b' = (means' && b') := by decide
    rw [← eq_and_iff_refuses h hcreate, ← eq_and_iff_refuses h hedit, hdecision]
    exact hflags _ _ _ _

/-! ### Flags agree -/

/-- With policies, the map of a view, whatever the view remembers that was decided, has every key of
    a resource that there is, and tells of it what its edge tells; so does a secured record. They
    differ only in what means nothing for a key, where it is not refused. -/
theorem flags_agree (h : e.Reachable) {ps : List Policy} {resource : Resource} {memo : Memo}
    (hps : e.executor.policies = some ps)
    (hresource : e.executor.catalogue.get? p.resource.name = some resource)
    (hp : p.isBound = true) (hmemo : View.Sound e.executor p memo e) :
    (∃ m, (View.run memo e (View.toMap p)).1 = .ok m ∧ ∀ key edge, of p key = .ok edge →
      ∃ flags, m.get? key = some flags ∧ edge.ReportedAs e flags) ∧
    ∀ record found, (e.run (p.secure record)).1 = .ok found → ∀ key edge, of p key = .ok edge →
      ∃ field, found.fields.get? key = some field ∧ edge.ShownAs e field := by
  have hdecided := fun key a => Privileges.exists_decision hps hresource hp a (some key)
  refine ⟨?_, fun record found hfound key edge hedge => ?_⟩
  · rw [(View.answers_toMap p memo e hmemo).1]
    cases hm : decideKeys (fun key a => p.decision e.executor a (some key))
        p.resource.securedKeys ∅ with
    | error fault =>
      obtain ⟨key, _, a, _, hfault⟩ := exists_of_decideKeys_error hm
      obtain ⟨allowed, hallowed⟩ := hdecided key a
      cases hfault.symm.trans hallowed
    | ok m =>
      refine ⟨m, rfl, fun key edge hedge => ?_⟩
      cases eq_of_of_eq_ok hedge
      obtain ⟨flags, hflags, hget⟩ := (get?_of_decideAll_ok hm key).1 (mem_of_of_eq_ok hedge)
      exact ⟨flags, hget, reportedAs_of_decisions h hflags⟩
  · rw [Privileges.run_secure_of_bound h hp] at hfound
    cases eq_of_of_eq_ok hedge
    obtain ⟨field, hfield, hget⟩ :=
      Privileges.exists_securedField_of_secured hfound (mem_of_of_eq_ok hedge)
    exact ⟨field, hget, shownAs_of_securedField h (hdecided key) hfield⟩

/-! ### Boards -/

/-- Boards have a title, and cards. -/
def board : Resource :=
  ((Resource.ofName "Board").withProps ["title"]).withRelation "cards" .list "Card"

/-- A catalogue of boards and cards. -/
def boards : Catalogue := ⟨.ofList [("Board", board), ("Card", .ofName "Card")], rfl⟩

/-- Players may read and edit boards. -/
def players : Declaration :=
  .ofScripts "players" (some (.ofList ["player"])) [.resource "Board" [.grant [.read, .edit]]]

/-- An engine for boards. -/
def playing : Engine := ((Engine.ofSettings boards .usual).run (Engine.compile [players])).2

/-- The policies on boards. -/
def boardPolicies : List Policy := (boards.compile [players]).toOption.getD []

/-- The privileges of a player on a board. -/
def playerOnBoard : Privileges :=
  ⟨(Session.ofUser ⟨4⟩).withRoles ["player"], board, some Record.blank⟩

/-- That the title of a board can be edited is told by its edge, the map of a view, and the secured
    board. -/
theorem flags_agree_title : playing.Reachable ∧
    playing.executor.policies = some boardPolicies ∧ playerOnBoard.isBound = true ∧
    View.Sound playing.executor playerOnBoard [] playing ∧
    of playerOnBoard "title" = .ok ⟨playerOnBoard, "title"⟩ ∧
    (∃ m flags, (View.run [] playing (View.toMap playerOnBoard)).1 = .ok m ∧
      m.get? "title" = some flags ∧ flags.get? .edit = some true) ∧
    ∃ found field, (playing.run (playerOnBoard.secure Record.blank)).1 = .ok found ∧
      found.fields.get? "title" = some field ∧ field.canEdit = true := by
  have hreachable : playing.Reachable := .compile _ (.new _ _)
  have hpolicies : playing.executor.policies = some boardPolicies := rfl
  have hsound : View.Sound playing.executor playerOnBoard [] playing :=
    ⟨rfl, hreachable.faithful, nofun⟩
  have hedge : of playerOnBoard "title" = .ok ⟨playerOnBoard, "title"⟩ := rfl
  have hcan : (playing.run (can ⟨playerOnBoard, "title"⟩ .edit)).1 = .ok true := rfl
  obtain ⟨⟨m, hm, hmap⟩, hsecured⟩ := flags_agree hreachable hpolicies
    (p := playerOnBoard) rfl rfl hsound
  obtain ⟨flags, hflags, hreported⟩ := hmap "title" _ hedge
  obtain ⟨canEdit, hedit, hiff⟩ := hreported.edit
  cases hcan.symm.trans hedit
  obtain ⟨found, hfound⟩ : ∃ found,
      (playing.run (playerOnBoard.secure Record.blank)).1 = .ok found := ⟨_, rfl⟩
  obtain ⟨field, hfield, hshown⟩ := hsecured _ found hfound "title" _ hedge
  refine ⟨hreachable, hpolicies, rfl, hsound, hedge, ⟨m, flags, hm, hflags, ?_⟩, found, field,
    hfound, hfield, ?_⟩
  · exact hiff.2 (refuses_edit_of_prop rfl)
  · exact Except.ok.inj ((hshown.prop rfl).symm.trans hcan)

/-- The cards of a board cannot be edited, only added and removed, and players may do neither. So
    the edge says, but a view and the secured board tell that they can be edited, as boards can. -/
theorem edit_cards : playing.Reachable ∧ playing.executor.isCompiled = true ∧
    playerOnBoard.isBound = true ∧
    of playerOnBoard "cards" = .ok ⟨playerOnBoard, "cards"⟩ ∧
    (playing.run (can ⟨playerOnBoard, "cards"⟩ .edit)).1 = .ok false ∧
    (playing.run (can ⟨playerOnBoard, "cards"⟩ .create)).1 = .ok false ∧
    (∃ m flags, (View.run [] playing (View.toMap playerOnBoard)).1 = .ok m ∧
      m.get? "cards" = some flags ∧ flags.get? .edit = some true) ∧
    ∃ found field, (playing.run (playerOnBoard.secure Record.blank)).1 = .ok found ∧
      found.fields.get? "cards" = some field ∧ field.canEdit = true :=
  ⟨.compile _ (.new _ _), rfl, rfl, rfl, rfl, rfl, ⟨_, _, rfl, rfl, rfl⟩, _, _, rfl, rfl, rfl⟩

end Authorization.Edge
