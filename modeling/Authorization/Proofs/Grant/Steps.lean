import Mathlib.Data.List.Induction
import Authorization.Proofs.Grant.Variants

/-!
# What a grant tells of the steps that wrote it

Grants on objects, properties and relations are written step by step, all of them
on a stage for conditions. What there is in the end can be told from the steps
alone (`Grant.Tells`), each taken with those before it (`inTurn`): from the last
condition, the last selection, and whether something was granted between a
condition and the next one. Grants inside start under the condition that was in
force outside.

* `Stage.condition?_moves` and `Stage.allUnused_moves` say what the stage keeps of
  the moves that are made on it;
* `KeyGranter.follows_run` says what is written on properties and relations;
* `Granter.tells_finish` says what is written on a resource.
-/

namespace Authorization

/-! ### Steps in turn -/

section inTurn

variable {σ α : Type} {f : List σ → σ → List α}

/-- What comes of each of the steps after those before it. -/
def inTurn (f : List σ → σ → List α) (past : List σ) : List σ → List α
  | [] => []
  | s :: steps => f past s ++ inTurn f (past ++ [s]) steps

theorem inTurn_append (past steps more : List σ) :
    inTurn f past (steps ++ more) = inTurn f past steps ++ inTurn f (past ++ steps) more := by
  induction steps generalizing past with
  | nil => rw [List.nil_append, List.append_nil, inTurn, List.nil_append]
  | cons s steps ih =>
    rw [List.cons_append, inTurn, inTurn, ih, List.append_assoc, List.append_assoc,
      List.singleton_append]

theorem inTurn_concat (past : List σ) (s : σ) :
    inTurn f [] (past ++ [s]) = inTurn f [] past ++ f past s := by
  rw [inTurn_append, inTurn, inTurn, List.nil_append, List.append_nil]

end inTurn

/-! ### Moves on the stage -/

namespace Stage

/-- What a step does on a stage. -/
inductive Move
  /-- It stages a condition. -/
  | put (c : Condition)
  /-- It clears the stage. -/
  | clear
  /-- It grants something. -/
  | use
  /-- It does nothing there. -/
  | keep

/-- Makes a move. -/
def move (s : Stage) : Move → Stage
  | .put c => s.put c
  | .clear => s.clear
  | .use => s.use
  | .keep => s

/-- Makes moves one after the other. -/
def moves (s : Stage) (ms : List Move) : Stage := ms.foldl move s

namespace Move

/-- Whether the condition before the move is in force no longer. -/
def ends : Move → Bool
  | put _ | clear => true
  | use | keep => false

/-- Whether something is granted. -/
def uses : Move → Bool
  | use => true
  | put _ | clear | keep => false

/-- The condition that is staged. -/
def condition? : Move → Option Condition
  | put c => some c
  | clear | use | keep => none

/-- The condition in force after some moves: the last that was put, unless the stage was cleared
    since, and what there was at first if neither happened. -/
def inForce (first : Option Condition) (ms : List Move) : Option Condition :=
  (ms.reverse.find? ends).elim first condition?

/-- What is granted after some moves: under what is in force, or without condition. -/
def granted (first : Option Condition) (ms : List Move) : Permission :=
  (inForce first ms).elim .allow .when

/-- Whether something is granted before the stage gets another condition or is cleared. -/
def usedNext (ms : List Move) : Bool := (ms.takeWhile (!·.ends)).any uses

/-- The conditions under which nothing is granted, before the next one, the clearing of the stage,
    or the end. -/
def unused : List Move → List Condition
  | [] => []
  | put c :: ms => (if usedNext ms then [] else [c]) ++ unused ms
  | _ :: ms => unused ms

example (c d e : Condition) : unused [put c, keep, use, put d, clear, use, put e] = [d, e] := rfl

theorem inForce_concat (first : Option Condition) (ms : List Move) (m : Move) :
    inForce first (ms ++ [m]) = if m.ends then m.condition? else inForce first ms := by
  rw [inForce, List.reverse_concat, List.find?_cons]
  cases m <;> rfl

end Move

variable {s : Stage}

theorem moves_concat (ms : List Move) (m : Move) : s.moves (ms ++ [m]) = (s.moves ms).move m :=
  List.foldl_concat ..

/-- What is in force after some moves is on the stage. -/
theorem condition?_moves (s : Stage) (ms : List Move) :
    (s.moves ms).condition? = Move.inForce s.condition? ms := by
  induction ms using List.reverseRecOn with
  | nil => rfl
  | append_singleton ms m ih =>
    rw [moves_concat, Move.inForce_concat, ← ih]
    cases m with
    | use => exact condition?_use
    | put _ | clear | keep => rfl

theorem permission_moves (s : Stage) (ms : List Move) :
    (s.moves ms).permission = Move.granted s.condition? ms := by
  rw [permission, condition?_moves, Move.granted]
  cases Move.inForce s.condition? ms <;> rfl

/-- What is unused after some moves: what was before, what is pending if nothing is granted next,
    and what is put and not used among the moves. -/
theorem allUnused_moves (s : Stage) (ms : List Move) :
    (s.moves ms).allUnused =
      s.unused ++ (if Move.usedNext ms then [] else s.pending) ++ Move.unused ms := by
  induction ms generalizing s with
  | nil => exact (List.append_nil _).symm
  | cons m ms ih =>
    refine (ih (s.move m)).trans ?_
    cases m with
    | put c => exact List.append_assoc ..
    | clear =>
      -- What was pending is among what is unused by now.
      change s.allUnused ++ (if Move.usedNext ms then [] else []) ++ Move.unused ms = _
      rw [ite_self, List.append_nil]
      rfl
    | use =>
      change s.unused ++ (if Move.usedNext ms then [] else s.use.pending) ++ Move.unused ms = _
      rw [pending_use, ite_self]
      rfl
    | keep => rfl

/-- From a stage where nothing is pending, what is unused is so among the moves. -/
theorem allUnused_moves_inherit (first : Option Condition) (ms : List Move) :
    ((inherit first).moves ms).allUnused = Move.unused ms := by
  have hpending : (inherit first).pending = [] := by cases first <;> rfl
  rw [allUnused_moves, hpending, ite_self]
  rfl

end Stage

/-! ### Entries under keys -/

/-- The entries under a key to which others are added piece by piece, if any are. -/
def joined : List Entries → Option Entries
  | [] => none
  | pieces => some pieces.flatten

section Entries

variable {m n : NameMap Entries} {key : String} {pieces : List Entries}

theorem joined_getD (pieces : List Entries) : (joined pieces).getD [] = pieces.flatten := by
  cases pieces <;> rfl

theorem joined_concat (pieces : List Entries) (es : Entries) :
    joined (pieces ++ [es]) = some ((joined pieces).getD [] ++ es) := by
  rw [joined_getD, ← List.flatten_concat]
  cases pieces <;> rfl

theorem joined_append_toList_joined (pieces others : List Entries) :
    joined (pieces ++ (joined others).toList) = joined (pieces ++ others) := by
  cases others with
  | nil => rfl
  | cons es others =>
    have hpieces : joined (pieces ++ es :: others) = some (pieces ++ es :: others).flatten := by
      cases pieces <;> rfl
    have hothers : joined (es :: others) = some (es :: others).flatten := rfl
    rw [hpieces, hothers, Option.toList_some, joined_concat, joined_getD, List.flatten_append]

/-- The one value under a key among the entries of a map. -/
theorem map_snd_filter_key {α : Type} (m : NameMap α) (key : String) :
    (m.toList.filter (·.1 == key)).map Prod.snd = (m.get? key).toList := by
  have hnil : ∀ {es : List (String × α)}, (∀ e ∈ es, e.1 ≠ key) →
      es.filter (·.1 == key) = [] := fun h => List.filter_eq_nil_iff.2 fun e he heq =>
    h e he (beq_iff_eq.1 heq)
  cases hfound : m.get? key with
  | none =>
    rw [hnil fun e he heq => ?_]
    · rfl
    · have hget := SortedMap.get?_eq_some_iff.2 he
      rw [heq, hfound] at hget
      cases hget
  | some a =>
    -- The keys before it are smaller, those after it greater.
    obtain ⟨before, after, heq⟩ := List.append_of_mem (SortedMap.get?_eq_some_iff.1 hfound)
    have hincreasing := m.increasing
    rw [heq, List.pairwise_append, List.pairwise_cons] at hincreasing
    obtain ⟨-, ⟨hafter, -⟩, hbefore⟩ := hincreasing
    have hne : ∀ {e f : String × α}, compare e.1 f.1 = .lt → e.1 ≠ f.1 := by
      intro e f hlt heq
      have hself : compare e.1 f.1 = .eq := heq ▸ Std.ReflCmp.compare_self
      cases hself.symm.trans hlt
    rw [heq, List.filter_append, List.filter_cons, if_pos (beq_self_eq_true key),
      hnil fun e he => hne (hbefore e he (key, a) List.mem_cons_self),
      hnil fun e he => (hne (hafter e he)).symm]
    rfl

/-- All that is added under a key is found there, in the same order. -/
theorem get?_foldl_addEntries (es : List (String × Entries)) (h : m.get? key = joined pieces) :
    (es.foldl (fun m e => addEntries m e.1 e.2) m).get? key =
      joined (pieces ++ (es.filter (·.1 == key)).map Prod.snd) := by
  induction es generalizing m pieces with
  | nil => rw [List.filter_nil, List.map_nil, List.append_nil]; exact h
  | cons e es ih =>
    rw [List.foldl_cons, List.filter_cons]
    split
    · rename_i hkey
      rw [List.map_cons, List.append_cons]
      refine ih ?_
      rw [addEntries, SortedMap.get?_update, if_pos (beq_iff_eq.1 hkey).symm, joined_concat,
        beq_iff_eq.1 hkey, h]
    · rename_i hkey
      refine ih ?_
      rw [addEntries, SortedMap.get?_update, if_neg fun heq => hkey (beq_iff_eq.2 heq.symm), h]

/-- Each time a key is there its entries are added. -/
theorem get?_foldl_keys {f : String → Entries} (keys : List String)
    (h : m.get? key = joined pieces) :
    (keys.foldl (fun m key => addEntries m key (f key)) m).get? key =
      joined (pieces ++ List.replicate (keys.count key) (f key)) := by
  have hkeys := get?_foldl_addEntries (keys.map fun key => (key, f key)) h
  rw [List.foldl_map, List.filter_map, List.map_map] at hkeys
  rw [hkeys, ← List.map_replicate, ← List.filter_beq]
  rfl

/-- The entries of one map are put behind those of the other. -/
theorem get?_joinEntries {others : List Entries} (h : m.get? key = joined pieces)
    (hn : n.get? key = joined others) :
    (joinEntries m n).get? key = joined (pieces ++ others) := by
  rw [joinEntries, get?_foldl_addEntries _ h, map_snd_filter_key, hn, joined_append_toList_joined]

end Entries

/-! ### Keys and what can be done with them -/

namespace KeySort

/-- Whether a resource has a key of the sort. -/
def there (r : Resource) (key : String) : KeySort → Bool
  | prop => r.props.contains key
  | relation => r.relations.contains key

/-- What can be done with a key of the sort: a property is read or edited, and so is a relation to
    one resource; one to a list is read, added to and removed from. -/
def doable (r : Resource) (key : String) : KeySort → List Action
  | prop => [.read, .edit]
  | relation =>
    match r.relations.get? key with
    | some ⟨.single, _⟩ => [.read, .edit]
    | some ⟨.list, _⟩ => [.read, .create, .delete]
    | none => []

variable {r : Resource}

theorem has_eq_there (key : String) (sort : KeySort) : sort.has r key = sort.there r key := by
  cases sort <;> rfl

theorem allows_eq_doable (key : String) (a : Action) (sort : KeySort) :
    sort.allows r key a = (sort.doable r key).contains a := by
  cases sort with
  | prop => rfl
  | relation =>
    rw [allows, doable, Resource.relation?]
    cases r.relations.get? key with
    | none => rfl
    | some rel =>
      obtain ⟨cardinality, target⟩ := rel
      cases cardinality <;> rfl

end KeySort

/-! ### Grants on keys -/

namespace KeyStep

/-- What the step does on the stage. -/
def move : KeyStep → Stage.Move
  | select _ => .keep
  | grant _ => .use
  | when c => .put c
  | or => .clear

/-- The keys that the step selects. -/
def selected? : KeyStep → Option (List String)
  | select keys => some keys
  | grant _ | when _ | or => none

end KeyStep

namespace KeyGranter

variable (r : Resource) (sort : KeySort) (first : Option Condition)

/-- The selection after some steps: of the keys that were selected last, those of the resource. -/
def selection (past : List KeyStep) : List String :=
  ((past.reverse.findSome? KeyStep.selected?).getD []).filter (sort.there r ·)

/-- What a step adds to the entries of a key: as often as the key is selected, each action that can
    be done with it, under what is in force. -/
def pieces (key : String) (past : List KeyStep) : KeyStep → List Entries
  | .grant actions =>
    .replicate ((selection r sort past).count key)
      ((actions.filter ((sort.doable r key).contains ·)).map fun a =>
        (a, Stage.Move.granted first (past.map KeyStep.move)))
  | .select _ | .when _ | .or => []

/-- What is wrong with a step: to select keys that the resource does not have, and to grant actions
    that cannot be done. On properties an action is wrong whatever is selected, and once; on
    relations it is as often as one is selected. -/
def wrong (past : List KeyStep) : KeyStep → List GrantFault
  | .select keys =>
    (keys.filter (!sort.there r ·)).map fun key =>
      match sort with
      | .prop => .unknownProp r.name key
      | .relation => .unknownRelation r.name key
  | .grant actions =>
    match sort with
    | .prop =>
      (actions.filter fun a => a != .read && a != .edit).map fun a => .notOnProps a r.name
    | .relation =>
      (selection r .relation past).flatMap fun key =>
        (actions.filter (!(KeySort.doable r key .relation).contains ·)).map fun a =>
          .notOnRelation a r.name key
  | .when _ | .or => []

/-- What a granter keeps of the steps it took. -/
structure Follows (past : List KeyStep) (g : KeyGranter) : Prop where
  /-- It is for the resource. -/
  resource_eq : g.resource = r
  /-- It is for keys of the sort. -/
  sort_eq : g.sort = sort
  /-- It keeps the selection. -/
  selected : g.selected = selection r sort past
  /-- The moves were made on the stage. -/
  stage : g.stage = (Stage.inherit first).moves (past.map KeyStep.move)
  /-- It keeps the entries that were added to each key. -/
  entries (key : String) :
    g.entries.get? key = joined (inTurn (pieces r sort first key) [] past)
  /-- It keeps what was wrong. -/
  faults : g.faults = inTurn (wrong r sort) [] past

variable {r sort first} {past : List KeyStep} {g : KeyGranter}

theorem selection_concat (past : List KeyStep) (st : KeyStep) :
    selection r sort (past ++ [st]) =
      (st.selected?.map (·.filter (sort.there r ·))).getD (selection r sort past) := by
  rw [selection, List.reverse_concat, List.findSome?_cons]
  cases st <;> rfl

/-- What is wrong with selecting keys. -/
theorem wrong_select (past : List KeyStep) (keys : List String) :
    wrong r sort past (.select keys) =
      (keys.filter (!sort.has r ·)).map (sort.unknown r ·) := by
  simp only [wrong, KeySort.has_eq_there]
  cases sort <;> rfl

/-- What is wrong with granting actions on the selected keys. -/
theorem wrong_grant (past : List KeyStep) (actions : List Action) :
    wrong r sort past (.grant actions) = sort.misuse r (selection r sort past) actions := by
  cases sort with
  | prop =>
    have hnot : ∀ a : Action, (a != .read && a != .edit) = !Action.onProperty.contains a :=
      fun a => by cases a <;> rfl
    simp only [wrong, hnot]
    rfl
  | relation =>
    simp only [wrong, ← KeySort.allows_eq_doable]
    rfl

namespace Follows

theorem permission_eq (h : g.Follows r sort first past) :
    g.stage.permission = Stage.Move.granted first (past.map KeyStep.move) := by
  rw [h.stage, Stage.permission_moves, Stage.condition?_inherit]

theorem selected_step (h : g.Follows r sort first past) (st : KeyStep) :
    (g.step st).selected = selection r sort (past ++ [st]) := by
  obtain rfl := h.resource_eq
  obtain rfl := h.sort_eq
  rw [selection_concat]
  cases st with
  | select keys =>
    refine congrArg keys.filter (funext fun key => ?_)
    exact KeySort.has_eq_there key g.sort
  | grant _ | when _ | or => exact h.selected

theorem stage_step (h : g.Follows r sort first past) (st : KeyStep) :
    (g.step st).stage = (Stage.inherit first).moves ((past ++ [st]).map KeyStep.move) := by
  rw [List.map_append, List.map_singleton, Stage.moves_concat, ← h.stage]
  cases st <;> rfl

theorem entries_step (h : g.Follows r sort first past) (st : KeyStep) (key : String) :
    (g.step st).entries.get? key =
      joined (inTurn (pieces r sort first key) [] (past ++ [st])) := by
  obtain rfl := h.resource_eq
  obtain rfl := h.sort_eq
  rw [inTurn_concat]
  cases st with
  | grant actions =>
    simp only [pieces, ← h.selected, ← h.permission_eq, ← KeySort.allows_eq_doable]
    exact get?_foldl_keys g.selected (h.entries key)
  | select _ | when _ | or =>
    rw [pieces, List.append_nil]
    exact h.entries key

theorem faults_step (h : g.Follows r sort first past) (st : KeyStep) :
    (g.step st).faults = inTurn (wrong r sort) [] (past ++ [st]) := by
  obtain rfl := h.resource_eq
  obtain rfl := h.sort_eq
  rw [inTurn_concat, ← h.faults]
  cases st with
  | grant actions =>
    rw [wrong_grant, ← h.selected]
    rfl
  | select keys =>
    rw [wrong_select]
    rfl
  | when _ | or => exact (List.append_nil _).symm

/-- What is written in a step is what is told of it. -/
theorem step (h : g.Follows r sort first past) (st : KeyStep) :
    (g.step st).Follows r sort first (past ++ [st]) where
  resource_eq := by cases st <;> exact h.resource_eq
  sort_eq := by cases st <;> exact h.sort_eq
  selected := h.selected_step st
  stage := h.stage_step st
  entries := h.entries_step st
  faults := h.faults_step st

end Follows

theorem follows_start (r : Resource) (sort : KeySort) (first : Option Condition) :
    (start r sort first).Follows r sort first [] :=
  ⟨rfl, rfl, rfl, rfl, fun _ => rfl, rfl⟩

/-- What is written on keys is what is told of the steps. -/
theorem follows_run (r : Resource) (sort : KeySort) (first : Option Condition)
    (steps : List KeyStep) : ((start r sort first).run steps).Follows r sort first steps := by
  induction steps using List.reverseRecOn with
  | nil => exact follows_start r sort first
  | append_singleton steps st ih =>
    rw [run, List.foldl_concat]
    exact ih.step st

end KeyGranter

/-! ### Grants on objects -/

/-- What a grant says on keys of a sort. -/
def Grant.on (g : Grant) : KeySort → NameMap Entries
  | .prop => g.props
  | .relation => g.relations

theorem on_addTo (g : KeyGranter) (written : Grant) (sort : KeySort) :
    (g.addTo written).on sort =
      if sort = g.sort then joinEntries (written.on sort) g.entries else written.on sort := by
  rw [KeyGranter.addTo]
  cases g.sort <;> cases sort <;> rfl

namespace Step

/-- What the step does on the stage. -/
def move : Step → Stage.Move
  | grant _ | specifically _ | children _ => .use
  | when c => .put c
  | or => .clear

/-- The steps inside a step, on keys of a sort. -/
def inside (sort : KeySort) : Step → List KeyStep
  | specifically steps => if sort = .prop then steps else []
  | children steps => if sort = .relation then steps else []
  | grant _ | when _ | or => []

end Step

namespace Granter

/-- What is in force after some steps. -/
def inForce (past : List Step) : Option Condition :=
  Stage.Move.inForce none (past.map Step.move)

/-- What a step records on objects: the actions that it grants, under what is in force. -/
def recorded (past : List Step) : Step → Entries
  | .grant actions =>
    actions.map fun a => (a, Stage.Move.granted none (past.map Step.move))
  | .when _ | .or | .specifically _ | .children _ => []

/-- What a step adds to the entries of a key: what the steps inside do, from what is in force on. -/
def pieces (r : Resource) (sort : KeySort) (key : String) (past : List Step) (st : Step) :
    List Entries :=
  inTurn (KeyGranter.pieces r sort (inForce past) key) [] (st.inside sort)

/-- What is wrong with the steps inside a step. -/
def wrong (r : Resource) (_past : List Step) : Step → List GrantFault
  | .specifically steps => inTurn (KeyGranter.wrong r .prop) [] steps
  | .children steps => inTurn (KeyGranter.wrong r .relation) [] steps
  | .grant _ | .when _ | .or => []

/-- The conditions that the steps inside a step stage, and under which these grant nothing. -/
def unusedInside (_past : List Step) : Step → List Condition
  | .specifically steps | .children steps => Stage.Move.unused (steps.map KeyStep.move)
  | .grant _ | .when _ | .or => []

end Granter

/-- What a grant on a resource tells of the steps that wrote it. -/
structure Grant.Tells (r : Resource) (steps : List Step) (g : Grant) : Prop where
  /-- It is on the resource. -/
  resource : g.resource = r.name
  /-- Each action that was granted on objects is recorded in its turn, under what was in force. -/
  object : g.object = inTurn Granter.recorded [] steps
  /-- So is each action that was granted on a key and makes sense there. -/
  keys (sort : KeySort) (key : String) :
    (g.on sort).get? key = joined (inTurn (Granter.pieces r sort key) [] steps)
  /-- All that was wrong is reported, and nothing else. -/
  faults : g.faults = inTurn (Granter.wrong r) [] steps
  /-- So is each condition that nothing was granted under. -/
  unused : g.unused = inTurn Granter.unusedInside [] steps ++
    Stage.Move.unused (steps.map Step.move)

namespace Granter

/-- What a granter keeps of the steps it took. -/
structure Follows (r : Resource) (past : List Step) (g : Granter) : Prop where
  /-- It is for the resource. -/
  resource_eq : g.resource = r
  /-- The moves were made on the stage. -/
  stage : g.stage = (Stage.inherit none).moves (past.map Step.move)
  /-- What was written is on the resource. -/
  name : g.written.resource = r.name
  /-- It keeps what was recorded on objects. -/
  object : g.written.object = inTurn recorded [] past
  /-- It keeps the entries that were added to each key. -/
  keys (sort : KeySort) (key : String) :
    (g.written.on sort).get? key = joined (inTurn (pieces r sort key) [] past)
  /-- It keeps what was wrong. -/
  faults : g.written.faults = inTurn (wrong r) [] past
  /-- It keeps the conditions that were unused inside. -/
  unused : g.written.unused = inTurn unusedInside [] past

variable {r : Resource} {past : List Step} {g : Granter}

namespace Follows

theorem condition?_eq (h : g.Follows r past) : g.stage.condition? = inForce past := by
  rw [h.stage, Stage.condition?_moves]
  rfl

theorem permission_eq (h : g.Follows r past) :
    g.stage.permission = Stage.Move.granted none (past.map Step.move) := by
  rw [h.stage, Stage.permission_moves]
  rfl

theorem stage_step (h : g.Follows r past) (st : Step) :
    (g.step st).stage = (Stage.inherit none).moves ((past ++ [st]).map Step.move) := by
  rw [List.map_append, List.map_singleton, Stage.moves_concat, ← h.stage]
  cases st <;> rfl

theorem object_step (h : g.Follows r past) (st : Step) :
    (g.step st).written.object = inTurn recorded [] (past ++ [st]) := by
  rw [inTurn_concat, ← h.object]
  cases st with
  | grant actions =>
    rw [recorded, ← h.permission_eq]
    rfl
  | when _ | or | specifically _ | children _ => exact (List.append_nil _).symm

/-- What is written inside is what is told of the steps there. -/
theorem onKeys (h : g.Follows r past) {sort : KeySort} {steps : List KeyStep} {st : Step}
    (hstep : g.step st = g.onKeys sort steps)
    (hinside : ∀ sort', st.inside sort' = if sort' = sort then steps else [])
    (hwrong : wrong r past st = inTurn (KeyGranter.wrong r sort) [] steps)
    (hunused : unusedInside past st = Stage.Move.unused (steps.map KeyStep.move)) :
    (g.step st).Follows r (past ++ [st]) := by
  have hstage := h.stage_step st
  have hobject := h.object_step st
  obtain rfl := h.resource_eq
  rw [hstep] at hstage hobject ⊢
  have hkeys := KeyGranter.follows_run g.resource sort (inForce past) steps
  rw [← h.condition?_eq] at hkeys
  refine ⟨rfl, hstage, h.name, hobject, fun sort' key => ?_, ?_, ?_⟩
  · change (Grant.on (KeyGranter.addTo _ g.written) sort').get? key = _
    rw [inTurn_concat, pieces, hinside, ← h.condition?_eq, on_addTo, hkeys.sort_eq]
    split
    · -- What was written inside is put behind what there was on keys of the sort.
      rename_i heq
      rw [heq]
      exact get?_joinEntries (h.keys sort key) (hkeys.entries key)
    · rw [inTurn, List.append_nil]
      exact h.keys sort' key
  · rw [inTurn_concat, hwrong, ← h.faults, ← hkeys.faults]
    rfl
  · rw [inTurn_concat, hunused, ← h.unused, ← Stage.allUnused_moves_inherit, ← hkeys.stage]
    rfl

/-- What is written in a step is what is told of it. -/
theorem step (h : g.Follows r past) (st : Step) : (g.step st).Follows r (past ++ [st]) := by
  cases st with
  | grant _ | when _ | or =>
    refine ⟨h.resource_eq, h.stage_step _, h.name, h.object_step _, fun sort key => ?_, ?_, ?_⟩
    · rw [inTurn_concat, pieces, Step.inside, inTurn, List.append_nil]
      exact h.keys sort key
    · rw [inTurn_concat, wrong, List.append_nil]
      exact h.faults
    · rw [inTurn_concat, unusedInside, List.append_nil]
      exact h.unused
  | specifically steps => exact h.onKeys rfl (fun _ => rfl) rfl rfl
  | children steps => exact h.onKeys rfl (fun _ => rfl) rfl rfl

end Follows

theorem follows_start (r : Resource) : (start r).Follows r [] :=
  ⟨rfl, rfl, rfl, rfl, by rintro (_ | _) _ <;> rfl, rfl, rfl⟩

/-- What is written on a resource is what is told of the steps. -/
theorem follows_run (r : Resource) (steps : List Step) : ((start r).run steps).Follows r steps := by
  induction steps using List.reverseRecOn with
  | nil => exact follows_start r
  | append_singleton steps st ih =>
    rw [run, List.foldl_concat]
    exact ih.step st

/-- A grant tells of the steps that wrote it, also if some of them are shared with others. -/
theorem tells_finish (r : Resource) (shared steps : List Step) :
    (((start r).run shared).run steps).finish.Tells r (shared ++ steps) := by
  rw [run, run, ← List.foldl_append]
  have h := follows_run r (shared ++ steps)
  refine ⟨h.name, h.object, h.keys, h.faults, ?_⟩
  rw [← h.unused, ← Stage.allUnused_moves_inherit none, ← h.stage]
  rfl

end Granter

end Authorization
