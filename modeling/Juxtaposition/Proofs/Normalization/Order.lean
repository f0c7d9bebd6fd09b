import Juxtaposition.Proofs.Layout.Walks
import Juxtaposition.Proofs.Tree.Calls

/-!
# The order of a pass

A pass visits every reachable node once. A name comes before the call it heads,
and any other call comes before all that its callee consists of.
-/

set_option autoImplicit false

namespace Juxtaposition.Tree

variable {tree : Tree} {layout part : Layout}

theorem namedCall?_eq_some_iff {id callee : NodeId} {arguments : List NodeId} :
    tree.namedCall? id = some (callee, arguments) ↔
      tree.node id = .call callee arguments ∧ (tree.name? callee).isSome = true := by
  rw [← callAt?_eq_some_iff]
  unfold namedCall?
  cases tree.callAt? id with
  | none => simp
  | some parts =>
      obtain ⟨first, rest⟩ := parts
      by_cases named : (tree.name? first).isSome = true
      · simp only [named, if_true, Option.some.injEq, Prod.mk.injEq]
        constructor
        · rintro ⟨rfl, rfl⟩
          exact ⟨⟨rfl, rfl⟩, named⟩
        · exact And.left
      · simp only [named, Bool.false_eq_true, if_false, reduceCtorEq, Option.some.injEq,
          Prod.mk.injEq, false_iff]
        rintro ⟨⟨rfl, rfl⟩, called⟩
        exact named called

/-- The layouts that a pass enters below a node. A callee that is a name is not
entered, since it has its turn with the call. -/
def entered (tree : Tree) (place : NodeId) {α : Type} (below : List α) : List α :=
  if (tree.namedCall? place).isSome then below.tail else below

def turnsAlong (tree : Tree) : Layout → List NodeId :=
  Layout.fold fun place turns => tree.visitTurn place ++ (tree.entered place turns).flatten

theorem turnsAlong_node (place : NodeId) (below : List Layout) :
    tree.turnsAlong (.node place below) =
      tree.visitTurn place ++ (tree.entered place below).flatMap tree.turnsAlong := by
  refine (Layout.fold_node _ place below).trans (congrArg _ ?_)
  unfold entered
  split
  · rw [← List.map_tail]
    rfl
  · rfl

theorem entered_subset {place : NodeId} {below : List Layout} {child : Layout}
    (member : child ∈ tree.entered place below) : child ∈ below := by
  unfold entered at member
  split at member
  · exact List.mem_of_mem_tail member
  · exact member

namespace Spans

theorem visitSuccessors {place : NodeId} {below : List Layout}
    (spans : tree.Spans (.node place below)) :
    tree.visitSuccessors place = (tree.entered place below).map Layout.place := by
  have children := spans.children
  unfold Tree.visitSuccessors entered
  cases named : tree.namedCall? place with
  | none => simpa using children
  | some parts =>
      obtain ⟨callee, arguments⟩ := parts
      rw [Tree.children, (namedCall?_eq_some_iff.mp named).1] at children
      rw [Option.isSome_some, if_pos rfl, List.map_tail, ← children]
      rfl

theorem turn_cases {place : NodeId} {below : List Layout}
    (spans : tree.Spans (.node place below)) :
    (∃ callee arguments name, below = .node callee [] :: arguments ∧
      tree.node place = .call callee (arguments.map Layout.place) ∧
      tree.node callee = .identifier name ∧
      tree.turnsAlong (.node place below) =
        callee :: place :: arguments.flatMap tree.turnsAlong) ∨
    ((∀ callee arguments, tree.node place = .call callee arguments → tree.name? callee = none) ∧
      tree.turnsAlong (.node place below) = place :: below.flatMap tree.turnsAlong) := by
  rw [turnsAlong_node]
  unfold visitTurn entered
  cases named : tree.namedCall? place with
  | none =>
      refine .inr ⟨fun callee arguments call => ?_, by simp⟩
      cases found : tree.name? callee with
      | none => rfl
      | some name =>
          have called := namedCall?_eq_some_iff.mpr ⟨call, by rw [found]; rfl⟩
          rw [named] at called
          cases called
  | some parts =>
      obtain ⟨callee, arguments⟩ := parts
      obtain ⟨call, isName⟩ := namedCall?_eq_some_iff.mp named
      have children := spans.children
      rw [Tree.children, call] at children
      obtain ⟨first, rest, rfl, rfl, rfl⟩ := List.map_eq_cons_iff.mp children.symm
      obtain ⟨name, found⟩ := Option.isSome_iff_exists.mp isName
      have identifier := name?_eq_some_iff.mp found
      refine .inl ⟨first.place, rest, name, ?_, call, identifier, by simp⟩
      rw [← (spans.child List.mem_cons_self).eq_leaf_of_name identifier]

theorem turnsAlong_leaf {id : NodeId} {name : String} (named : tree.node id = .identifier name) :
    tree.turnsAlong (.node id []) = [id] := by
  have none : tree.namedCall? id = none := by
    unfold namedCall? callAt?
    rw [named]
  rw [turnsAlong_node, visitTurn, none]
  simp [entered]

theorem turnsAlong_perm (spans : tree.Spans layout) :
    (tree.turnsAlong layout).Perm layout.places := by
  induction layout using Layout.induction with
  | node place below ih =>
      rcases spans.turn_cases with ⟨callee, arguments, name, rfl, _, named, turns⟩ | ⟨_, turns⟩
      · have rest : (arguments.flatMap tree.turnsAlong).Perm (arguments.flatMap Layout.places) :=
          .flatMap_left _ fun child member =>
            ih child (List.mem_cons_of_mem _ member)
              (spans.child (List.mem_cons_of_mem _ member))
        rw [turns]
        simpa using (List.Perm.swap place callee _).trans (.cons _ (.cons _ rest))
      · rw [turns, Layout.places_node]
        exact .cons _ (.flatMap_left _ fun child member => ih child member (spans.child member))

theorem turnsAlong_sublist (spans : tree.Spans layout) (inside : part.Within layout) :
    (tree.turnsAlong part).Sublist (tree.turnsAlong layout) := by
  induction inside with
  | refl => exact List.Sublist.refl _
  | @child place before after child _ ih =>
      refine (ih (spans.child (by simp))).trans ?_
      rcases spans.turn_cases with ⟨callee, arguments, name, shape, _, named, turns⟩ | ⟨_, turns⟩
      · rw [turns]
        cases before with
        | nil =>
            obtain ⟨rfl, _⟩ := List.cons.inj shape
            rw [turnsAlong_leaf named]
            exact .cons_cons _ (List.nil_sublist _)
        | cons first before =>
            have member : child ∈ arguments := by
              rw [← (List.cons.inj shape).2]
              exact List.mem_append_right before List.mem_cons_self
            exact .cons _ (.cons _ (Layout.sublist_flatMap_of_mem tree.turnsAlong member))
      · rw [turns]
        exact .cons _ (Layout.sublist_flatMap_of_mem tree.turnsAlong (by simp))

theorem walkUntil_turns (spans : tree.Spans layout) {depth : Nat}
    (enough : layout.height ≤ depth) (pending : List Visit) :
    (walkUntil (fun _ => false) tree.visitSuccessors
        (⟨depth, layout.place⟩ :: pending)).flatMap tree.visitTurn =
      tree.turnsAlong layout ++
        (walkUntil (fun _ => false) tree.visitSuccessors pending).flatMap tree.visitTurn := by
  induction layout using Layout.induction generalizing depth pending with
  | node place below ih =>
      cases depth with
      | zero => simp at enough
      | succ depth =>
          rw [Layout.place_node, walkUntil, if_neg Bool.false_ne_true, spans.visitSuccessors,
            List.map_map, List.flatMap_cons, turnsAlong_node, List.append_assoc]
          refine congrArg _ ?_
          refine answer_visits (fun visits =>
            (walkUntil (fun _ => false) tree.visitSuccessors visits).flatMap tree.visitTurn)
            (fun child member => ih child (entered_subset member)
              (spans.child (entered_subset member)) ?_) pending
          have less := Layout.height_lt_of_mem place (entered_subset member)
          omega

end Spans

namespace Planted

theorem passOrder_eq (planted : tree.Planted layout) :
    tree.passOrder = tree.turnsAlong layout := by
  have walk := planted.spans.walkUntil_turns planted.height_le []
  rw [planted.place, walkUntil, List.flatMap_nil, List.append_nil] at walk
  exact walk

theorem passOrder_perm (planted : tree.Planted layout) :
    tree.passOrder.Perm layout.places := by
  rw [planted.passOrder_eq]
  exact planted.spans.turnsAlong_perm

theorem mem_passOrder_iff (planted : tree.Planted layout) {id : NodeId} :
    id ∈ tree.passOrder ↔ id ∈ layout.places :=
  planted.passOrder_perm.mem_iff

theorem passOrder_nodup (planted : tree.Planted layout) : tree.passOrder.Nodup :=
  planted.passOrder_perm.nodup_iff.mpr planted.nodup

end Planted

private theorem mem_front_of_sublist {α : Type} {earlier later : α} {front back : List α}
    (ordered : [earlier, later].Sublist (front ++ later :: back))
    (nodup : (front ++ later :: back).Nodup) : earlier ∈ front := by
  induction front with
  | nil =>
      have absent : later ∉ back := (List.nodup_cons.mp nodup).1
      cases ordered with
      | cons _ inBack => exact absurd (inBack.subset (by simp)) absent
      | cons_cons _ inBack => exact absurd (inBack.subset (by simp)) absent
  | cons first rest ih =>
      cases ordered with
      | cons _ inRest => exact List.mem_cons_of_mem _ (ih inRest (List.nodup_cons.mp nodup).2)
      | cons_cons _ _ => exact List.mem_cons_self

section Precedence

variable {place : NodeId} {first : Layout} {rest : List Layout} {arguments : List NodeId}
  {front back : List NodeId}

private theorem mem_front (planted : tree.Planted layout) {earlier later : NodeId}
    (inside : part.Within layout) (ordered : [earlier, later].Sublist (tree.turnsAlong part))
    (order : tree.passOrder = front ++ later :: back) : earlier ∈ front := by
  have whole := ordered.trans (planted.spans.turnsAlong_sublist inside)
  rw [← planted.passOrder_eq, order] at whole
  exact mem_front_of_sublist whole (order ▸ planted.passOrder_nodup)

/-- A name has its turn before the call that it heads. -/
theorem Planted.name_before_call (planted : tree.Planted layout)
    (inside : (Layout.node place (first :: rest)).Within layout)
    (call : tree.node place = .call first.place arguments) {name : String}
    (named : tree.node first.place = .identifier name)
    (order : tree.passOrder = front ++ place :: back) : first.place ∈ front := by
  refine mem_front planted inside ?_ order
  rcases (planted.spans.within inside).turn_cases with
    ⟨callee, _, _, shape, _, _, turns⟩ | ⟨unnamed, _⟩
  · obtain ⟨rfl, rfl⟩ := List.cons.inj shape
    rw [turns]
    exact .cons_cons _ (.cons_cons _ (List.nil_sublist _))
  · have absent := unnamed _ _ call
    rw [name?, named] at absent
    cases absent

/-- Any other call has its turn before everything in its callee. -/
theorem Planted.call_before_callee (planted : tree.Planted layout)
    (inside : (Layout.node place (first :: rest)).Within layout)
    (call : tree.node place = .call first.place arguments)
    (unnamed : tree.name? first.place = none) {id : NodeId} (inCallee : id ∈ first.places)
    (order : tree.passOrder = front ++ id :: back) : place ∈ front := by
  have spans := planted.spans.within inside
  refine mem_front planted inside ?_ order
  rcases spans.turn_cases with ⟨callee, _, name, shape, _, named, _⟩ | ⟨_, turns⟩
  · obtain ⟨rfl, rfl⟩ := List.cons.inj shape
    rw [Layout.place_node, name?, named] at unnamed
    cases unnamed
  · have visited : id ∈ tree.turnsAlong first :=
      (spans.child List.mem_cons_self).turnsAlong_perm.mem_iff.mpr inCallee
    rw [turns, List.flatMap_cons]
    refine .cons_cons _ (List.singleton_sublist.mpr ?_)
    exact List.mem_append_left _ visited

end Precedence

end Juxtaposition.Tree
