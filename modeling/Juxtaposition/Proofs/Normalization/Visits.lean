import Juxtaposition.Proofs.Layout.Loops
import Juxtaposition.Proofs.Normalization.Order

/-!
# What a pass visits

The loop behind a pass, without a bound on its visits. A pass visits all that a walk in the order
of the text visits. Only a name that is called has changed places with its call, which it follows
there.
-/

set_option autoImplicit false

namespace Juxtaposition.Tree

/-- The list in which every call that is followed by the name it calls has changed places with
that name. -/
def calleesFirst (tree : Tree) : List NodeId → List NodeId
  | [] => []
  | [id] => [id]
  | id :: next :: rest =>
      if (tree.namedCall? id).map Prod.fst = some next then next :: id :: tree.calleesFirst rest
      else id :: tree.calleesFirst (next :: rest)

structure TakesTurns (tree : Tree) : Prop where
  loop : ∃ visited, (∀ other, Loops (fun _ => false) tree.visitSuccessors [root] other ↔
      other = visited) ∧
    tree.passOrder = visited.flatMap tree.visitTurn
  exchanged : tree.passOrder = tree.calleesFirst (tree.preorder root)
  adjacent : ∀ id callee arguments, tree.Reaches root id →
    tree.node id = .call callee arguments → [id, callee] <:+: tree.preorder root
  nodup : tree.passOrder.Nodup
  mem_iff : ∀ id, id ∈ tree.passOrder ↔ tree.Reaches root id

variable {tree : Tree} {layout part : Layout}

theorem visitSuccessors_subset (tree : Tree) (id : NodeId) :
    tree.visitSuccessors id ⊆ tree.children id := by
  intro child member
  unfold visitSuccessors at member
  cases named : tree.namedCall? id with
  | none =>
      rw [named] at member
      exact member
  | some parts =>
      obtain ⟨callee, arguments⟩ := parts
      rw [named] at member
      rw [children, (namedCall?_eq_some_iff.mp named).1]
      exact List.mem_cons_of_mem callee member

/-! ## Exchanged callees -/

theorem calleesFirst_of_unnamed {id : NodeId} (unnamed : tree.namedCall? id = none)
    (rest : List NodeId) : tree.calleesFirst (id :: rest) = id :: tree.calleesFirst rest := by
  cases rest with
  | nil => rfl
  | cons next rest => simp [calleesFirst, unnamed]

theorem calleesFirst_of_named {id callee : NodeId} {arguments : List NodeId}
    (named : tree.namedCall? id = some (callee, arguments)) (rest : List NodeId) :
    tree.calleesFirst (id :: callee :: rest) = callee :: id :: tree.calleesFirst rest := by
  simp [calleesFirst, named]

private theorem calleesFirst_flatMap {layouts : List Layout}
    (exchanges : ∀ layout ∈ layouts, ∀ rest,
      tree.calleesFirst (layout.places ++ rest) =
        tree.turnsAlong layout ++ tree.calleesFirst rest) (rest : List NodeId) :
    tree.calleesFirst (layouts.flatMap Layout.places ++ rest) =
      layouts.flatMap tree.turnsAlong ++ tree.calleesFirst rest := by
  induction layouts with
  | nil => rfl
  | cons first later ih =>
      have onward := ih fun layout member => exchanges layout (List.mem_cons_of_mem _ member)
      rw [List.flatMap_cons, List.append_assoc, exchanges first List.mem_cons_self, onward,
        List.flatMap_cons, List.append_assoc]

theorem Spans.calleesFirst_places (spans : tree.Spans layout) (rest : List NodeId) :
    tree.calleesFirst (layout.places ++ rest) =
      tree.turnsAlong layout ++ tree.calleesFirst rest := by
  induction layout using Layout.induction generalizing rest with
  | node place below ih =>
      rcases spans.turn_cases with
        ⟨callee, arguments, name, rfl, call, identifier, turns⟩ | ⟨unnamed, turns⟩
      · have named : tree.namedCall? place = some (callee, arguments.map Layout.place) := by
          refine namedCall?_eq_some_iff.mpr ⟨call, ?_⟩
          rw [name?_eq_some_iff.mpr identifier]
          rfl
        have inner := calleesFirst_flatMap (fun layout member =>
          ih layout (List.mem_cons_of_mem _ member)
            (spans.child (List.mem_cons_of_mem _ member))) rest
        have places : (Layout.node place (.node callee [] :: arguments)).places ++ rest =
            place :: callee :: (arguments.flatMap Layout.places ++ rest) := by simp
        rw [places, calleesFirst_of_named named, inner, turns]
        rfl
      · have none : tree.namedCall? place = none := by
          cases named : tree.namedCall? place with
          | none => rfl
          | some parts =>
              obtain ⟨call, isName⟩ := namedCall?_eq_some_iff.mp named
              rw [unnamed _ _ call] at isName
              cases isName
        have inner := calleesFirst_flatMap (fun layout member =>
          ih layout member (spans.child member)) rest
        rw [Layout.places_node, List.cons_append, calleesFirst_of_unnamed none, inner, turns]
        rfl

namespace Planted

theorem passOrder_exchanged (planted : tree.Planted layout) :
    tree.passOrder = tree.calleesFirst (tree.preorder root) := by
  have along := planted.spans.calleesFirst_places []
  rw [List.append_nil] at along
  rw [planted.passOrder_eq, planted.preorder_root, along]
  exact (List.append_nil _).symm

/-- A name that is called comes directly after its call. -/
theorem callee_adjacent (planted : tree.Planted layout) {id callee : NodeId}
    {arguments : List NodeId} (reached : tree.Reaches root id)
    (call : tree.node id = .call callee arguments) :
    [id, callee] <:+: tree.preorder root := by
  obtain ⟨inner, inside, rfl⟩ := Layout.exists_within_of_mem (planted.reaches_iff.mp reached)
  cases inner with
  | node place below =>
      have children := (planted.spans.within inside).children
      rw [Tree.children, show tree.node place = _ from call] at children
      obtain ⟨first, rest, rfl, rfl, _⟩ := List.map_eq_cons_iff.mp children.symm
      have starts : [place, first.place] <+: (Layout.node place (first :: rest)).places := by
        cases first with
        | node callee below => simp
      rw [planted.preorder_root]
      exact starts.isInfix.trans inside.isInfix

theorem takesTurns (planted : tree.Planted layout) : tree.TakesTurns := by
  constructor
  case loop =>
    have ends := (planted.endsWithin .refl).mono tree.visitSuccessors_subset
    rw [planted.place] at ends
    exact ⟨_, fun other => ends.loops_iff, rfl⟩
  case exchanged => exact planted.passOrder_exchanged
  case adjacent =>
    intro id callee arguments reached call
    exact planted.callee_adjacent reached call
  case nodup => exact planted.passOrder_nodup
  case mem_iff =>
    intro id
    exact planted.mem_passOrder_iff.trans planted.reaches_iff.symm

end Planted

/-- On a sound tree every walk comes to an end and agrees with the recursive reading of what lies
below its start. A pass visits every reachable node once, with each name that is called before its
call. -/
theorem walks_agree (sound : tree.check = .ok ()) :
    (∀ start, tree.Reaches root start → tree.Traverses start) ∧ tree.TakesTurns := by
  obtain ⟨layout, planted⟩ := check_eq_ok_iff.mp sound
  refine ⟨fun start reached => ?_, planted.takesTurns⟩
  obtain ⟨inner, inside, rfl⟩ := Layout.exists_within_of_mem (planted.reaches_iff.mp reached)
  exact planted.traverses inside

/-- The tree of `f(g(x)(2),y)+1e5`. -/
def callOfCalls : Tree where
  slots := #[⟨.root ⟨1⟩, none⟩, ⟨.operation .add ⟨2⟩ ⟨9⟩ (.typed ⟨11, 12⟩), some ⟨0⟩⟩,
    ⟨.call ⟨3⟩ [⟨4⟩, ⟨8⟩], some ⟨1⟩⟩, ⟨.identifier "f", some ⟨2⟩⟩,
    ⟨.call ⟨5⟩ [⟨7⟩], some ⟨2⟩⟩, ⟨.call ⟨6⟩ [⟨10⟩], some ⟨4⟩⟩, ⟨.identifier "g", some ⟨5⟩⟩,
    ⟨.integer 2, some ⟨4⟩⟩, ⟨.identifier "y", some ⟨2⟩⟩,
    ⟨.float ⟨0x40f86a0000000000⟩ (some "1e5"), some ⟨1⟩⟩, ⟨.identifier "x", some ⟨5⟩⟩]

/-- The name `f` has changed places with the call that it follows, and so has `g`. The call of a
call has not. -/
theorem walks_agree_callOfCalls :
    callOfCalls.check = .ok () ∧ callOfCalls.Reaches root ⟨4⟩ ∧
      Loops (fun _ => false) callOfCalls.children [⟨4⟩] [⟨4⟩, ⟨5⟩, ⟨6⟩, ⟨10⟩, ⟨7⟩] ∧
      Loops (fun _ => false) (fun id => (callOfCalls.children id).reverse) [⟨4⟩]
        [⟨4⟩, ⟨7⟩, ⟨5⟩, ⟨10⟩, ⟨6⟩] ∧
      callOfCalls.weight ⟨4⟩ = ⟨5, 2⟩ ∧
      callOfCalls.passOrder = [⟨0⟩, ⟨1⟩, ⟨3⟩, ⟨2⟩, ⟨4⟩, ⟨6⟩, ⟨5⟩, ⟨10⟩, ⟨7⟩, ⟨8⟩, ⟨9⟩] := by
  have sound : callOfCalls.check = .ok () := by decide
  have sum : callOfCalls.Reaches root ⟨1⟩ := .child .refl (by decide)
  have outer : callOfCalls.Reaches root ⟨2⟩ := .child sum (by decide)
  have reached : callOfCalls.Reaches root ⟨4⟩ := .child outer (by decide)
  obtain ⟨traverses, turns⟩ := walks_agree sound
  have call := traverses ⟨4⟩ reached
  have inOrder : callOfCalls.preorder root =
      [⟨0⟩, ⟨1⟩, ⟨2⟩, ⟨3⟩, ⟨4⟩, ⟨5⟩, ⟨6⟩, ⟨10⟩, ⟨7⟩, ⟨8⟩, ⟨9⟩] := by cbv
  have ofCall : callOfCalls.preorder ⟨4⟩ = [⟨4⟩, ⟨5⟩, ⟨6⟩, ⟨10⟩, ⟨7⟩] := by cbv
  have weighed := call.weight
  have exchanged := turns.exchanged
  rw [ofCall] at weighed
  rw [inOrder] at exchanged
  exact ⟨sound, reached, (call.forward _).mpr ofCall.symm,
    (call.backward (fun _ => false) _).mpr (by cbv), weighed.trans (by decide),
    exchanged.trans (by decide)⟩

end Juxtaposition.Tree
