import Juxtaposition.Proofs.Layout.Basic
import Juxtaposition.Proofs.Tree.Slots
import Juxtaposition.Tree.Reading

/-!
# Layouts of a tree

A tree spans a layout when its child links run along the layout and its parent
links run back. Everything that reads a subtree, such as its expression, can then
be computed along the layout.
-/

set_option autoImplicit false

namespace Juxtaposition

/-- The expression at a node whose children read as `below`. A root node reads as
its body. -/
def Node.expr : Node → (below : List Expr) → Expr
  | root _, [body] => body
  | identifier name, _ => .identifier name
  | integer value, _ => .integer value
  | float value literal, _ => .float value literal
  | call _ _, callee :: arguments => .call callee arguments
  | operation operator _ _ provenance, [lhs, rhs] => .operation operator lhs rhs provenance
  | group _, items => .group items
  | negation _, [operand] => .negation operand
  | _, _ => .group []

namespace Tree

/-- The children of every node are where the layout says. They point back at the
node that holds them, and none of them is a root node. -/
inductive Spans (tree : Tree) : Layout → Prop where
  | node {place : NodeId} {below : List Layout} :
      tree.children place = below.map Layout.place →
      (∀ child ∈ below, tree.parent child.place = some place) →
      (∀ child ∈ below, (tree.node child.place).isRoot = false) →
      (∀ child ∈ below, Spans tree child) → Spans tree (.node place below)

def exprAlong (tree : Tree) : Layout → Expr :=
  Layout.fold fun place below => (tree.node place).expr below

theorem exprAlong_node (tree : Tree) (place : NodeId) (below : List Layout) :
    tree.exprAlong (.node place below) = (tree.node place).expr (below.map tree.exprAlong) :=
  Layout.fold_node _ place below

inductive Reaches (tree : Tree) (start : NodeId) : NodeId → Prop where
  | refl : Reaches tree start start
  | child {holder id : NodeId} :
      Reaches tree start holder → id ∈ tree.children holder → Reaches tree start id

theorem Reaches.trans {tree : Tree} {start middle id : NodeId}
    (first : tree.Reaches start middle) (second : tree.Reaches middle id) :
    tree.Reaches start id := by
  induction second with
  | refl => exact first
  | child _ step ih => exact .child ih step

namespace Spans

variable {tree edited : Tree} {layout part : Layout} {place : NodeId} {below : List Layout}

theorem children (spans : tree.Spans (.node place below)) :
    tree.children place = below.map Layout.place := by
  cases spans
  assumption

theorem parent (spans : tree.Spans (.node place below)) {child : Layout}
    (member : child ∈ below) : tree.parent child.place = some place := by
  cases spans with
  | node _ links => exact links child member

theorem isRoot (spans : tree.Spans (.node place below)) {child : Layout}
    (member : child ∈ below) : (tree.node child.place).isRoot = false := by
  cases spans with
  | node _ _ roots => exact roots child member

theorem child (spans : tree.Spans (.node place below)) {child : Layout}
    (member : child ∈ below) : tree.Spans child := by
  cases spans with
  | node _ _ _ inner => exact inner child member

theorem eq_leaf (spans : tree.Spans layout) (leaf : tree.children layout.place = []) :
    layout = .node layout.place [] := by
  cases layout with
  | node place below =>
      rw [Layout.place_node, spans.children, List.map_eq_nil_iff] at leaf
      rw [leaf, Layout.place_node]

theorem eq_leaf_of_name {name : String} (spans : tree.Spans layout)
    (named : tree.node layout.place = .identifier name) : layout = .node layout.place [] :=
  spans.eq_leaf (by rw [Tree.children, named]; rfl)

theorem within (spans : tree.Spans layout) (inside : part.Within layout) : tree.Spans part := by
  induction inside with
  | refl => exact spans
  | child _ ih => exact ih (spans.child (by simp))

theorem reaches_iff (spans : tree.Spans layout) {id : NodeId} :
    tree.Reaches layout.place id ↔ id ∈ layout.places := by
  constructor
  · intro reached
    induction reached with
    | refl => exact layout.place_mem_places
    | @child holder id _ step ih =>
        obtain ⟨part, inside, same⟩ := Layout.exists_within_of_mem ih
        cases part with
        | node place below =>
            subst same
            rw [Layout.place_node, (spans.within inside).children, List.mem_map] at step
            obtain ⟨child, member, rfl⟩ := step
            exact ((Layout.Within.of_mem .refl member).trans inside).place_mem
  · intro member
    obtain ⟨part, inside, rfl⟩ := Layout.exists_within_of_mem member
    clear member
    induction inside with
    | refl => exact .refl
    | @child place before after child _ ih =>
        have first : tree.Reaches place child.place :=
          .child .refl (by rw [spans.children]; simp)
        exact first.trans (ih (spans.child (by simp)))

theorem parent_of_mem (spans : tree.Spans layout) {holder id : NodeId}
    (member : holder ∈ layout.places) (child : id ∈ tree.children holder) :
    tree.parent id = some holder := by
  obtain ⟨part, inside, rfl⟩ := Layout.exists_within_of_mem member
  cases part with
  | node place below =>
      rw [Layout.place_node, (spans.within inside).children] at child
      obtain ⟨inner, inBelow, rfl⟩ := List.mem_map.mp child
      exact (spans.within inside).parent inBelow

theorem exists_holder (spans : tree.Spans layout) {id : NodeId} (member : id ∈ layout.places.tail) :
    ∃ holder ∈ layout.places, tree.parent id = some holder := by
  induction spans with
  | @node place below _ parents _ _ ih =>
      rw [Layout.places_node, List.tail_cons] at member
      rw [Layout.places_node]
      obtain ⟨child, inBelow, inChild⟩ := List.mem_flatMap.mp member
      rcases Layout.eq_place_or_mem_tail inChild with rfl | inTail
      · exact ⟨place, List.mem_cons_self, parents child inBelow⟩
      · obtain ⟨holder, inside, link⟩ := ih child inBelow inTail
        exact ⟨holder, List.mem_cons_of_mem _ (List.mem_flatMap.mpr ⟨child, inBelow, inside⟩), link⟩

/-- A layout is spanned as long as its nodes and the links to their parents stay.
The top's own parent does not matter. -/
theorem frame (spans : tree.Spans layout)
    (nodes : ∀ id ∈ layout.places, edited.node id = tree.node id)
    (links : ∀ id ∈ layout.places.tail, edited.parent id = tree.parent id) :
    edited.Spans layout := by
  induction spans with
  | @node place below children parents roots _ ih =>
      simp only [Layout.places_node, List.tail_cons] at nodes links
      have inside {child : Layout} (member : child ∈ below) {id : NodeId}
          (inChild : id ∈ child.places) : id ∈ below.flatMap Layout.places :=
        List.mem_flatMap.mpr ⟨child, member, inChild⟩
      have top {child : Layout} (member : child ∈ below) := inside member child.place_mem_places
      refine .node ?_ ?_ ?_ ?_
      · rw [Tree.children, nodes place List.mem_cons_self]
        exact children
      · intro child member
        rw [links _ (top member)]
        exact parents child member
      · intro child member
        rw [nodes _ (List.mem_cons_of_mem _ (top member))]
        exact roots child member
      · intro child member
        refine ih child member ?_ ?_
        · exact fun id inChild => nodes id (List.mem_cons_of_mem _ (inside member inChild))
        · exact fun id inTail => links id (inside member (List.mem_of_mem_tail inTail))

/-- Pointing the holder of `target` at `replacement` spans the grafted layout. -/
theorem graft {target : NodeId} {replacement : Layout} (spans : tree.Spans layout)
    (replaced : edited.Spans replacement)
    (isRoot : (edited.node replacement.place).isRoot = false)
    (link : edited.parent replacement.place = tree.parent target)
    (children : ∀ id ∈ layout.outside target, edited.children id =
      (tree.children id).map fun child => if child = target then replacement.place else child)
    (roots : ∀ id ∈ layout.outside target, (edited.node id).isRoot = (tree.node id).isRoot)
    (links : ∀ id ∈ layout.outside target, edited.parent id = tree.parent id) :
    edited.Spans (layout.graft target replacement) := by
  induction spans with
  | @node place below childrenBefore parentsBefore rootsBefore _ ih =>
      rw [Layout.graft_node]
      split
      · exact replaced
      · next different =>
        rw [Layout.outside_node, if_neg different] at children roots links
        have outside {child : Layout} (member : child ∈ below) {id : NodeId}
            (inChild : id ∈ child.outside target) :
            id ∈ place :: below.flatMap (Layout.outside target) :=
          List.mem_cons_of_mem _ (List.mem_flatMap.mpr ⟨child, member, inChild⟩)
        have top {child : Layout} (member : child ∈ below) (other : child.place ≠ target) :=
          outside member (Layout.place_mem_outside other)
        refine .node ?_ ?_ ?_ ?_
        · rw [children place List.mem_cons_self, childrenBefore]
          simp only [List.map_map]
          exact List.map_congr_left fun child _ => (child.place_graft target replacement).symm
        · intro grafted member
          obtain ⟨child, inBelow, rfl⟩ := List.mem_map.mp member
          rw [Layout.place_graft]
          split
          · next same => rw [link, ← same, parentsBefore child inBelow]
          · next other => rw [links _ (top inBelow other), parentsBefore child inBelow]
        · intro grafted member
          obtain ⟨child, inBelow, rfl⟩ := List.mem_map.mp member
          rw [Layout.place_graft]
          split
          · exact isRoot
          · next other => rw [roots _ (top inBelow other), rootsBefore child inBelow]
        · intro grafted member
          obtain ⟨child, inBelow, rfl⟩ := List.mem_map.mp member
          exact ih child inBelow
            (fun id inChild => children id (outside inBelow inChild))
            (fun id inChild => roots id (outside inBelow inChild))
            (fun id inChild => links id (outside inBelow inChild))

end Spans

/-! ## Reading along a layout -/

theorem exprAlong_congr {tree edited : Tree} {layout : Layout}
    (same : ∀ id ∈ layout.places, (edited.node id).expr = (tree.node id).expr) :
    edited.exprAlong layout = tree.exprAlong layout := by
  induction layout using Layout.induction with
  | node place below ih =>
      rw [exprAlong_node, exprAlong_node, same place (Layout.place_mem_places _)]
      exact congrArg _ (List.map_congr_left fun child member => ih child member fun id inChild =>
        same id (Layout.mem_places_of_mem member inChild))

/-- A graft below one child leaves the readings of the other children as they are. -/
theorem exprAlong_graft_split {tree edited : Tree} {place target : NodeId}
    {before after : List Layout} {child : Layout} (grafted : Layout)
    (nodup : (Layout.node place (before ++ child :: after)).places.Nodup)
    (member : target ∈ child.places)
    (same : ∀ id ∈ (Layout.node place (before ++ child :: after)).outside target,
      (edited.node id).expr = (tree.node id).expr) :
    edited.exprAlong ((Layout.node place (before ++ child :: after)).graft target grafted) =
      (tree.node place).expr (before.map tree.exprAlong ++
        edited.exprAlong (child.graft target grafted) :: after.map tree.exprAlong) := by
  rw [Layout.outside_split nodup member] at same
  have siblings (list : List Layout) (apart : ∀ sibling ∈ list, ∀ id ∈ sibling.places,
      id ∈ place :: (before.flatMap Layout.places ++
        (child.outside target ++ after.flatMap Layout.places))) :
      list.map edited.exprAlong = list.map tree.exprAlong :=
    List.map_congr_left fun sibling listed =>
      exprAlong_congr fun id inSibling => same id (apart sibling listed id inSibling)
  have unchangedBefore := siblings before fun sibling listed id inSibling => by
    have listedPlace := List.mem_flatMap.mpr ⟨sibling, listed, inSibling⟩
    simp [listedPlace]
  have unchangedAfter := siblings after fun sibling listed id inSibling => by
    have listedPlace := List.mem_flatMap.mpr ⟨sibling, listed, inSibling⟩
    simp [listedPlace]
  rw [Layout.graft_split grafted nodup member, exprAlong_node, List.map_append, List.map_cons,
    unchangedBefore, unchangedAfter, same place List.mem_cons_self]

private theorem mapM_places {read : NodeId → Option Expr} {expr : Layout → Expr}
    {layouts : List Layout} (found : ∀ layout ∈ layouts, read layout.place = some (expr layout)) :
    (layouts.map Layout.place).mapM read = some (layouts.map expr) := by
  induction layouts with
  | nil => rfl
  | cons first rest ih =>
      have head := found first List.mem_cons_self
      have tail := ih fun layout member => found layout (List.mem_cons_of_mem _ member)
      simp [head, tail]

/-- The bounded reading of a spanned layout is the reading along it, provided that
the bound allows for all levels. -/
theorem Spans.exprWithin?_eq {tree : Tree} {layout : Layout} (spans : tree.Spans layout)
    {bound : Nat} (enough : layout.height ≤ bound) :
    tree.exprWithin? bound layout.place = some (tree.exprAlong layout) := by
  induction spans generalizing bound with
  | @node place below children parents roots _ ih =>
      cases bound with
      | zero => simp at enough
      | succ bound =>
          have inner (child : Layout) (member : child ∈ below) :
              tree.exprWithin? bound child.place = some (tree.exprAlong child) := by
            refine ih child member ?_
            have lower := Layout.height_lt_of_mem place member
            omega
          rw [exprAlong_node, Layout.place_node, exprWithin?]
          unfold Tree.children at children
          cases found : tree.node place with
          | identifier name => rfl
          | integer value => rfl
          | float value literal => rfl
          | root body =>
              rw [found] at children
              obtain ⟨first, rest, rfl, rfl, nothing⟩ := List.map_eq_cons_iff.mp children.symm
              obtain rfl := List.map_eq_nil_iff.mp nothing
              exact inner first List.mem_cons_self
          | call callee arguments =>
              rw [found] at children
              obtain ⟨first, rest, rfl, rfl, rfl⟩ := List.map_eq_cons_iff.mp children.symm
              have head := inner first List.mem_cons_self
              have tail := mapM_places fun child member =>
                inner child (List.mem_cons_of_mem _ member)
              simp [head, tail, Node.expr]
          | operation operator lhs rhs provenance =>
              rw [found] at children
              obtain ⟨first, rest, rfl, rfl, following⟩ := List.map_eq_cons_iff.mp children.symm
              obtain ⟨second, rest, rfl, rfl, nothing⟩ := List.map_eq_cons_iff.mp following
              obtain rfl := List.map_eq_nil_iff.mp nothing
              have left := inner first (by simp)
              have right := inner second (by simp)
              simp [left, right, Node.expr]
          | group items =>
              rw [found] at children
              subst children
              simp [mapM_places inner, Node.expr]
          | negation operand =>
              rw [found] at children
              obtain ⟨first, rest, rfl, rfl, nothing⟩ := List.map_eq_cons_iff.mp children.symm
              obtain rfl := List.map_eq_nil_iff.mp nothing
              have only := inner first List.mem_cons_self
              simp [only, Node.expr]

end Tree

end Juxtaposition
