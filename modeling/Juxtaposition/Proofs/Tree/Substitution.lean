import Juxtaposition.Proofs.Expr.Position
import Juxtaposition.Proofs.Layout.Exchange
import Juxtaposition.Proofs.Tree.WellFormed

/-!
# Replacement as substitution

A detached subtree that takes the place of a node in a sound tree. Parent links alone tell that
the two have no place in common, so the edited tree is sound again and reads as the old
expression with one subexpression exchanged.
-/

set_option autoImplicit false

namespace Juxtaposition.Tree

/-- `edited` is `tree` with the subtree below `replacement` in the place of the one below `old`,
which is left behind as it was. -/
structure Substitutes (tree : Tree) (old replacement : NodeId) (edited : Tree) : Prop where
  accepted : edited.check = .ok ()
  expr : ∃ path whole part new, tree.follow? root (0 :: path) = some old ∧
    tree.expr? root = some whole ∧ tree.expr? old = some part ∧
    tree.expr? replacement = some new ∧ whole.subexpr? path = some part ∧
    edited.expr? root = some (whole.replaceAt path new)
  reaches_iff : ∀ id, edited.Reaches root id ↔
    tree.Reaches root id ∧ ¬ tree.Reaches old id ∨ tree.Reaches replacement id
  freed : edited.parent old = none
  below_iff : ∀ id, edited.Reaches old id ↔ tree.Reaches old id
  node : ∀ id, tree.Reaches old id → edited.node id = tree.node id
  parent : ∀ id, tree.Reaches old id → id ≠ old → edited.parent id = tree.parent id
  removed : edited.expr? old = tree.expr? old

variable {tree edited : Tree} {layout grafted : Layout} {old replacement holder target : NodeId}
  {below : List Layout} {path : List Nat}

/-! ## Paths into the expression -/

private theorem exists_split_at {below : List Layout} {child : Layout} {slot : Nat}
    (found : below[slot]? = some child) :
    ∃ before after, below = before ++ child :: after ∧ before.length = slot := by
  obtain ⟨bound, rfl⟩ := List.getElem?_eq_some_iff.mp found
  exact ⟨below.take slot, below.drop (slot + 1), by simp, by simp; omega⟩

namespace Spans

theorem exists_child_of_follow? {place : NodeId} {slot : Nat}
    (spans : tree.Spans (.node place below))
    (followed : tree.follow? place (slot :: path) = some target) :
    ∃ before child after, below = before ++ child :: after ∧ before.length = slot ∧
      tree.follow? child.place path = some target := by
  obtain ⟨child, found, later⟩ := spans.follow?_cons followed
  obtain ⟨before, after, split, length⟩ := exists_split_at found
  exact ⟨before, child, after, split, length, later⟩

/-- A path of child slots leads to the same part in the tree and in its expression. -/
theorem exists_subexpr? (spans : tree.Spans layout)
    (inner : (tree.node layout.place).isRoot = false)
    (followed : tree.follow? layout.place path = some target) :
    ∃ part : Layout, part.Within layout ∧ part.place = target ∧
      (tree.exprAlong layout).subexpr? path = some (tree.exprAlong part) := by
  induction path generalizing layout with
  | nil =>
      cases followed
      exact ⟨layout, .refl, rfl, rfl⟩
  | cons slot path ih =>
      cases layout with
      | node place below =>
          rw [Layout.place_node] at inner
          have arity := spans.arity
          obtain ⟨before, child, after, rfl, rfl, later⟩ := spans.exists_child_of_follow? followed
          have member : child ∈ before ++ child :: after := by simp
          obtain ⟨part, inside, same, found⟩ := ih (spans.child member) (spans.isRoot member) later
          refine ⟨part, .child inside, same, ?_⟩
          rw [List.map_append, List.map_cons] at arity
          rw [exprAlong_node, List.map_append, List.map_cons, ← List.length_map tree.exprAlong,
            Node.subexpr?_expr inner arity, found]

/-- Grafting a part exchanges the subexpression at its path. -/
theorem exprAlong_graft (spans : tree.Spans layout) (nodup : layout.places.Nodup)
    (inner : (tree.node layout.place).isRoot = false)
    (followed : tree.follow? layout.place path = some target)
    (same : ∀ id ∈ layout.outside target, (edited.node id).expr = (tree.node id).expr) :
    edited.exprAlong (layout.graft target grafted) =
      (tree.exprAlong layout).replaceAt path (edited.exprAlong grafted) := by
  induction path generalizing layout with
  | nil =>
      cases followed
      rw [Layout.graft_place]
      rfl
  | cons slot path ih =>
      cases layout with
      | node place below =>
          rw [Layout.place_node] at inner
          have arity := spans.arity
          obtain ⟨before, child, after, rfl, rfl, later⟩ := spans.exists_child_of_follow? followed
          have member : child ∈ before ++ child :: after := by simp
          have inChild := ((spans.child member).of_follow? later).1
          have apart : ∀ id ∈ child.outside target,
              (edited.node id).expr = (tree.node id).expr := by
            intro id outside
            refine same id ?_
            rw [Layout.outside_split nodup inChild]
            simp [outside]
          have deeper := ih (spans.child member) (Layout.nodup_split nodup).1 (spans.isRoot member)
            later apart
          rw [List.map_append, List.map_cons] at arity
          rw [exprAlong_graft_split grafted nodup inChild same, exprAlong_node, List.map_append,
            List.map_cons, deeper, ← List.length_map tree.exprAlong,
            Node.replaceAt_expr inner arity]

end Spans

/-- In a sound tree the path to a node other than the root starts at the body. -/
theorem Planted.exists_path (planted : tree.Planted layout) (member : target ∈ layout.places)
    (inner : target ≠ root) :
    ∃ body path, layout = .node root [body] ∧ tree.node root = .root body.place ∧
      tree.follow? root (0 :: path) = some target ∧ tree.follow? body.place path = some target := by
  obtain ⟨body, rfl, node, _⟩ := planted.exists_body
  obtain ⟨path, followed⟩ := (planted.reaches_iff.mpr member).exists_path
  cases path with
  | nil =>
      cases followed
      exact absurd rfl inner
  | cons slot path =>
      obtain ⟨child, found, later⟩ := planted.spans.follow?_cons followed
      obtain ⟨rfl, rfl⟩ : slot = 0 ∧ body = child := by
        cases slot with
        | zero => exact ⟨rfl, Option.some.inj found⟩
        | succ slot => cases found
      exact ⟨body, path, rfl, node, followed, later⟩

/-! ## Subtrees apart -/

/-- What stands alone has no place in common with a sound tree: going up along parent links from
such a place, one would come to the top of what stands alone. -/
theorem Planted.not_mem_of_stands (planted : tree.Planted layout) (stands : tree.Stands replacement)
    (inner : (tree.node replacement).isRoot = false) {id : NodeId}
    (reached : tree.Reaches replacement id) : id ∉ layout.places := by
  induction reached with
  | refl =>
      intro member
      obtain ⟨part, inside, same⟩ := Layout.exists_within_of_mem member
      rcases planted.eq_root_or_held inside with rfl | ⟨place, _, _, _, link⟩
      · rw [← same, planted.place, planted.isRoot] at inner
        cases inner
      · rw [same, stands.unheld] at link
        cases link
  | child above step ih =>
      intro member
      exact ih (planted.parent_mem member (stands.held _ _ above step))

structure Swaps (tree : Tree) (layout : Layout) (old holder : NodeId) (below : List Layout)
    (grafted : Layout) (edited : Tree) : Prop where
  site : tree.Site layout old holder below []
  spans : tree.Spans grafted
  nodup : grafted.places.Nodup
  inside : grafted.place.index < tree.size
  inner : (tree.node grafted.place).isRoot = false
  apart : ∀ id ∈ grafted.places, id ∉ layout.places
  size : edited.size = tree.size
  repoints : Node.Repoints old grafted.place (tree.node holder) (edited.node holder)
  node : ∀ id, id ≠ holder → edited.node id = tree.node id
  parent : ∀ id, edited.parent id =
    if id = old then none else if id = grafted.place then some holder else tree.parent id

namespace Swaps

variable {id : NodeId}

theorem node_of_not_mem (swaps : tree.Swaps layout old holder below grafted edited)
    (absent : id ∉ layout.outside old) : edited.node id = tree.node id := by
  refine swaps.node id ?_
  rintro rfl
  exact absent swaps.site.holder_outside

theorem parent_of_ne (swaps : tree.Swaps layout old holder below grafted edited)
    (other : id ≠ old) (otherNew : id ≠ grafted.place) : edited.parent id = tree.parent id := by
  rw [swaps.parent, if_neg other, if_neg otherNew]

theorem ne_top (swaps : tree.Swaps layout old holder below grafted edited)
    (member : id ∈ layout.places) : id ≠ grafted.place := by
  rintro rfl
  exact swaps.apart _ grafted.place_mem_places member

theorem not_outside_of_mem (swaps : tree.Swaps layout old holder below grafted edited)
    (member : id ∈ grafted.places) : id ∉ layout.outside old :=
  fun outside => swaps.apart id member (swaps.site.mem_of_outside outside)

theorem spans_grafted (swaps : tree.Swaps layout old holder below grafted edited) :
    edited.Spans grafted := by
  refine swaps.spans.frame ?_ ?_
  · intro id member
    exact swaps.node_of_not_mem (swaps.not_outside_of_mem member)
  · intro id inTail
    refine swaps.parent_of_ne ?_ ?_
    · rintro rfl
      exact swaps.apart _ (List.mem_of_mem_tail inTail) swaps.site.target_mem
    · rintro rfl
      exact Layout.place_not_mem_tail swaps.nodup inTail

theorem grafts (swaps : tree.Swaps layout old holder below grafted edited) :
    tree.Grafts layout old edited grafted where
  children _ outside :=
    (swaps.site.node_outside (fun id _ => swaps.node id) swaps.repoints outside).1
  expr _ outside :=
    (swaps.site.node_outside (fun id _ => swaps.node id) swaps.repoints outside).2.1
  isRoot _ outside :=
    (swaps.site.node_outside (fun id _ => swaps.node id) swaps.repoints outside).2.2
  parent _ outside :=
    swaps.parent_of_ne (swaps.site.not_held_of_outside outside).1
      (swaps.ne_top (swaps.site.mem_of_outside outside))
  link := by
    rw [swaps.parent, if_neg (swaps.ne_top swaps.site.target_mem).symm, if_pos rfl,
      swaps.site.parent]
  spans := swaps.spans_grafted
  inner := by
    rw [swaps.node_of_not_mem (swaps.not_outside_of_mem grafted.place_mem_places)]
    exact swaps.inner
  nodup := swaps.nodup
  apart _ outside member := swaps.apart _ member (swaps.site.mem_of_outside outside)

theorem planted (swaps : tree.Swaps layout old holder below grafted edited) :
    edited.Planted (layout.graft old grafted) :=
  swaps.site.planted.graft swaps.site.inside swaps.site.target_ne_root swaps.grafts

/-! ### What is left behind -/

theorem node_removed (swaps : tree.Swaps layout old holder below grafted edited)
    (member : id ∈ (Layout.node old below).places) : edited.node id = tree.node id :=
  swaps.node_of_not_mem fun outside =>
    swaps.site.inside.disjoint_outside swaps.site.planted.nodup outside member

theorem parent_removed (swaps : tree.Swaps layout old holder below grafted edited)
    (member : id ∈ (Layout.node old below).places) (other : id ≠ old) :
    edited.parent id = tree.parent id :=
  swaps.parent_of_ne other (swaps.ne_top (swaps.site.inside.sublist.subset member))

theorem spans_removed (swaps : tree.Swaps layout old holder below grafted edited) :
    edited.Spans (.node old below) := by
  have whole := swaps.site.planted.spans.within swaps.site.inside
  refine whole.frame (fun id member => swaps.node_removed member) fun id inTail => ?_
  refine swaps.parent_removed (List.mem_of_mem_tail inTail) ?_
  rintro rfl
  exact Layout.place_not_mem_tail (swaps.site.inside.nodup swaps.site.planted.nodup) inTail

theorem expr?_removed (swaps : tree.Swaps layout old holder below grafted edited) :
    edited.expr? old = tree.expr? old := by
  have nodup := swaps.site.inside.nodup swaps.site.planted.nodup
  have oldInside : old.index < edited.size := by
    rw [swaps.size]
    exact swaps.site.planted.index_lt swaps.site.target_mem
  have reading := swaps.spans_removed.expr?_place nodup oldInside
  have reading' := swaps.site.planted.expr?_place swaps.site.inside
  rw [Layout.place_node] at reading reading'
  rw [reading, reading']
  exact congrArg some (exprAlong_congr fun id member =>
    congrArg Node.expr (swaps.node_removed member))

/-! ### What is read -/

theorem expr (swaps : tree.Swaps layout old holder below grafted edited) :
    ∃ path whole part new, tree.follow? root (0 :: path) = some old ∧
      tree.expr? root = some whole ∧ tree.expr? old = some part ∧
      tree.expr? grafted.place = some new ∧ whole.subexpr? path = some part ∧
      edited.expr? root = some (whole.replaceAt path new) := by
  have before := swaps.site.planted
  obtain ⟨body, path, rfl, node, followed, along⟩ :=
    before.exists_path swaps.site.target_mem swaps.site.target_ne_root
  have spans : tree.Spans body := before.spans.child List.mem_cons_self
  have inner : (tree.node body.place).isRoot = false := before.spans.isRoot List.mem_cons_self
  have held : body.Within (.node root ([] ++ [body])) := .child .refl
  have nodup := held.nodup before.nodup
  have inBody := (spans.of_follow? along).1
  have top : tree.exprAlong (.node root [body]) = tree.exprAlong body := by
    rw [exprAlong_node, node]
    rfl
  obtain ⟨part, inside, same, found⟩ := spans.exists_subexpr? inner along
  have outside : ∀ id ∈ body.outside old, (edited.node id).expr = (tree.node id).expr := by
    intro id member
    refine swaps.grafts.expr id ?_
    rw [← List.nil_append [body], Layout.outside_split before.nodup inBody]
    simp [member]
  have reading : edited.exprAlong grafted = tree.exprAlong grafted :=
    exprAlong_congr fun id member =>
      congrArg Node.expr (swaps.node_of_not_mem (swaps.not_outside_of_mem member))
  have after : edited.exprAlong ((Layout.node root [body]).graft old grafted) =
      (tree.exprAlong body).replaceAt path (tree.exprAlong grafted) := by
    have split : edited.exprAlong ((Layout.node root ([] ++ [body])).graft old grafted) = _ :=
      exprAlong_graft_split grafted before.nodup inBody swaps.grafts.expr
    rw [List.nil_append, node] at split
    rw [split, ← reading]
    exact spans.exprAlong_graft nodup inner along outside
  refine ⟨path, tree.exprAlong body, tree.exprAlong part, tree.exprAlong grafted, followed, ?_, ?_,
    swaps.spans.expr?_place swaps.nodup swaps.inside, found, ?_⟩
  · rw [before.expr?_root, top]
  · rw [← same]
    exact before.expr?_place (inside.trans held)
  · rw [swaps.planted.expr?_root, after]

theorem reaches_iff (swaps : tree.Swaps layout old holder below grafted edited) :
    edited.Reaches root id ↔
      tree.Reaches root id ∧ ¬ tree.Reaches old id ∨ tree.Reaches grafted.place id := by
  have inside := swaps.site.inside
  have nodup := swaps.site.planted.nodup
  have removed : tree.Reaches old id ↔ id ∈ (Layout.node old below).places :=
    (swaps.site.planted.spans.within inside).reaches_iff
  have kept : id ∈ layout.outside old ↔
      id ∈ layout.places ∧ id ∉ (Layout.node old below).places := by
    rw [(inside.places_perm nodup).mem_iff, List.mem_append, Layout.place_node]
    have apart : id ∈ layout.outside old → id ∉ (Layout.node old below).places :=
      fun outside => inside.disjoint_outside nodup outside
    tauto
  rw [swaps.planted.reaches_iff, swaps.site.mem_graft_iff, kept, removed,
    swaps.site.planted.reaches_iff, swaps.spans.reaches_iff]

theorem substitutes (swaps : tree.Swaps layout old holder below grafted edited) :
    tree.Substitutes old grafted.place edited := by
  have removed (id : NodeId) : tree.Reaches old id ↔ id ∈ (Layout.node old below).places :=
    (swaps.site.planted.spans.within swaps.site.inside).reaches_iff
  constructor
  case accepted => exact check_eq_ok_iff.mpr ⟨_, swaps.planted⟩
  case expr => exact swaps.expr
  case reaches_iff => exact fun id => swaps.reaches_iff
  case freed => rw [swaps.parent, if_pos rfl]
  case below_iff => exact fun id => swaps.spans_removed.reaches_iff.trans (removed id).symm
  case node => exact fun id reached => swaps.node_removed ((removed id).mp reached)
  case parent => exact fun id reached other => swaps.parent_removed ((removed id).mp reached) other
  case removed => exact swaps.expr?_removed

end Swaps

theorem exists_swaps (accepted : tree.check = .ok ()) (reached : tree.Reaches root old)
    (other : old ≠ root) (inside : replacement.index < tree.size)
    (inner : (tree.node replacement).isRoot = false) (stands : tree.Stands replacement) :
    ∃ layout holder below grafted edited, grafted.place = replacement ∧
      tree.replace old replacement = .ok edited ∧
      tree.Swaps layout old holder below grafted edited := by
  obtain ⟨layout, planted⟩ := check_eq_ok_iff.mp accepted
  obtain ⟨grafted, rfl, spans, nodup⟩ := stands.exists_layout inside
  have apart : ∀ id ∈ grafted.places, id ∉ layout.places := fun id member =>
    planted.not_mem_of_stands stands inner (spans.reaches_iff.mpr member)
  have oldInner := planted.wellFormed.inner old reached other
  obtain ⟨part, within, rfl⟩ := Layout.exists_within_of_mem (planted.reaches_iff.mp reached)
  cases part with
  | node old below =>
      obtain ⟨holder, site⟩ := planted.exists_site within oldInner (List.nil_sublist below)
      obtain ⟨repointed, repoint, repoints⟩ := site.exists_repoint? grafted.place
      have ne_top (id : NodeId) (member : id ∈ layout.places) : id ≠ grafted.place := by
        rintro rfl
        exact apart _ grafted.place_mem_places member
      have acyclic : grafted.place ∉ tree.lineage holder := by
        intro above
        have holderMember := planted.parent_mem site.target_mem site.parent
        have member := lineage_closed (fun _ _ member link => planted.parent_mem member link)
          holderMember _ above
        exact ne_top _ member rfl
      obtain ⟨edited, replaced, size, nodes, parents⟩ := exists_replace
        (ne_top old site.target_mem) other (ne_top root planted.root_mem).symm inside stands.unheld
        site.parent acyclic repoint
      refine ⟨layout, holder, below, grafted, edited, rfl, replaced, ?_⟩
      refine ⟨site, spans, nodup, inside, inner, apart, size, ?_, fun id different => ?_, parents⟩
      · rw [nodes, if_pos rfl]
        exact repoints
      · rw [nodes, if_neg different]

/-- A list that holds all children of its members tells whether a subtree stands alone. -/
theorem stands_of_closed (ids : List NodeId) (member : replacement ∈ ids)
    (unheld : tree.parent replacement = none)
    (closed : ∀ id ∈ ids, (tree.children id).Nodup ∧ ∀ child ∈ tree.children id, child ∈ ids ∧
      tree.parent child = some id ∧ (tree.node child).isRoot = false) :
    tree.Stands replacement := by
  have inside (id : NodeId) (reached : tree.Reaches replacement id) : id ∈ ids := by
    induction reached with
    | refl => exact member
    | child _ step ih => exact ((closed _ ih).2 _ step).1
  refine ⟨unheld, ?_, fun id reached => (closed id (inside id reached)).1, ?_⟩
  · intro holder child reached step
    exact ((closed holder (inside holder reached)).2 child step).2.1
  · intro holder child reached step
    exact ((closed holder (inside holder reached)).2 child step).2.2

/-- A detached subtree whose links are those of a tree can take the place of any node of a sound
tree but the root. The tree stays sound, and exactly the one subexpression changes. -/
theorem replace_substitutes (accepted : tree.check = .ok ()) (reached : tree.Reaches root old)
    (other : old ≠ root) (inside : replacement.index < tree.size)
    (inner : (tree.node replacement).isRoot = false) (stands : tree.Stands replacement) :
    ∃ edited, tree.replace old replacement = .ok edited ∧
      tree.Substitutes old replacement edited := by
  obtain ⟨layout, holder, below, grafted, edited, rfl, replaced, swaps⟩ :=
    exists_swaps accepted reached other inside inner stands
  exact ⟨edited, replaced, swaps.substitutes⟩

/-- The product of `f(x)` and `x`, beside the detached sum of `y` and `2`. -/
def productBesideSum : Tree where
  slots := #[
    ⟨.root ⟨5⟩, none⟩, ⟨.identifier "f", some ⟨3⟩⟩, ⟨.identifier "x", some ⟨3⟩⟩,
    ⟨.call ⟨1⟩ [⟨2⟩], some ⟨5⟩⟩, ⟨.identifier "x", some ⟨5⟩⟩, ⟨.product ⟨3⟩ ⟨4⟩, some root⟩,
    ⟨.identifier "y", some ⟨8⟩⟩, ⟨.integer 2, some ⟨8⟩⟩,
    ⟨.operation .add ⟨6⟩ ⟨7⟩ .missing, none⟩]

theorem replace_substitutes_productBesideSum :
    productBesideSum.check = .ok () ∧ productBesideSum.Reaches root ⟨2⟩ ∧
      productBesideSum.Stands ⟨8⟩ ∧
      ∃ edited, productBesideSum.replace ⟨2⟩ ⟨8⟩ = .ok edited ∧
        productBesideSum.Substitutes ⟨2⟩ ⟨8⟩ edited := by
  have accepted : productBesideSum.check = .ok () := by decide
  have called : productBesideSum.Reaches root ⟨3⟩ :=
    .child (.child .refl (show (⟨5⟩ : NodeId) ∈ _ by decide)) (by decide)
  have reached : productBesideSum.Reaches root ⟨2⟩ := .child called (by decide)
  have stands : productBesideSum.Stands ⟨8⟩ :=
    stands_of_closed [⟨6⟩, ⟨7⟩, ⟨8⟩] (by decide) rfl (by decide)
  exact ⟨accepted, reached, stands,
    replace_substitutes accepted reached (by decide) (by decide) rfl stands⟩

end Juxtaposition.Tree
