import Juxtaposition.Proofs.Layout.Planted

/-!
# Well-formed arenas

What it means for an arena with arbitrary links that the nodes reachable from its root form a
tree, said by paths of child slots. The check of the links decides it, and on every arena the
walk of the check comes to an end without its bound.
-/

set_option autoImplicit false

namespace Juxtaposition.Tree

/-- The node at the end of a path. A path names the child slot to take at each node. -/
def follow? (tree : Tree) : NodeId → List Nat → Option NodeId
  | id, [] => some id
  | id, slot :: path => (tree.children id)[slot]?.bind fun child => tree.follow? child path

/-- The nodes reachable from the root form a tree of which every node knows its holder. -/
structure WellFormed (tree : Tree) : Prop where
  isRoot : (tree.node root).isRoot = true
  unheld : tree.parent root = none
  unique : ∀ id, tree.Reaches root id → ∃! path, tree.follow? root path = some id
  held : ∀ holder id, tree.Reaches root holder → id ∈ tree.children holder → id ≠ root →
    tree.parent id = some holder
  inner : ∀ id, tree.Reaches root id → id ≠ root → (tree.node id).isRoot = false

/-- What the walk of the check comes to from the nodes seen and pending, if it comes to an
end. No bound is set on the number of visits. -/
inductive WalksTo (tree : Tree) : (seen pending : List NodeId) → Option Defect → Prop where
  | done {seen : List NodeId} : WalksTo tree seen [] none
  | again {seen pending : List NodeId} {id : NodeId} :
      id ∈ seen → WalksTo tree seen (id :: pending) (some (.reachedTwice id))
  | broken {seen pending : List NodeId} {id : NodeId} {defect : Defect} :
      id ∉ seen → tree.linkDefect? id = some defect →
      WalksTo tree seen (id :: pending) (some defect)
  | onward {seen pending : List NodeId} {id : NodeId} {found : Option Defect} :
      id ∉ seen → tree.linkDefect? id = none →
      WalksTo tree (id :: seen) ((tree.children id).reverse ++ pending) found →
      WalksTo tree seen (id :: pending) found

inductive ChecksTo (tree : Tree) : Option Defect → Prop where
  | rootSlot : (tree.node root).isRoot = false →
      ChecksTo tree (some (.rootSlot (tree.node root).kind))
  | rootAttached : (tree.node root).isRoot = true → (tree.parent root).isSome = true →
      ChecksTo tree (some .rootAttached)
  | walk {found : Option Defect} : (tree.node root).isRoot = true → tree.parent root = none →
      WalksTo tree [] [root] found → ChecksTo tree found

variable {tree : Tree} {layout : Layout} {start holder id : NodeId} {path : List Nat}

/-! ## Termination -/

theorem WalksTo.unique {seen pending : List NodeId} {found other : Option Defect}
    (walk : tree.WalksTo seen pending found) (again : tree.WalksTo seen pending other) :
    found = other := by
  induction walk with
  | done =>
      cases again
      rfl
  | again member =>
      cases again with
      | again _ => rfl
      | broken fresh _ => exact absurd member fresh
      | onward fresh _ _ => exact absurd member fresh
  | broken fresh broken =>
      cases again with
      | again member => exact absurd member fresh
      | broken _ same =>
          rw [broken] at same
          exact same
      | onward _ sound _ =>
          rw [broken] at sound
          cases sound
  | onward fresh sound _ ih =>
      cases again with
      | again member => exact absurd member fresh
      | broken _ broken =>
          rw [sound] at broken
          cases broken
      | onward _ _ later => exact ih later

/-- With a bound beyond the size of the arena the walk is not cut off: every visit that finds
nothing wrong marks another place of the arena as seen. -/
theorem walksTo_reachableDefect? {bound : Nat} {seen pending : List NodeId}
    (enough : tree.size < seen.length + bound) (nodup : seen.Nodup)
    (seenInside : ∀ id ∈ seen, id.index < tree.size)
    (pendingInside : ∀ id ∈ pending, id.index < tree.size) :
    tree.WalksTo seen pending (tree.reachableDefect? bound seen pending) := by
  induction bound generalizing seen pending with
  | zero =>
      have few := length_le_size nodup seenInside
      omega
  | succ bound ih =>
      cases pending with
      | nil => exact .done
      | cons id pending =>
          rw [reachableDefect?]
          by_cases member : id ∈ seen
          · rw [if_pos member]
            exact .again member
          · rw [if_neg member]
            cases links : tree.linkDefect? id with
            | some defect => exact .broken member links
            | none =>
                refine .onward member links (ih ?_ ?_ ?_ ?_)
                · rw [List.length_cons]
                  omega
                · exact List.nodup_cons.mpr ⟨member, nodup⟩
                · intro other inSeen
                  rcases List.mem_cons.mp inSeen with rfl | earlier
                  · exact pendingInside other List.mem_cons_self
                  · exact seenInside other earlier
                · intro other inPending
                  rcases List.mem_append.mp inPending with child | later
                  · have link := linkDefect?_eq_none.mp links other (List.mem_reverse.mp child)
                    exact index_lt_of_parent tree link.1
                  · exact pendingInside other (List.mem_cons_of_mem _ later)

theorem ChecksTo.unique {found other : Option Defect} (checks : tree.ChecksTo found)
    (again : tree.ChecksTo other) : found = other := by
  cases checks with
  | rootSlot noRoot =>
      cases again with
      | rootSlot _ => rfl
      | rootAttached isRoot _ => simp [noRoot] at isRoot
      | walk isRoot _ _ => simp [noRoot] at isRoot
  | rootAttached isRoot attached =>
      cases again with
      | rootSlot noRoot => simp [isRoot] at noRoot
      | rootAttached _ _ => rfl
      | walk _ unheld _ => simp [unheld] at attached
  | walk isRoot unheld walk =>
      cases again with
      | rootSlot noRoot => simp [isRoot] at noRoot
      | rootAttached _ attached => simp [unheld] at attached
      | walk _ _ later => exact walk.unique later

theorem checksTo_defect? (tree : Tree) : tree.ChecksTo tree.defect? := by
  unfold defect?
  cases isRoot : (tree.node root).isRoot with
  | false => exact .rootSlot isRoot
  | true =>
      cases unheld : tree.parent root with
      | some holder => exact .rootAttached isRoot (by rw [unheld]; rfl)
      | none =>
          have inside : root.index < tree.size := index_lt_of_isRoot tree isRoot
          refine .walk isRoot unheld (walksTo_reachableDefect? ?_ List.nodup_nil ?_ ?_)
          · simp
          · simp
          · simpa using inside

theorem checksTo_iff {found : Option Defect} : tree.ChecksTo found ↔ found = tree.defect? := by
  constructor
  · intro checks
    exact checks.unique tree.checksTo_defect?
  · rintro rfl
    exact tree.checksTo_defect?

theorem check_eq_ok_iff_defect?_eq_none : tree.check = .ok () ↔ tree.defect? = none := by
  unfold check
  cases tree.defect? <;> simp

/-! ## Paths -/

theorem follow?_concat (tree : Tree) (path : List Nat) (slot : Nat) :
    tree.follow? start (path ++ [slot]) =
      (tree.follow? start path).bind fun holder => (tree.children holder)[slot]? := by
  induction path generalizing start with
  | nil => simp [follow?]
  | cons first path ih =>
      rw [List.cons_append, follow?, follow?]
      cases (tree.children start)[first]? with
      | none => rfl
      | some child => exact ih

theorem Reaches.exists_path (reached : tree.Reaches start id) :
    ∃ path, tree.follow? start path = some id := by
  induction reached with
  | refl => exact ⟨[], rfl⟩
  | child _ member ih =>
      obtain ⟨path, followed⟩ := ih
      obtain ⟨slot, found⟩ := List.mem_iff_getElem?.mp member
      refine ⟨path ++ [slot], ?_⟩
      rw [follow?_concat, followed]
      exact found

namespace Spans

theorem follow?_cons {place : NodeId} {below : List Layout} {slot : Nat}
    (spans : tree.Spans (.node place below))
    (followed : tree.follow? place (slot :: path) = some id) :
    ∃ child, below[slot]? = some child ∧ tree.follow? child.place path = some id := by
  rw [follow?, spans.children, List.getElem?_map] at followed
  cases found : below[slot]? with
  | none =>
      rw [found] at followed
      cases followed
  | some child =>
      rw [found] at followed
      exact ⟨child, rfl, followed⟩

/-- A path along a layout stays on it and is shorter than the layout is high. -/
theorem of_follow? (spans : tree.Spans layout)
    (followed : tree.follow? layout.place path = some id) :
    id ∈ layout.places ∧ path.length < layout.height := by
  induction path generalizing layout with
  | nil =>
      cases followed
      refine ⟨layout.place_mem_places, ?_⟩
      cases layout with
      | node place below => simp
  | cons slot path ih =>
      cases layout with
      | node place below =>
          obtain ⟨child, found, later⟩ := spans.follow?_cons followed
          have member : child ∈ below := List.mem_of_getElem? found
          obtain ⟨inside, shorter⟩ := ih (spans.child member) later
          have lower := Layout.height_lt_of_mem place member
          rw [List.length_cons]
          exact ⟨Layout.mem_places_of_mem member inside, by omega⟩

private theorem top_not_followed {place : NodeId} {below : List Layout} {slot : Nat}
    (spans : tree.Spans (.node place below)) (nodup : (Layout.node place below).places.Nodup) :
    tree.follow? place (slot :: path) ≠ some place := by
  intro followed
  obtain ⟨child, found, later⟩ := spans.follow?_cons followed
  have member : child ∈ below := List.mem_of_getElem? found
  have inside := ((spans.child member).of_follow? later).1
  rw [Layout.places_node, List.nodup_cons] at nodup
  exact nodup.1 (List.mem_flatMap.mpr ⟨child, member, inside⟩)

theorem follow?_inj (spans : tree.Spans layout) (nodup : layout.places.Nodup) {other : List Nat}
    (first : tree.follow? layout.place path = some id)
    (second : tree.follow? layout.place other = some id) : path = other := by
  induction path generalizing layout other with
  | nil =>
      cases first
      cases other with
      | nil => rfl
      | cons slot other =>
          cases layout with
          | node place below => exact absurd second (spans.top_not_followed nodup)
  | cons slot path ih =>
      cases layout with
      | node place below =>
          cases other with
          | nil =>
              cases second
              exact absurd first (spans.top_not_followed nodup)
          | cons slot' other =>
              obtain ⟨child, found, later⟩ := spans.follow?_cons first
              obtain ⟨child', found', later'⟩ := spans.follow?_cons second
              have member : child ∈ below := List.mem_of_getElem? found
              have member' : child' ∈ below := List.mem_of_getElem? found'
              have inside := ((spans.child member).of_follow? later).1
              have inside' := ((spans.child member').of_follow? later').1
              have same : slot = slot' := by
                by_contra different
                rw [Layout.places_node, List.nodup_cons, List.nodup_flatMap] at nodup
                have apart := List.pairwise_iff_getElem.mp nodup.2.2
                obtain ⟨bound, rfl⟩ := List.getElem?_eq_some_iff.mp found
                obtain ⟨bound', rfl⟩ := List.getElem?_eq_some_iff.mp found'
                rcases Nat.lt_or_gt_of_ne different with lower | higher
                · exact apart slot slot' bound bound' lower inside inside'
                · exact apart slot' slot bound' bound higher inside' inside
              subst same
              rw [found] at found'
              cases found'
              have alone := (Layout.Within.of_mem .refl member).nodup nodup
              rw [ih (spans.child member) alone later later']

end Spans

theorem Planted.wellFormed (planted : tree.Planted layout) : tree.WellFormed where
  isRoot := planted.isRoot
  unheld := planted.unheld
  unique id reached := by
    obtain ⟨path, followed⟩ := reached.exists_path
    refine ⟨path, followed, fun other again => ?_⟩
    rw [← planted.place] at followed again
    exact planted.spans.follow?_inj planted.nodup again followed
  held holder id reached child _ :=
    planted.spans.parent_of_mem (planted.reaches_iff.mp reached) child
  inner id reached other := by
    cases reached with
    | refl => exact absurd rfl other
    | @child holder _ reached child =>
        obtain ⟨part, inside, rfl⟩ :=
          Layout.exists_within_of_mem (planted.reaches_iff.mp reached)
        cases part with
        | node place below =>
            have spans := planted.spans.within inside
            rw [Layout.place_node, spans.children] at child
            obtain ⟨inner, member, rfl⟩ := List.mem_map.mp child
            exact spans.isRoot member

/-! ## Subtrees that stand alone -/

/-- A node without a parent whose subtree is a tree. Every node below it sits in one slot only,
points back at the node that holds it, and is no root node. -/
structure Stands (tree : Tree) (top : NodeId) : Prop where
  unheld : tree.parent top = none
  held : ∀ holder child, tree.Reaches top holder → child ∈ tree.children holder →
    tree.parent child = some holder
  nodup : ∀ holder, tree.Reaches top holder → (tree.children holder).Nodup
  inner : ∀ holder child, tree.Reaches top holder → child ∈ tree.children holder →
    (tree.node child).isRoot = false

namespace Stands

variable {top : NodeId}

theorem ne_top (stands : tree.Stands top) (reached : tree.Reaches top holder)
    (child : id ∈ tree.children holder) : id ≠ top := by
  rintro rfl
  have link := stands.held holder id reached child
  rw [stands.unheld] at link
  cases link

theorem linkDefect?_eq_none (stands : tree.Stands top) (reached : tree.Reaches top id) :
    tree.linkDefect? id = none := by
  rw [Tree.linkDefect?_eq_none]
  intro child member
  exact ⟨stands.held id child reached member, stands.inner id child reached member⟩

theorem nodup_held (stands : tree.Stands top) {holders : List NodeId} (nodup : holders.Nodup)
    (reached : ∀ holder ∈ holders, tree.Reaches top holder) :
    (top :: holders.flatMap tree.children).Nodup := by
  rw [List.nodup_cons, List.nodup_flatMap]
  refine ⟨?_, fun holder member => stands.nodup holder (reached holder member), ?_⟩
  · intro held
    obtain ⟨holder, member, child⟩ := List.mem_flatMap.mp held
    exact stands.ne_top (reached holder member) child rfl
  · refine nodup.imp_of_mem fun {left right} inLeft inRight different => ?_
    intro id child child'
    have link := stands.held left id (reached left inLeft) child
    rw [stands.held right id (reached right inRight) child', Option.some.injEq] at link
    exact different link.symm

/-- The nodes seen and pending are the top and the children of the nodes seen. So no node
comes up twice as long as no node below the top is held twice. -/
theorem eq_none_of_walksTo (stands : tree.Stands top) {seen pending : List NodeId}
    {found : Option Defect} (walk : tree.WalksTo seen pending found) (nodup : seen.Nodup)
    (reached : ∀ id ∈ seen ++ pending, tree.Reaches top id)
    (met : (seen ++ pending).Perm (top :: seen.flatMap tree.children)) : found = none := by
  induction walk with
  | done => rfl
  | @again seen pending id member =>
      have once := met.nodup_iff.mpr (stands.nodup_held nodup fun holder inSeen =>
        reached holder (List.mem_append_left _ inSeen))
      rw [List.nodup_append'] at once
      exact absurd List.mem_cons_self (once.2.2 member)
  | @broken seen pending id defect _ broken =>
      rw [stands.linkDefect?_eq_none (reached id (by simp))] at broken
      cases broken
  | @onward seen pending id found fresh _ _ ih =>
      have here : tree.Reaches top id := reached id (by simp)
      refine ih (List.nodup_cons.mpr ⟨fresh, nodup⟩) ?_ ?_
      · intro other member
        simp only [List.cons_append, List.mem_cons, List.mem_append, List.mem_reverse] at member
        rcases member with rfl | earlier | child | later
        · exact here
        · exact reached other (List.mem_append_left _ earlier)
        · exact .child here child
        · exact reached other (by simp [later])
      · rw [List.perm_iff_count] at met ⊢
        intro other
        have before := met other
        simp only [List.count_append, List.count_cons, List.count_reverse, List.flatMap_cons]
          at before ⊢
        omega

theorem walksTo_eq_none (stands : tree.Stands top) {found : Option Defect}
    (walk : tree.WalksTo [] [top] found) : found = none := by
  refine stands.eq_none_of_walksTo walk List.nodup_nil ?_ (List.Perm.refl _)
  intro id member
  rw [List.nil_append, List.mem_singleton] at member
  rw [member]
  exact .refl

/-- A subtree that stands alone has a layout. -/
theorem exists_layout (stands : tree.Stands top) (inside : top.index < tree.size) :
    ∃ layout, layout.place = top ∧ tree.Spans layout ∧ layout.places.Nodup := by
  have enough : tree.size < ([] : List NodeId).length + (tree.size + 1) := by simp
  have pendingInside : ∀ id ∈ [top], id.index < tree.size := by simpa using inside
  have sound := stands.walksTo_eq_none
    (walksTo_reachableDefect? enough List.nodup_nil (by simp) pendingInside)
  obtain ⟨layouts, places, spans, distinct⟩ :=
    exists_layouts_of_sound enough List.nodup_nil (by simp) pendingInside sound
  obtain ⟨layout, rest, rfl, place, nothing⟩ := List.map_eq_cons_iff.mp places
  obtain rfl := List.map_eq_nil_iff.mp nothing
  exact ⟨layout, place, spans layout List.mem_cons_self, by simpa using distinct⟩

end Stands

/-! ## The walk on a well-formed arena -/

namespace WellFormed

theorem ne_root (wellFormed : tree.WellFormed) (reached : tree.Reaches root holder)
    (child : id ∈ tree.children holder) : id ≠ root := by
  rintro rfl
  obtain ⟨path, followed⟩ := reached.exists_path
  obtain ⟨slot, found⟩ := List.mem_iff_getElem?.mp child
  have around : tree.follow? root (path ++ [slot]) = some root := by
    rw [follow?_concat, followed]
    exact found
  have nothing := (wellFormed.unique root .refl).unique around (rfl : tree.follow? root [] = _)
  simp at nothing

/-- Different slots are at the end of different paths. -/
theorem slot_unique (wellFormed : tree.WellFormed) {slot slot' : Nat}
    (reached : tree.Reaches root holder) (found : (tree.children holder)[slot]? = some id)
    (found' : (tree.children holder)[slot']? = some id) : slot = slot' := by
  obtain ⟨path, followed⟩ := reached.exists_path
  have first : tree.follow? root (path ++ [slot]) = some id := by
    rw [follow?_concat, followed]
    exact found
  have second : tree.follow? root (path ++ [slot']) = some id := by
    rw [follow?_concat, followed]
    exact found'
  have member : id ∈ tree.children holder := List.mem_of_getElem? found
  have same := (wellFormed.unique id (.child reached member)).unique first second
  exact List.singleton_inj.mp (List.append_cancel_left same)

theorem stands (wellFormed : tree.WellFormed) : tree.Stands root where
  unheld := wellFormed.unheld
  held holder child reached member :=
    wellFormed.held holder child reached member (wellFormed.ne_root reached member)
  nodup holder reached := by
    rw [List.nodup_iff_getElem?_ne_getElem?]
    intro slot slot' lower bound same
    have found' := List.getElem?_eq_getElem bound
    have equal := wellFormed.slot_unique reached (same.trans found') found'
    omega
  inner _ child reached member :=
    wellFormed.inner child (.child reached member) (wellFormed.ne_root reached member)

theorem check_eq_ok (wellFormed : tree.WellFormed) : tree.check = .ok () := by
  rw [check_eq_ok_iff_defect?_eq_none]
  have checks := tree.checksTo_defect?
  generalize tree.defect? = found at checks
  cases checks with
  | rootSlot noRoot =>
      rw [wellFormed.isRoot] at noRoot
      cases noRoot
  | rootAttached _ attached =>
      rw [wellFormed.unheld] at attached
      cases attached
  | walk _ _ walk => exact wellFormed.stands.walksTo_eq_none walk

end WellFormed

/-- The check comes to an end on every arena, and it accepts exactly the well-formed ones. In
these all paths from the root are shorter than the arena is large, so the reachable part is a
finite tree. -/
theorem check_decides_wellFormed (tree : Tree) :
    (∀ found, tree.ChecksTo found ↔ found = tree.defect?) ∧
      (tree.check = .ok () ↔ tree.WellFormed) ∧
      (tree.WellFormed → ∀ path id, tree.follow? root path = some id →
        path.length < tree.size) := by
  refine ⟨fun found => checksTo_iff, ⟨fun accepted => ?_, fun wellFormed => ?_⟩,
    fun wellFormed path id followed => ?_⟩
  · obtain ⟨layout, planted⟩ := check_eq_ok_iff.mp accepted
    exact planted.wellFormed
  · exact wellFormed.check_eq_ok
  · obtain ⟨layout, planted⟩ := check_eq_ok_iff.mp wellFormed.check_eq_ok
    rw [← planted.place] at followed
    have shorter := (planted.spans.of_follow? followed).2
    have bounded := planted.height_le
    omega

end Juxtaposition.Tree
