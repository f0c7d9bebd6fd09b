import Juxtaposition.Proofs.Tree.Repoint

/-!
# Nodes with other places

The same node with its children at other places. What remains of a node when the places of
its children do not count is its outline. No edit of an arena changes the outline of a node.
-/

set_option autoImplicit false

namespace Juxtaposition

namespace Node

def rename (place : NodeId → NodeId) : Node → Node
  | root body => root (place body)
  | identifier name => identifier name
  | integer value => integer value
  | float value literal => float value literal
  | call callee arguments => call (place callee) (arguments.map place)
  | operation operator lhs rhs provenance => operation operator (place lhs) (place rhs) provenance
  | group items => group (items.map place)
  | negation operand => negation (place operand)

def outline : Node → Node :=
  rename fun _ => Tree.root

variable {place other : NodeId → NodeId} {node : Node}

theorem children_rename (place : NodeId → NodeId) (node : Node) :
    (node.rename place).children = node.children.map place := by
  cases node <;> rfl

theorem expr_rename (place : NodeId → NodeId) (node : Node) :
    (node.rename place).expr = node.expr := by
  funext below
  cases node with
  | identifier name => rfl
  | integer value => rfl
  | float value literal => rfl
  | group items => rfl
  | root body => rcases below with _ | ⟨_, _ | _⟩ <;> rfl
  | call callee arguments => cases below <;> rfl
  | operation operator lhs rhs provenance => rcases below with _ | ⟨_, _ | ⟨_, _ | _⟩⟩ <;> rfl
  | negation operand => rcases below with _ | ⟨_, _ | _⟩ <;> rfl

@[simp] theorem isRoot_rename (place : NodeId → NodeId) (node : Node) :
    (node.rename place).isRoot = node.isRoot := by
  cases node <;> rfl

@[simp] theorem name?_rename (place : NodeId → NodeId) (node : Node) :
    (node.rename place).name? = node.name? := by
  cases node <;> rfl

theorem rename_rename (place other : NodeId → NodeId) (node : Node) :
    (node.rename place).rename other = node.rename fun id => other (place id) := by
  cases node <;> simp [rename]

/-- Only the places of the children count. -/
theorem rename_congr (same : ∀ child ∈ node.children, place child = other child) :
    node.rename place = node.rename other := by
  cases node with
  | root body => exact congrArg root (same body List.mem_cons_self)
  | identifier name => rfl
  | integer value => rfl
  | float value literal => rfl
  | call callee arguments =>
      have head := same callee List.mem_cons_self
      have tail := List.map_congr_left fun item member => same item (List.mem_cons_of_mem _ member)
      rw [rename, rename, head, tail]
  | operation operator lhs rhs provenance =>
      have left := same lhs (by simp [children])
      have right := same rhs (by simp [children])
      rw [rename, rename, left, right]
  | group items => exact congrArg group (List.map_congr_left same)
  | negation operand => exact congrArg negation (same operand List.mem_cons_self)

@[simp] theorem outline_rename (place : NodeId → NodeId) (node : Node) :
    (node.rename place).outline = node.outline :=
  rename_rename place _ node

theorem repointFirst?_map {old replacement : NodeId} {ids : List NodeId}
    (apart : ∀ id ∈ ids, place id = place old → id = old) :
    repointFirst? (place old) (place replacement) (ids.map place) =
      (repointFirst? old replacement ids).map (List.map place) := by
  induction ids with
  | nil => rfl
  | cons first rest ih =>
      have same : place first = place old ↔ first = old :=
        ⟨apart first List.mem_cons_self, congrArg place⟩
      rw [List.map_cons, repointFirst?, repointFirst?,
        ih fun id member => apart id (List.mem_cons_of_mem _ member)]
      simp only [same]
      split
      · rfl
      · rw [Option.map_map, Option.map_map]
        rfl

/-- Where no two children are put at one place, it does not matter which one is exchanged
first. -/
theorem repoint?_rename {old : NodeId} (replacement : NodeId)
    (apart : ∀ child ∈ node.children, place child = place old → child = old) :
    (node.rename place).repoint? (place old) (place replacement) =
      (node.repoint? old replacement).map (rename place) := by
  have same (child : NodeId) (member : child ∈ node.children) :
      place child = place old ↔ child = old :=
    ⟨apart child member, congrArg place⟩
  cases node with
  | root body =>
      simp only [rename, repoint?, same body List.mem_cons_self]
      split <;> rfl
  | identifier name => rfl
  | integer value => rfl
  | float value literal => rfl
  | call callee arguments =>
      have later : repointFirst? (place old) (place replacement) (arguments.map place) = _ :=
        repointFirst?_map fun id member => apart id (List.mem_cons_of_mem _ member)
      simp only [rename, repoint?, same callee List.mem_cons_self, later]
      split
      · rfl
      · cases repointFirst? old replacement arguments <;> rfl
  | operation operator lhs rhs provenance =>
      have left := same lhs (by simp [children])
      have right := same rhs (by simp [children])
      simp only [rename, repoint?, left, right]
      split
      · rfl
      · split <;> rfl
  | group items =>
      have inner : repointFirst? (place old) (place replacement) (items.map place) = _ :=
        repointFirst?_map apart
      simp only [rename, repoint?, inner]
      cases repointFirst? old replacement items <;> rfl
  | negation operand =>
      simp only [rename, repoint?, same operand List.mem_cons_self]
      split <;> rfl

private theorem map_const_of_repointFirst? {old replacement : NodeId} {ids repointed : List NodeId}
    (found : repointFirst? old replacement ids = some repointed) :
    repointed.map (fun _ => Tree.root) = ids.map fun _ => Tree.root := by
  obtain ⟨before, after, rfl, _, rfl⟩ := repointFirst?_eq_some found
  rw [List.map_append, List.map_append, List.map_cons, List.map_cons]

theorem outline_of_repoint? {old replacement : NodeId} {repointed : Node}
    (repoint : node.repoint? old replacement = some repointed) :
    repointed.outline = node.outline := by
  cases node with
  | root body =>
      obtain ⟨_, found⟩ := Option.ite_none_right_eq_some.mp repoint
      cases found
      rfl
  | identifier name => cases repoint
  | integer value => cases repoint
  | float value literal => cases repoint
  | call callee arguments =>
      rw [repoint?] at repoint
      split at repoint
      · cases repoint
        rfl
      · obtain ⟨_, found, rfl⟩ := Option.map_eq_some_iff.mp repoint
        exact congrArg (call Tree.root) (map_const_of_repointFirst? found)
  | operation operator lhs rhs provenance =>
      rw [repoint?] at repoint
      split at repoint
      · cases repoint
        rfl
      · obtain ⟨_, found⟩ := Option.ite_none_right_eq_some.mp repoint
        cases found
        rfl
  | group items =>
      obtain ⟨_, found, rfl⟩ := Option.map_eq_some_iff.mp repoint
      exact congrArg group (map_const_of_repointFirst? found)
  | negation operand =>
      obtain ⟨_, found⟩ := Option.ite_none_right_eq_some.mp repoint
      cases found
      rfl

end Node

namespace Tree

variable {tree middle later edited : Tree} {old replacement : NodeId}

structure KeepsOutlines (tree later : Tree) : Prop where
  size : tree.size ≤ later.size
  outline : ∀ id : NodeId, id.index < tree.size →
    (later.node id).outline = (tree.node id).outline

theorem KeepsOutlines.refl (tree : Tree) : tree.KeepsOutlines tree :=
  ⟨Nat.le_refl _, fun _ _ => rfl⟩

theorem KeepsOutlines.trans (first : tree.KeepsOutlines middle)
    (second : middle.KeepsOutlines later) : tree.KeepsOutlines later where
  size := Nat.le_trans first.size second.size
  outline id inside :=
    (second.outline id (Nat.lt_of_lt_of_le inside first.size)).trans (first.outline id inside)

theorem store_keepsOutlines (tree : Tree) (node : Node) :
    tree.KeepsOutlines (tree.store node).2 where
  size := by
    rw [size_store]
    exact Nat.le_succ _
  outline id inside := by
    rw [node_store, if_neg]
    rintro rfl
    exact Nat.lt_irrefl _ inside

theorem keepsOutlines_replace (inside : replacement.index < tree.size)
    (result : tree.replace old replacement = .ok edited) : tree.KeepsOutlines edited := by
  rcases replace_eq_ok_cases inside result with ⟨_, rfl⟩ | ⟨holder, replaced⟩
  · exact .refl edited
  · obtain ⟨repointed, repoint, nodes⟩ := replaced.node
    refine ⟨Nat.le_of_eq replaced.size.symm, fun id _ => ?_⟩
    rw [nodes]
    split
    · next same => rw [Node.outline_of_repoint? repoint, same]
    · rfl

end Tree

end Juxtaposition
