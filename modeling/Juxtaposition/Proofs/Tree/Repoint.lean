import Juxtaposition.Proofs.Tree.Replace

/-!
# Carried out replacements

What is known when a replacement was carried out, in any arena: which slot was
pointed elsewhere, and which parent links have changed.
-/

set_option autoImplicit false

namespace Juxtaposition

namespace Node

variable {old replacement : NodeId} {ids repointed : List NodeId}

/-- The first slot that holds `old` is exchanged, and every other slot stays. -/
theorem repointFirst?_eq_some (found : repointFirst? old replacement ids = some repointed) :
    ∃ before after, ids = before ++ old :: after ∧ old ∉ before ∧
      repointed = before ++ replacement :: after := by
  induction ids generalizing repointed with
  | nil => cases found
  | cons first rest ih =>
      rw [repointFirst?] at found
      split at found
      · next same =>
        cases found
        exact ⟨[], rest, by rw [same]; rfl, List.not_mem_nil, rfl⟩
      · next different =>
        obtain ⟨inner, innerFound, rfl⟩ := Option.map_eq_some_iff.mp found
        obtain ⟨before, after, rfl, fresh, rfl⟩ := ih innerFound
        refine ⟨first :: before, after, rfl, ?_, rfl⟩
        rw [List.mem_cons, not_or]
        exact ⟨Ne.symm different, fresh⟩

theorem exists_repointFirst? (replacement : NodeId) (member : old ∈ ids) :
    ∃ repointed, repointFirst? old replacement ids = some repointed := by
  induction ids with
  | nil => cases member
  | cons first rest ih =>
      rw [repointFirst?]
      by_cases same : first = old
      · exact ⟨_, if_pos same⟩
      · obtain ⟨inner, found⟩ := ih ((List.mem_cons.mp member).resolve_left (Ne.symm same))
        exact ⟨first :: inner, by rw [if_neg same, found]; rfl⟩

/-- Repointing a node repoints its list of children. -/
theorem map_children_repoint? (old replacement : NodeId) (node : Node) :
    (node.repoint? old replacement).map children =
      repointFirst? old replacement node.children := by
  cases node with
  | root body => by_cases same : body = old <;> simp [repoint?, repointFirst?, children, same]
  | identifier name => rfl
  | integer value => rfl
  | float value literal => rfl
  | call callee arguments =>
      by_cases same : callee = old
      · simp [repoint?, repointFirst?, children, same]
      · simp only [repoint?, repointFirst?, children, if_neg same]
        cases repointFirst? old replacement arguments <;> rfl
  | operation operator lhs rhs provenance =>
      by_cases left : lhs = old
      · simp [repoint?, repointFirst?, children, left]
      · by_cases right : rhs = old <;> simp [repoint?, repointFirst?, children, left, right]
  | group items =>
      simp only [repoint?, children]
      cases repointFirst? old replacement items <;> rfl
  | negation operand =>
      by_cases same : operand = old <;> simp [repoint?, repointFirst?, children, same]

theorem exists_repoint?_of_mem {node : Node} (replacement : NodeId)
    (member : old ∈ node.children) :
    ∃ repointed, node.repoint? old replacement = some repointed := by
  obtain ⟨ids, found⟩ := exists_repointFirst? replacement member
  rw [← map_children_repoint?] at found
  obtain ⟨repointed, repoint, _⟩ := Option.map_eq_some_iff.mp found
  exact ⟨repointed, repoint⟩

theorem children_of_repoint? {node repointed : Node}
    (repoint : node.repoint? old replacement = some repointed) :
    ∃ before after, node.children = before ++ old :: after ∧ old ∉ before ∧
      repointed.children = before ++ replacement :: after := by
  refine repointFirst?_eq_some ?_
  rw [← map_children_repoint?, repoint, Option.map_some]

theorem isRoot_of_repoint? {node repointed : Node}
    (repoint : node.repoint? old replacement = some repointed) :
    repointed.isRoot = node.isRoot := by
  cases node with
  | root body =>
      obtain ⟨_, found⟩ := Option.ite_none_right_eq_some.mp repoint
      cases found
      rfl
  | identifier name => cases repoint
  | integer value => cases repoint
  | float value literal => cases repoint
  | call callee arguments =>
      rw [repoint?] at repoint
      split at repoint
      · cases repoint; rfl
      · obtain ⟨_, _, rfl⟩ := Option.map_eq_some_iff.mp repoint; rfl
  | operation operator lhs rhs provenance =>
      rw [repoint?] at repoint
      split at repoint
      · cases repoint; rfl
      · obtain ⟨_, found⟩ := Option.ite_none_right_eq_some.mp repoint
        cases found
        rfl
  | group items =>
      obtain ⟨_, _, rfl⟩ := Option.map_eq_some_iff.mp repoint
      rfl
  | negation operand =>
      obtain ⟨_, found⟩ := Option.ite_none_right_eq_some.mp repoint
      cases found
      rfl

end Node

namespace Tree

variable {tree edited : Tree} {old replacement : NodeId}

/-- A replacement that was carried out: one slot of the holder is pointed at the
replacement, and two parent links change. -/
structure Replaced (tree edited : Tree) (old replacement holder : NodeId) : Prop where
  detached : tree.parent replacement = none
  held : tree.parent old = some holder
  acyclic : replacement ∉ tree.lineage holder
  size : edited.size = tree.size
  node : ∃ repointed, (tree.node holder).repoint? old replacement = some repointed ∧
    ∀ id, edited.node id = if id = holder then repointed else tree.node id
  parent : ∀ id, edited.parent id =
    if id = old then none else if id = replacement then some holder else tree.parent id

namespace Replaced

variable {holder id child : NodeId}

theorem isRoot_node (replaced : tree.Replaced edited old replacement holder) (id : NodeId) :
    (edited.node id).isRoot = (tree.node id).isRoot := by
  obtain ⟨repointed, repoint, nodes⟩ := replaced.node
  rw [nodes]
  split
  · next same => rw [Node.isRoot_of_repoint? repoint, same]
  · rfl

theorem children_of_ne (replaced : tree.Replaced edited old replacement holder)
    (other : id ≠ holder) : edited.children id = tree.children id := by
  obtain ⟨_, _, nodes⟩ := replaced.node
  rw [children, nodes, if_neg other, children]

theorem exists_children (replaced : tree.Replaced edited old replacement holder) :
    ∃ before after, tree.children holder = before ++ old :: after ∧
      edited.children holder = before ++ replacement :: after := by
  obtain ⟨repointed, repoint, nodes⟩ := replaced.node
  obtain ⟨before, after, slots, _, slots'⟩ := Node.children_of_repoint? repoint
  refine ⟨before, after, slots, ?_⟩
  rw [children, nodes, if_pos rfl, slots']

/-- The only child that is new to its holder is the replacement. -/
theorem mem_children_cases (replaced : tree.Replaced edited old replacement holder)
    (member : child ∈ edited.children id) : child = replacement ∨ child ∈ tree.children id := by
  by_cases same : id = holder
  · subst same
    obtain ⟨before, after, slots, slots'⟩ := replaced.exists_children
    rw [slots', List.mem_append, List.mem_cons] at member
    rw [slots, List.mem_append, List.mem_cons]
    rcases member with early | new | late
    · exact .inr (.inl early)
    · exact .inl new
    · exact .inr (.inr (.inr late))
  · rw [replaced.children_of_ne same] at member
    exact .inr member

/-- The only child that a holder may lose is the replaced one. -/
theorem mem_children_of_ne (replaced : tree.Replaced edited old replacement holder)
    (other : child ≠ old) (member : child ∈ tree.children id) : child ∈ edited.children id := by
  by_cases same : id = holder
  · subst same
    obtain ⟨before, after, slots, slots'⟩ := replaced.exists_children
    rw [slots, List.mem_append, List.mem_cons] at member
    rw [slots', List.mem_append, List.mem_cons]
    exact member.imp_right fun rest => .inr (rest.resolve_left other)
  · rwa [replaced.children_of_ne same]

theorem replacement_mem_children (replaced : tree.Replaced edited old replacement holder) :
    replacement ∈ edited.children holder := by
  obtain ⟨before, after, _, slots'⟩ := replaced.exists_children
  rw [slots']
  exact List.mem_append_right _ List.mem_cons_self

end Replaced

theorem replace_eq_ok_cases (inside : replacement.index < tree.size)
    (result : tree.replace old replacement = .ok edited) :
    old = replacement ∧ edited = tree ∨ ∃ holder, tree.Replaced edited old replacement holder := by
  by_cases same : old = replacement
  · rw [replace, if_pos same, Except.ok.injEq] at result
    exact .inl ⟨same, result.symm⟩
  right
  have whole := result
  unfold replace at result
  rw [if_neg same] at result
  split at result
  · cases result
  · next inner =>
    split at result
    · cases result
    · next free =>
      rw [not_or, Option.not_isSome_iff_eq_none] at free
      cases held : tree.parent old with
      | none => rw [held] at result; cases result
      | some holder =>
          rw [held] at result
          dsimp only at result
          split at result
          · cases result
          · next acyclic =>
            cases repoint : (tree.node holder).repoint? old replacement with
            | none => rw [repoint] at result; cases result
            | some repointed =>
                obtain ⟨other, replaced, size, nodes, parents⟩ :=
                  exists_replace same inner free.1 inside free.2 held acyclic repoint
                rw [whole, Except.ok.injEq] at replaced
                subst replaced
                exact ⟨holder, free.2, held, acyclic, size, ⟨repointed, repoint, nodes⟩, parents⟩

end Tree

end Juxtaposition
