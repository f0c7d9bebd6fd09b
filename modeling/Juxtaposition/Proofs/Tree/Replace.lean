import Juxtaposition.Proofs.Layout.Spans

/-!
# Replacement

When a replacement is carried out, and what it does to nodes and parent links.
-/

set_option autoImplicit false

namespace Juxtaposition

namespace Node

def repointAll (old replacement : NodeId) (ids : List NodeId) : List NodeId :=
  ids.map fun id => if id = old then replacement else id

variable {old : NodeId}

theorem repointAll_of_not_mem (replacement : NodeId) {ids : List NodeId} (absent : old ∉ ids) :
    repointAll old replacement ids = ids := by
  refine (List.map_congr_left fun id member => if_neg ?_).trans (List.map_id _)
  rintro rfl
  exact absent member

theorem repointFirst?_eq (replacement : NodeId) {ids : List NodeId} (member : old ∈ ids)
    (nodup : ids.Nodup) :
    repointFirst? old replacement ids = some (repointAll old replacement ids) := by
  induction ids with
  | nil => cases member
  | cons first rest ih =>
      obtain ⟨fresh, rest_nodup⟩ := List.nodup_cons.mp nodup
      rw [repointFirst?]
      by_cases same : first = old
      · subst same
        have untouched := repointAll_of_not_mem replacement fresh
        rw [if_pos rfl, repointAll, List.map_cons, if_pos rfl]
        exact congrArg (fun ids => some (replacement :: ids)) untouched.symm
      · have later := (List.mem_cons.mp member).resolve_left (Ne.symm same)
        rw [if_neg same, ih later rest_nodup, repointAll, repointAll, List.map_cons, if_neg same]
        rfl

private theorem root_expr (body other : NodeId) : (root body).expr = (root other).expr := by
  funext below
  rcases below with _ | ⟨_, _ | _⟩ <;> rfl

private theorem call_expr (callee other : NodeId) (arguments others : List NodeId) :
    (call callee arguments).expr = (call other others).expr := by
  funext below
  cases below <;> rfl

private theorem operation_expr (operator : Operator) (lhs rhs left right : NodeId)
    (provenance : Provenance) :
    (operation operator lhs rhs provenance).expr =
      (operation operator left right provenance).expr := by
  funext below
  rcases below with _ | ⟨_, _ | ⟨_, _ | _⟩⟩ <;> rfl

private theorem negation_expr (operand other : NodeId) :
    (negation operand).expr = (negation other).expr := by
  funext below
  rcases below with _ | ⟨_, _ | _⟩ <;> rfl

structure Repoints (old replacement : NodeId) (node repointed : Node) : Prop where
  children : repointed.children = repointAll old replacement node.children
  expr : repointed.expr = node.expr
  isRoot : repointed.isRoot = node.isRoot
  callee : ∀ callee arguments, repointed = .call callee arguments →
    ∃ former others, node = .call former others ∧
      callee = if former = old then replacement else former

theorem exists_repoint? {node : Node} (replacement : NodeId) (member : old ∈ node.children)
    (nodup : node.children.Nodup) :
    ∃ repointed, node.repoint? old replacement = some repointed ∧
      Repoints old replacement node repointed := by
  cases node with
  | root body =>
      obtain rfl := List.mem_singleton.mp member
      refine ⟨root replacement, if_pos rfl, ⟨?_, root_expr _ _, rfl, nofun⟩⟩
      simp [children, repointAll]
  | identifier name => cases member
  | integer value => cases member
  | float value literal => cases member
  | call callee arguments =>
      obtain ⟨fresh, distinct⟩ := List.nodup_cons.mp nodup
      by_cases same : callee = old
      · subst same
        refine ⟨call replacement arguments, if_pos rfl, ⟨?_, call_expr _ _ _ _, rfl, ?_⟩⟩
        · rw [children, children, repointAll, List.map_cons, if_pos rfl]
          exact congrArg _ (repointAll_of_not_mem replacement fresh).symm
        · rintro _ _ ⟨⟩
          exact ⟨callee, arguments, rfl, (if_pos rfl).symm⟩
      · have later := (List.mem_cons.mp member).resolve_left (Ne.symm same)
        refine ⟨call callee (repointAll old replacement arguments), ?_,
          ⟨?_, call_expr _ _ _ _, rfl, ?_⟩⟩
        · rw [repoint?, if_neg same, repointFirst?_eq replacement later distinct]
          rfl
        · rw [children, children, repointAll, repointAll, List.map_cons, if_neg same]
        · rintro _ _ ⟨⟩
          exact ⟨callee, arguments, rfl, (if_neg same).symm⟩
  | operation operator lhs rhs provenance =>
      by_cases same : lhs = old
      · subst same
        have different : rhs ≠ lhs := by
          rintro rfl
          exact (List.nodup_cons.mp nodup).1 (List.mem_singleton_self _)
        refine ⟨operation operator replacement rhs provenance, if_pos rfl,
          ⟨?_, operation_expr _ _ _ _ _ _, rfl, nofun⟩⟩
        simp [children, repointAll, different]
      · have right : rhs = old := by simpa [children, Ne.symm same, eq_comm] using member
        subst right
        refine ⟨operation operator lhs replacement provenance, ?_,
          ⟨?_, operation_expr _ _ _ _ _ _, rfl, nofun⟩⟩
        · rw [repoint?, if_neg same, if_pos rfl]
        · simp [children, repointAll, same]
  | group items =>
      refine ⟨group (repointAll old replacement items), ?_, ⟨rfl, rfl, rfl, nofun⟩⟩
      exact congrArg (Option.map group) (repointFirst?_eq replacement member nodup)
  | negation operand =>
      obtain rfl := List.mem_singleton.mp member
      refine ⟨negation replacement, if_pos rfl, ⟨?_, negation_expr _ _, rfl, nofun⟩⟩
      simp [children, repointAll]

end Node

namespace Tree

variable {tree : Tree}

private theorem lineageWithin_closed {closed : NodeId → Prop}
    (step : ∀ id holder, closed id → tree.parent id = some holder → closed holder) {bound : Nat}
    {start : NodeId} (first : closed start) :
    ∀ id ∈ tree.lineageWithin bound start, closed id := by
  induction bound generalizing start with
  | zero => exact fun _ member => nomatch member
  | succ bound ih =>
      intro id member
      rw [lineageWithin] at member
      rcases List.mem_cons.mp member with rfl | above
      · exact first
      · cases found : tree.parent start with
        | none => rw [found] at above; cases above
        | some holder =>
            rw [found] at above
            exact ih (step start holder first found) id above

theorem lineage_closed {closed : NodeId → Prop}
    (step : ∀ id holder, closed id → tree.parent id = some holder → closed holder)
    {start : NodeId} (first : closed start) : ∀ id ∈ tree.lineage start, closed id :=
  lineageWithin_closed step first

/-- A detached node may take the place of an attached one unless it is among its
ancestors. -/
theorem exists_replace {target replacement holder : NodeId} {repointed : Node}
    (different : target ≠ replacement) (inner : target ≠ root)
    (innerReplacement : replacement ≠ root)
    (inside : replacement.index < tree.size) (detached : tree.parent replacement = none)
    (held : tree.parent target = some holder) (acyclic : replacement ∉ tree.lineage holder)
    (repoint : (tree.node holder).repoint? target replacement = some repointed) :
    ∃ edited, tree.replace target replacement = .ok edited ∧ edited.size = tree.size ∧
      (∀ id, edited.node id = if id = holder then repointed else tree.node id) ∧
      ∀ id, edited.parent id =
        if id = target then none else if id = replacement then some holder else tree.parent id := by
  have holderInside : holder.index < tree.size := by
    refine Nat.lt_of_not_le fun beyond => ?_
    rw [node_of_size_le tree holder beyond] at repoint
    cases repoint
  refine ⟨((tree.withNode holder repointed).withParent replacement (some holder)).withParent target
    none, ?_, ?_, ?_, ?_⟩
  · unfold replace
    rw [if_neg different, if_neg inner, if_neg (by simp [innerReplacement, detached]), held]
    simp only [if_neg acyclic, repoint]
  · simp
  · intro id
    simp [node_withNode, holderInside]
  · intro id
    have targetInside := index_lt_of_parent tree held
    simp only [parent_withParent, parent_withNode, size_withParent, size_withNode, targetInside,
      inside, and_true]

/-! ## In place -/

/-- `replace` on an arena that is changed in place. What is written before an error stays written:
the slot of the holder, then the two parent links. -/
def replaceInPlace (old replacement : NodeId) : ExceptT TreeError (StateM Tree) Unit := do
  if old = replacement then return
  if old = root then throw .rootReplacement
  if (← get).isAttached replacement then throw (.alreadyAttached replacement)
  match (← get).parent old with
  | none => throw (.detached old)
  | some holder =>
      if replacement ∈ (← get).lineage holder then throw (.wouldCycle replacement)
      match ((← get).node holder).repoint? old replacement with
      | none => throw (.detached old)
      | some repointed =>
          modify (·.withNode holder repointed)
          modify (·.withParent replacement (some holder))
          modify (·.withParent old none)

private theorem run_get_bind (next : Tree → ExceptT TreeError (StateM Tree) Unit) (tree : Tree) :
    (get >>= next).run.run tree = (next tree).run.run tree :=
  rfl

/-- An arena that is changed in place ends as `replace` says, and an error leaves it as it was. -/
theorem run_replaceInPlace (tree : Tree) (old replacement : NodeId) :
    (replaceInPlace old replacement).run.run tree =
      match tree.replace old replacement with
      | .ok edited => (.ok (), edited)
      | .error error => (.error error, tree) := by
  unfold replace replaceInPlace
  by_cases same : old = replacement
  · simp only [if_pos same]
    rfl
  by_cases isRoot : old = root
  · simp only [if_neg same, if_pos isRoot]
    rfl
  simp only [if_neg same, if_neg isRoot, run_get_bind]
  by_cases attached : replacement = root ∨ (tree.parent replacement).isSome = true
  · have taken : tree.isAttached replacement = true := by simpa [isAttached] using attached
    rw [if_pos attached, if_pos taken]
    rfl
  have free : ¬ tree.isAttached replacement = true := by simpa [isAttached] using attached
  rw [if_neg attached, if_neg free, run_get_bind]
  cases held : tree.parent old with
  | none => rfl
  | some holder =>
      simp only [run_get_bind]
      by_cases above : replacement ∈ tree.lineage holder
      · simp only [if_pos above]
        rfl
      · simp only [if_neg above, run_get_bind]
        cases (tree.node holder).repoint? old replacement <;> rfl

end Tree

end Juxtaposition
