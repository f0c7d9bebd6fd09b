import Juxtaposition.Proofs.Tree.Coherent
import Juxtaposition.Proofs.Tree.Renaming
import Mathlib.Logic.Relation

/-!
# Refused replacements

Which answer a replacement gets in an arena that arises. There every parent link is answered by
a slot, so a holder without a slot for the replaced node is never met, and the search for
ancestors decides whether there would be a circle of parent links.
-/

set_option autoImplicit false

namespace Juxtaposition.Tree

def IsAncestor (tree : Tree) (ancestor id : NodeId) : Prop :=
  Relation.TransGen (fun child holder => tree.parent child = some holder) id ancestor

/-- One slot is pointed elsewhere, the first of the holder's that held `old`. Two parent links
change, and nothing else. -/
structure Repointed (tree : Tree) (old replacement holder : NodeId) (edited : Tree) : Prop where
  size : edited.size = tree.size
  held : tree.parent old = some holder
  detached : tree.parent replacement = none
  held_slot : old ∈ tree.children holder
  children_holder : edited.children holder =
    (tree.children holder).set ((tree.children holder).idxOf old) replacement
  children : ∀ id, id ≠ holder → edited.children id = tree.children id
  outline : ∀ id, (edited.node id).outline = (tree.node id).outline
  parent_old : edited.parent old = none
  parent_replacement : edited.parent replacement = some holder
  parent : ∀ id, id ≠ old → id ≠ replacement → edited.parent id = tree.parent id

/-- Which answer a replacement gets. The conditions are looked at from first to last, and all of
them before anything is written. -/
structure Judged (tree : Tree) (old replacement : NodeId) : Prop where
  rootReplacement : tree.replace old replacement = .error .rootReplacement ↔ old = root
  alreadyAttached : tree.replace old replacement = .error (.alreadyAttached replacement) ↔
    old ≠ root ∧ tree.isAttached replacement = true
  detached : tree.replace old replacement = .error (.detached old) ↔
    old ≠ root ∧ tree.isAttached replacement = false ∧ tree.parent old = none
  wouldCycle : tree.replace old replacement = .error (.wouldCycle replacement) ↔
    old ≠ root ∧ tree.isAttached replacement = false ∧ tree.parent old ≠ none ∧
      tree.IsAncestor replacement old
  carriedOut : (∃ edited, tree.replace old replacement = .ok edited) ↔
    old ≠ root ∧ tree.isAttached replacement = false ∧ tree.parent old ≠ none ∧
      ¬ tree.IsAncestor replacement old
  unchanged : ∀ error, tree.replace old replacement = .error error →
    tree.execute (.replace old replacement) = tree ∧
      (replaceInPlace old replacement).run.run tree = (.error error, tree)
  repointed : ∀ edited, tree.replace old replacement = .ok edited →
    tree.execute (.replace old replacement) = edited ∧
      (replaceInPlace old replacement).run.run tree = (.ok (), edited) ∧
      ∃ holder, tree.Repointed old replacement holder edited

variable {tree edited : Tree} {old replacement holder id other : NodeId} {above : List NodeId}

theorem isAttached_eq_true_iff :
    tree.isAttached id = true ↔ id = root ∨ (tree.parent id).isSome = true := by
  simp [isAttached]

/-! ## Ancestors -/

theorem Ascends.mem_iff (ascent : tree.Ascends id above) :
    other ∈ above ↔
      Relation.ReflTransGen (fun child holder => tree.parent child = some holder) id other := by
  induction ascent with
  | @top id free =>
      rw [List.mem_singleton, Relation.ReflTransGen.cases_head_iff]
      constructor
      · intro same
        exact .inl same.symm
      · intro path
        rcases path with same | ⟨holder, link, _⟩
        · exact same.symm
        · rw [free] at link
          cases link
  | @step id holder above link _ ih =>
      rw [Relation.ReflTransGen.cases_head_iff, List.mem_cons, ih]
      constructor
      · intro path
        rcases path with same | later
        · exact .inl same.symm
        · exact .inr ⟨holder, link, later⟩
      · intro path
        rcases path with same | ⟨next, nextLink, later⟩
        · exact .inl same.symm
        · rw [link, Option.some.injEq] at nextLink
          exact .inr (nextLink ▸ later)

/-- The search from the holder up meets exactly the ancestors. -/
theorem Coherent.mem_lineage_iff (coherent : tree.Coherent) (held : tree.parent old = some holder) :
    replacement ∈ tree.lineage holder ↔ tree.IsAncestor replacement old := by
  rw [(coherent.lineage_ascends (coherent.parent_lt old holder held)).mem_iff, IsAncestor,
    Relation.TransGen.head'_iff]
  constructor
  · intro path
    exact ⟨holder, held, path⟩
  · rintro ⟨next, link, path⟩
    rw [held, Option.some.injEq] at link
    exact link ▸ path

/-! ## Carried out -/

namespace Replaced

theorem repointed (replaced : tree.Replaced edited old replacement holder)
    (different : old ≠ replacement) : tree.Repointed old replacement holder edited := by
  obtain ⟨repointed, repoint, nodes⟩ := replaced.node
  obtain ⟨before, after, slots, fresh, slots'⟩ := Node.children_of_repoint? repoint
  have before_holder : tree.children holder = before ++ old :: after := slots
  have after_holder : edited.children holder = before ++ replacement :: after := by
    rw [Tree.children, nodes, if_pos rfl, slots']
  have first : (before ++ old :: after).idxOf old = before.length := by
    rw [List.idxOf_append_of_notMem fresh, List.idxOf_cons_self, Nat.add_zero]
  constructor
  case size => exact replaced.size
  case held => exact replaced.held
  case detached => exact replaced.detached
  case held_slot =>
    rw [before_holder]
    simp
  case children_holder =>
    rw [before_holder, after_holder, first, List.set_append_right _ _ (Nat.le_refl _), Nat.sub_self,
      List.set_cons_zero]
  case children => exact fun id other => replaced.children_of_ne other
  case outline =>
    intro id
    rw [nodes]
    split
    · next same => rw [Node.outline_of_repoint? repoint, same]
    · rfl
  case parent_old => rw [replaced.parent, if_pos rfl]
  case parent_replacement => rw [replaced.parent, if_neg different.symm, if_pos rfl]
  case parent =>
    intro id other otherNew
    rw [replaced.parent, if_neg other, if_neg otherNew]

end Replaced

/-! ## The answer -/

inductive Answers (tree : Tree) (old replacement : NodeId) : Except TreeError Tree → Prop where
  | rootReplacement : old = root → Answers tree old replacement (.error .rootReplacement)
  | alreadyAttached : old ≠ root → tree.isAttached replacement = true →
      Answers tree old replacement (.error (.alreadyAttached replacement))
  | detached : old ≠ root → tree.isAttached replacement = false → tree.parent old = none →
      Answers tree old replacement (.error (.detached old))
  | wouldCycle : old ≠ root → tree.isAttached replacement = false → tree.parent old ≠ none →
      tree.IsAncestor replacement old →
      Answers tree old replacement (.error (.wouldCycle replacement))
  | carriedOut {edited : Tree} {holder : NodeId} :
      old ≠ root → tree.isAttached replacement = false → tree.parent old ≠ none →
      ¬ tree.IsAncestor replacement old → tree.Repointed old replacement holder edited →
      Answers tree old replacement (.ok edited)

/-- Since the holder of a node has a slot for it, the conditions leave no other answer. -/
theorem Coherent.answers (coherent : tree.Coherent) (inside : replacement.index < tree.size)
    (different : old ≠ replacement) :
    tree.Answers old replacement (tree.replace old replacement) := by
  by_cases isRoot : old = root
  · rw [Tree.replace, if_neg different, if_pos isRoot]
    exact .rootReplacement isRoot
  by_cases attached : replacement = root ∨ (tree.parent replacement).isSome = true
  · rw [Tree.replace, if_neg different, if_neg isRoot, if_pos attached]
    exact .alreadyAttached isRoot (isAttached_eq_true_iff.mpr attached)
  have free : tree.isAttached replacement = false :=
    Bool.eq_false_iff.mpr fun isAttached => attached (isAttached_eq_true_iff.mp isAttached)
  cases held : tree.parent old with
  | none =>
      rw [Tree.replace, if_neg different, if_neg isRoot, if_neg attached, held]
      exact .detached isRoot free held
  | some holder =>
      have notFree : tree.parent old ≠ none := by simp [held]
      by_cases above : replacement ∈ tree.lineage holder
      · rw [Tree.replace, if_neg different, if_neg isRoot, if_neg attached, held]
        simp only [if_pos above]
        exact .wouldCycle isRoot free notFree ((coherent.mem_lineage_iff held).mp above)
      · obtain ⟨repointed, repoint⟩ :=
          Node.exists_repoint?_of_mem replacement (coherent.held old holder held)
        rw [not_or, Option.not_isSome_iff_eq_none] at attached
        obtain ⟨edited, result, _⟩ := exists_replace different isRoot attached.1 inside attached.2
          held above repoint
        rw [result]
        obtain ⟨same, _⟩ | ⟨outer, replaced⟩ := replace_eq_ok_cases inside result
        · exact absurd same different
        · exact .carriedOut isRoot free notFree
            (fun isAncestor => above ((coherent.mem_lineage_iff held).mpr isAncestor))
            (replaced.repointed different)

theorem Coherent.judged (coherent : tree.Coherent) (inside : replacement.index < tree.size)
    (different : old ≠ replacement) : tree.Judged old replacement := by
  have answers := coherent.answers inside different
  constructor
  case unchanged =>
    intro error refused
    rw [Tree.execute, run_replaceInPlace, refused]
    exact ⟨rfl, rfl⟩
  case repointed =>
    intro edited result
    rw [result] at answers
    cases answers with
    | carriedOut _ _ _ _ repointed =>
        rw [Tree.execute, run_replaceInPlace, result]
        exact ⟨rfl, rfl, _, repointed⟩
  all_goals
    generalize tree.replace old replacement = result at answers
    cases answers <;> simp_all

/-- Replacing a node by itself changes nothing. In an arena that arises, any other replacement is
judged by the place of the old node, then by whether the new one is attached, then by whether the
old one is, and last by whether parent links lead from the old node up to the new one. -/
theorem replace_judged (arises : tree.Arises) :
    (∀ id, tree.replace id id = .ok tree) ∧
      ∀ old replacement, old.index < tree.size → replacement.index < tree.size →
        old ≠ replacement → tree.Judged old replacement :=
  ⟨fun _ => if_pos rfl, fun _ _ _ inside different => arises.coherent.judged inside different⟩

/-- The identifier `x` sits in a group that is detached, so the group is no replacement for it,
but the empty group is. -/
theorem replace_judged_adoptedRoot :
    adoptedRoot.Arises ∧ adoptedRoot.Judged ⟨3⟩ ⟨2⟩ ∧ adoptedRoot.Judged ⟨3⟩ ⟨1⟩ := by
  have judged := (replace_judged arises_adoptedRoot).2
  exact ⟨arises_adoptedRoot, judged ⟨3⟩ ⟨2⟩ (by decide) (by decide) (by decide),
    judged ⟨3⟩ ⟨1⟩ (by decide) (by decide) (by decide)⟩

end Juxtaposition.Tree
