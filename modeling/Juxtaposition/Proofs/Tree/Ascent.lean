import Juxtaposition.Proofs.Layout.Planted

/-!
# Ascents

Following parent links from a node up to one that has no parent. An ascent never
comes back to a node, so it is no longer than the arena, and the bounded search
for ancestors sees all of it.
-/

set_option autoImplicit false

namespace Juxtaposition.Tree

inductive Ascends (tree : Tree) : NodeId → List NodeId → Prop where
  | top {id : NodeId} : tree.parent id = none → Ascends tree id [id]
  | step {id holder : NodeId} {above : List NodeId} :
      tree.parent id = some holder → Ascends tree holder above → Ascends tree id (id :: above)

namespace Ascends

variable {tree edited : Tree} {id other : NodeId} {above chain : List NodeId}

theorem unique (ascent : tree.Ascends id above) (again : tree.Ascends id chain) :
    above = chain := by
  induction ascent generalizing chain with
  | top free =>
      cases again with
      | top _ => rfl
      | step link _ => rw [free] at link; cases link
  | step link _ ih =>
      cases again with
      | top free => rw [free] at link; cases link
      | step other rest =>
          rw [link, Option.some.injEq] at other
          subst other
          rw [ih rest]

theorem of_mem (ascent : tree.Ascends id above) (member : other ∈ above) :
    ∃ chain, tree.Ascends other chain ∧ chain.length ≤ above.length := by
  induction ascent with
  | top free =>
      obtain rfl := List.mem_singleton.mp member
      exact ⟨_, .top free, Nat.le_refl _⟩
  | step link rest ih =>
      rcases List.mem_cons.mp member with rfl | later
      · exact ⟨_, .step link rest, Nat.le_refl _⟩
      · obtain ⟨chain, ascent, shorter⟩ := ih later
        exact ⟨chain, ascent, Nat.le_succ_of_le shorter⟩

/-- An ascent that came back to a node would never end. -/
theorem nodup (ascent : tree.Ascends id above) : above.Nodup := by
  induction ascent with
  | top _ => exact List.nodup_singleton _
  | @step id holder above link rest ih =>
      refine List.nodup_cons.mpr ⟨fun member => ?_, ih⟩
      obtain ⟨chain, again, shorter⟩ := rest.of_mem member
      have same := (Ascends.step link rest).unique again
      rw [← same, List.length_cons] at shorter
      exact Nat.lt_irrefl _ shorter

theorem index_lt (ascent : tree.Ascends id above) (inside : id.index < tree.size)
    (links : ∀ child holder, tree.parent child = some holder → holder.index < tree.size) :
    ∀ other ∈ above, other.index < tree.size := by
  induction ascent with
  | top _ =>
      intro other member
      rwa [List.mem_singleton.mp member]
  | step link _ ih =>
      intro other member
      rcases List.mem_cons.mp member with rfl | later
      · exact inside
      · exact ih (links _ _ link) other later

theorem lineageWithin_eq (ascent : tree.Ascends id above) {bound : Nat}
    (enough : above.length ≤ bound) : tree.lineageWithin bound id = above := by
  induction ascent generalizing bound with
  | top free =>
      cases bound with
      | zero => cases enough
      | succ bound => rw [lineageWithin, free]
  | step link _ ih =>
      cases bound with
      | zero => cases enough
      | succ bound =>
          rw [lineageWithin, link]
          exact congrArg _ (ih (Nat.le_of_succ_le_succ enough))

/-- The search for ancestors is never cut off. -/
theorem lineage_eq (ascent : tree.Ascends id above) (inside : id.index < tree.size)
    (links : ∀ child holder, tree.parent child = some holder → holder.index < tree.size) :
    tree.lineage id = above :=
  ascent.lineageWithin_eq (length_le_size ascent.nodup (ascent.index_lt inside links))

/-- An ascent in another arena, which may leave the old one wherever it is known to end. -/
theorem exists_of_links (ascent : tree.Ascends id above)
    (links : ∀ other ∈ above,
      (∃ chain, edited.Ascends other chain) ∨ edited.parent other = tree.parent other) :
    ∃ chain, edited.Ascends id chain := by
  induction ascent with
  | top free =>
      rcases links _ List.mem_cons_self with known | same
      · exact known
      · exact ⟨_, .top (same.trans free)⟩
  | step link _ ih =>
      rcases links _ List.mem_cons_self with known | same
      · exact known
      · obtain ⟨chain, rest⟩ := ih fun other member => links other (List.mem_cons_of_mem _ member)
        exact ⟨_, .step (same.trans link) rest⟩

end Ascends

end Juxtaposition.Tree
