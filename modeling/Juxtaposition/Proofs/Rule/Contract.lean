import Juxtaposition.Proofs.Layout.Exchange
import Juxtaposition.Proofs.Rule.Proposal
import Juxtaposition.Proofs.Tree.Stored

/-!
# What rules owe

A rule leaves the arena alone, or it stores nodes on top of it and names a replacement that can be
put in its place at once. Every rule that is made of a fitting detector does so on a sound tree.
-/

set_option autoImplicit false

namespace Juxtaposition

namespace Tree

/-- What a rule has stored for a node, and what is known of it before anything is replaced. -/
structure Prepares (tree : Tree) (id : NodeId) (edit : Edit) (stored : Tree) : Prop where
  allocates : tree.Allocates stored
  node : ∀ other, other.index < tree.size → stored.node other = tree.node other
  parent : ∀ other, other.index < tree.size → stored.parent other = tree.parent other ∨
    ∃ callee arguments, tree.node edit.target = .call callee arguments ∧
      (other = callee ∨ other ∈ arguments)
  target : edit.target = id ∨ ∃ arguments, tree.callHeadedBy? id = some (edit.target, arguments)
  fresh : tree.size ≤ edit.replacement.index
  inside : edit.replacement.index < stored.size
  detached : stored.parent edit.replacement = none
  replaces : ∃ edited, stored.replace edit.target edit.replacement = .ok edited ∧
    edited.check = .ok ()

/-- All or nothing: an arena that is as before, or one with all that a replacement needs. -/
inductive Transacts (tree : Tree) (id : NodeId) : RuleResult → Prop where
  | declined : Transacts tree id (.ok none, tree)
  | oversized (digits : String) : Transacts tree id (.error (.integerOverflow digits), tree)
  | proposed {edit : Edit} {stored : Tree} :
      tree.Prepares id edit stored → Transacts tree id (.ok (some edit), stored)

/-- What an answer to a node of a sound tree must be like for a run to rely on it. -/
inductive Complies (tree : Tree) : RuleResult → Prop where
  | declined : Complies tree (.ok none, tree)
  | failed (failure : Failure) : Complies tree (.error failure, tree)
  | proposed {edit : Edit} {stored edited : Tree} :
      tree.Allocates stored → stored.isAttached edit.replacement = false →
      stored.replace edit.target edit.replacement = .ok edited → edited.check = .ok () →
      Complies tree (.ok (some edit), stored)

variable {tree : Tree} {id : NodeId}

theorem Transacts.complies {answer : RuleResult} (inTree : root.index < tree.size)
    (transacts : tree.Transacts id answer) : tree.Complies answer := by
  cases transacts with
  | declined => exact .declined
  | oversized digits => exact .failed _
  | @proposed edit stored prepares =>
      obtain ⟨edited, replaced, accepted⟩ := prepares.replaces
      refine .proposed prepares.allocates ?_ replaced accepted
      have fresh : edit.replacement ≠ root := by
        intro same
        have beyond := prepares.fresh
        rw [same] at beyond
        exact Nat.not_lt_of_le beyond inTree
      simp [isAttached, fresh, prepares.detached]

end Tree

/-- The contract of a rule: it complies at every reachable node of every sound tree. -/
def Rule.IsLawful (rule : Rule) (options : Options) : Prop :=
  ∀ (tree : Tree) (id : NodeId), tree.check = .ok () → tree.Reaches Tree.root id →
    tree.Complies (rule.apply options tree id)

/-! ## Stored drafts -/

namespace Draft

theorem store_fst_inside {draft : Draft} {tree : Tree}
    (inside : ∀ id ∈ draft.keeps, id.index < tree.size) :
    (draft.store tree).1.index < (draft.store tree).2.size := by
  cases isNew : draft.isNew with
  | true => exact store_fst_lt isNew tree
  | false =>
      cases draft with
      | kept id => exact inside id List.mem_cons_self
      | _ => cases isNew

theorem allocates_store {draft : Draft} {tree : Tree}
    (inside : ∀ id ∈ draft.keeps, id.index < tree.size) :
    tree.Allocates (draft.store tree).2 := by
  induction draft generalizing tree with
  | kept id => exact .refl
  | identifier name => exact .store .refl rfl nofun
  | integer value => exact .store .refl rfl nofun
  | float value => exact .store .refl rfl nofun
  | call name arguments =>
      refine .store (.store .refl rfl nofun) rfl fun child member => ?_
      show child.index < (tree.store (.identifier name)).2.size
      rw [Tree.size_store]
      rcases List.mem_cons.mp member with rfl | argument
      · exact Nat.lt_succ_self _
      · exact Nat.lt_succ_of_lt (inside child argument)
  | group items => exact .store .refl rfl inside
  | operation operator lhs rhs lhsStored rhsStored =>
      have left (id : NodeId) (member : id ∈ lhs.keeps) : id.index < tree.size :=
        inside id (List.mem_append_left _ member)
      have right (id : NodeId) (member : id ∈ rhs.keeps) : id.index < (lhs.store tree).2.size :=
        Nat.lt_of_lt_of_le (inside id (List.mem_append_right _ member)) (lhs.size_le_store tree)
      refine .store ((lhsStored left).trans (rhsStored right)) rfl fun child member => ?_
      rcases List.mem_cons.mp member with rfl | second
      · exact Nat.lt_of_lt_of_le (store_fst_inside left) (rhs.size_le_store _)
      · rw [List.mem_singleton.mp second]
        exact store_fst_inside right
  | factor first rest firstStored restStored =>
      have left (id : NodeId) (member : id ∈ rest.keeps) : id.index < tree.size :=
        inside id (List.mem_append_right _ member)
      have right (id : NodeId) (member : id ∈ first.keeps) :
          id.index < (rest.store tree).2.size :=
        Nat.lt_of_lt_of_le (inside id (List.mem_append_left _ member)) (rest.size_le_store tree)
      refine .store ((restStored left).trans (firstStored right)) rfl fun child member => ?_
      rcases List.mem_cons.mp member with rfl | second
      · exact store_fst_inside right
      · rw [List.mem_singleton.mp second]
        exact Nat.lt_of_lt_of_le (store_fst_inside left) (first.size_le_store _)

end Draft

/-! ## Carried out proposals -/

namespace Proposal.Fits

variable {tree : Tree} {layout : Layout} {id : NodeId} {proposal : Proposal}

theorem target_mem (fits : proposal.Fits tree id) (planted : tree.Planted layout)
    (member : id ∈ layout.places) : proposal.target ∈ layout.places := by
  rcases fits.target with same | ⟨arguments, headed⟩
  · rw [same]
    exact member
  · exact planted.parent_mem member (Tree.callHeadedBy?_eq_some_iff.mp headed).1

/-- What a fitting proposal keeps are layouts below its target. -/
theorem exists_site (fits : proposal.Fits tree id) (planted : tree.Planted layout)
    (member : id ∈ layout.places) :
    ∃ holder below held, tree.Site layout proposal.target holder below held ∧
      held.map Layout.place = proposal.draft.keeps := by
  obtain ⟨part, inside, same⟩ := Layout.exists_within_of_mem (fits.target_mem planted member)
  cases part with
  | node target below =>
      rw [Layout.place_node] at same
      subst same
      have children := (planted.spans.within inside).children
      obtain ⟨held, kept, keeps⟩ : ∃ held : List Layout, held.Sublist below ∧
          proposal.draft.keeps = held.map Layout.place := by
        rcases fits.keeps with nothing | ⟨callee, arguments, call, sublist⟩
        · exact ⟨[], List.nil_sublist below, nothing⟩
        · rw [Tree.children, call, Node.children] at children
          rw [children] at sublist
          exact List.sublist_map_iff.mp sublist
      obtain ⟨holder, site⟩ := planted.exists_site inside fits.inner kept
      exact ⟨holder, below, held, site, keeps.symm⟩

/-- A fitting proposal can be carried out. -/
theorem exists_exchanged (fits : proposal.Fits tree id) (planted : tree.Planted layout)
    (member : id ∈ layout.places) :
    ∃ holder below held edited grafted,
      tree.Site layout proposal.target holder below held ∧
      held.map Layout.place = proposal.draft.keeps ∧
      tree.Exchanged proposal.target holder held edited grafted ∧
      grafted.place = (proposal.draft.store tree).1 ∧
      (proposal.draft.store tree).2.replace proposal.target grafted.place = .ok edited ∧
      (proposal.draft.store tree).2.Replaced edited proposal.target grafted.place holder := by
  obtain ⟨holder, below, held, site, keeps⟩ := fits.exists_site planted member
  obtain ⟨edited, grafted, place, replaced, exchanged, _⟩ := site.exists_edit fits.isNew keeps
  have inside : grafted.place.index < (proposal.draft.store tree).2.size := by
    rw [place]
    exact Draft.store_fst_lt fits.isNew tree
  rw [← place] at replaced
  exact ⟨holder, below, held, edited, grafted, site, keeps, exchanged, place, replaced,
    site.replaced exchanged inside replaced⟩

theorem prepares (fits : proposal.Fits tree id) (planted : tree.Planted layout)
    (member : id ∈ layout.places) :
    tree.Prepares id
      ⟨proposal.target, (proposal.draft.store tree).1, proposal.description⟩
      (proposal.draft.store tree).2 := by
  obtain ⟨holder, below, held, site, keeps⟩ := fits.exists_site planted member
  obtain ⟨_, _, builds⟩ := Draft.store_builds site.forest keeps fun child => site.exprAlong_held
  have grows := builds.grows
  rw [keeps] at grows
  obtain ⟨fresh, detached⟩ := Draft.store_fst_fresh fits.isNew tree
  constructor
  case allocates =>
    refine Draft.allocates_store fun kept inKeeps => ?_
    rw [← keeps] at inKeeps
    obtain ⟨child, inHeld, rfl⟩ := List.mem_map.mp inKeeps
    exact site.forest.index_lt child inHeld _ child.place_mem_places
  case node => exact grows.node
  case parent =>
    intro other inside
    by_cases kept : other ∈ proposal.draft.keeps
    · rcases fits.keeps with nothing | ⟨callee, arguments, call, sublist⟩
      · rw [nothing] at kept
        cases kept
      · exact .inr ⟨callee, arguments, call, List.mem_cons.mp (sublist.subset kept)⟩
    · exact .inl (grows.parent other inside kept)
  case target => exact fits.target
  case fresh => exact fresh
  case inside => exact Draft.store_fst_lt fits.isNew tree
  case detached => exact detached
  case replaces =>
    obtain ⟨_, _, _, edited, grafted, site, _, exchanged, place, replaced, _⟩ :=
      fits.exists_exchanged planted member
    exact ⟨edited, place ▸ replaced, Tree.check_eq_ok_iff.mpr ⟨_, site.planted_graft exchanged⟩⟩

end Proposal.Fits

/-- A rule that is made of a fitting detector does all or nothing. -/
theorem Detector.Fits.transacts {detector : Detector} (fits : detector.Fits) (options : Options)
    {tree : Tree} {id : NodeId} (accepted : tree.check = .ok ())
    (reached : tree.Reaches Tree.root id) :
    tree.Transacts id (detector.rule.apply options tree id) := by
  obtain ⟨layout, planted⟩ := Tree.check_eq_ok_iff.mp accepted
  have member := planted.reaches_iff.mp reached
  simp only [rule, Rule.ofDetector]
  cases found : detector.detect options tree id with
  | error number => exact .oversized number.digits
  | ok proposed =>
      cases proposed with
      | none => exact .declined
      | some proposal =>
          exact .proposed ((fits options tree id proposal found).prepares planted member)

theorem Detector.Fits.isLawful {detector : Detector} (fits : detector.Fits) (options : Options) :
    detector.rule.IsLawful options := by
  intro tree id accepted reached
  obtain ⟨layout, planted⟩ := Tree.check_eq_ok_iff.mp accepted
  exact (fits.transacts options accepted reached).complies
    (Tree.index_lt_of_isRoot tree planted.isRoot)

/-- Every standard rule is all or nothing at every node of a sound tree, under all options. It can
fail for an oversized number only. What it proposes is ready to be put in: the old nodes are as
they were, at most children of the call that gives way have another parent, and the replacement
is new, detached, and can take the place of its target in a tree that stays sound. -/
theorem Rule.standard_transacts {rule : Rule} (member : rule ∈ standard) (options : Options)
    {tree : Tree} {id : NodeId} (accepted : tree.check = .ok ())
    (reached : tree.Reaches Tree.root id) : tree.Transacts id (rule.apply options tree id) := by
  rw [← Detector.map_rule_standard] at member
  obtain ⟨detector, inStandard, rfl⟩ := List.mem_map.mp member
  exact (Detector.fits_of_mem_standard inStandard).transacts options accepted reached

/-- The call `a1b(x)`. -/
def digitRunCall : Tree where
  slots := #[⟨.root ⟨3⟩, none⟩, ⟨.identifier "a1b", some ⟨3⟩⟩, ⟨.identifier "x", some ⟨3⟩⟩,
    ⟨.call ⟨1⟩ [⟨2⟩], some Tree.root⟩]

/-- The name is split for the whole call, and `x` has got the new call as its parent. -/
theorem Rule.standard_transacts_digitRunCall :
    digitRunSplit ∈ standard ∧ digitRunCall.check = .ok () ∧
      digitRunCall.Reaches Tree.root ⟨1⟩ ∧
      (digitRunSplit.apply {} digitRunCall ⟨1⟩).2.parent ⟨2⟩ = some ⟨5⟩ ∧
      digitRunCall.Transacts ⟨1⟩ (digitRunSplit.apply {} digitRunCall ⟨1⟩) := by
  have member : digitRunSplit ∈ standard := by simp [standard]
  have accepted : digitRunCall.check = .ok () := by decide
  have reached : digitRunCall.Reaches Tree.root ⟨1⟩ :=
    .child (.child .refl (show (⟨3⟩ : NodeId) ∈ _ by decide)) (by decide)
  exact ⟨member, accepted, reached, by decide +kernel,
    standard_transacts member {} accepted reached⟩

end Juxtaposition
