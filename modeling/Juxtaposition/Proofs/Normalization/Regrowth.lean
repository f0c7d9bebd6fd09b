import Juxtaposition.Proofs.Normalization.Invariant
import Juxtaposition.Proofs.Normalization.Pass
import Juxtaposition.Proofs.Rule.Contract

/-!
# A name that grows again

A rule that writes `a1x` for `x`, beside the rule that splits `a1x` into `a1*x`. Both keep the
contract of rules, yet no run of the two comes to an end. Every second proposal takes up the
arguments of a call, so a limit on the number of edits can cut a run off between that proposal and
its edit.
-/

set_option autoImplicit false

namespace Juxtaposition

namespace Detector

def renames (name final : String) : Detector where
  name := "rename"
  detect _ tree id :=
    .ok (if tree.name? id = some name then some ⟨id, .identifier final, ""⟩ else none)

def regrowing : List Detector :=
  [renames "x" "a1x", ⟨"Split Digit Runs", Rule.detectName Rule.splitDigitRuns⟩]

def Spares (name : String) : Prop :=
  name ≠ "x" ∧ (Text.pieces name).length < 2

instance (name : String) : Decidable (Spares name) :=
  inferInstanceAs (Decidable (name ≠ "x" ∧ (Text.pieces name).length < 2))

theorem fits_renames (name final : String) : (renames name final).Fits := by
  intro options tree id proposal found
  simp only [renames, Except.ok.injEq, Option.ite_none_right_eq_some, Option.some.injEq] at found
  obtain ⟨named, rfl⟩ := found
  refine ⟨rfl, .inl rfl, ?_, .inl rfl⟩
  rw [Tree.name?_eq_some_iff.mp named]
  rfl

theorem isLawful_of_mem_regrowing {rule : Rule} (member : rule ∈ regrowing.map Detector.rule)
    (options : Options) : rule.IsLawful options := by
  obtain ⟨detector, listed, rfl⟩ := List.mem_map.mp member
  simp only [regrowing, List.mem_cons, List.not_mem_nil, or_false] at listed
  rcases listed with rfl | rfl
  · exact (fits_renames "x" "a1x").isLawful options
  · exact (fits_of_mem_standard (by simp [standard])).isLawful options

end Detector

namespace Tree

variable {tree edited : Tree} {layout grafted : Layout} {name : String}
  {id callee call target holder : NodeId} {arguments : List NodeId} {below held : List Layout}

/-! ## Verdicts -/

def splitCall (arguments : List NodeId) : Draft :=
  .factor (.identifier "a1") (.call "x" arguments)

private theorem splitRule_of_short (named : tree.node id = .identifier name)
    (short : (Text.pieces name).length < 2) :
    Rule.detectName Rule.splitDigitRuns {} tree id = .ok none := by
  rw [detectName_eq named, splitDigitRuns_of_short short]
  exact ite_self _

theorem declined_of_spared
    (spared : ∀ name, tree.node id = .identifier name → Detector.Spares name) :
    Detector.verdict Detector.regrowing {} tree id = .declined := by
  have split : Rule.detectName Rule.splitDigitRuns {} tree id = .ok none := by
    cases found : tree.name? id with
    | none => exact detectName_of_not_name found
    | some name =>
        have named := name?_eq_some_iff.mp found
        exact splitRule_of_short named (spared name named).2
  have kept : tree.name? id ≠ some "x" := fun found =>
    (spared "x" (name?_eq_some_iff.mp found)).1 rfl
  simp only [Detector.verdict, Detector.regrowing, Detector.renames, List.foldr_cons,
    List.foldr_nil, split, if_neg kept, Verdict.after]

theorem proposed_of_x (named : tree.node id = .identifier "x") :
    Detector.verdict Detector.regrowing {} tree id =
      .proposed "rename" ⟨id, .identifier "a1x", ""⟩ := by
  have found := name?_eq_some_iff.mpr named
  simp only [Detector.verdict, Detector.regrowing, Detector.renames, List.foldr_cons, found,
    if_true, Verdict.after]

theorem proposed_of_a1x (named : tree.node id = .identifier "a1x")
    (headed : tree.callHeadedBy? id = some (call, arguments)) :
    Detector.verdict Detector.regrowing {} tree id =
      .proposed "Split Digit Runs" ⟨call, splitCall arguments, "split into 2 factors"⟩ := by
  have found := name?_eq_some_iff.mpr named
  have kept : tree.name? id ≠ some "x" := by
    rw [found]
    decide
  have free : ({} : Options).exemptsName (tree.isCallee id) "a1x" = false := by
    cases tree.isCallee id <;> decide
  have split : Rule.detectName Rule.splitDigitRuns {} tree id =
      .ok (some ⟨call, splitCall arguments, "split into 2 factors"⟩) := by
    have pieces : Text.pieces "a1x" = ["a1", "x"] := by decide
    have read : ["a1", "x"].mapM NamePiece.ofText = .ok [.name "a1", .name "x"] := rfl
    rw [detectName_eq named, free]
    simp only [Bool.false_eq_true, if_false, Rule.splitDigitRuns, pieces, read, Proposal.forName,
      headed]
    rfl
  simp only [Detector.verdict, Detector.regrowing, Detector.renames, List.foldr_cons,
    List.foldr_nil, split, if_neg kept, Verdict.after]

/-! ## One name left -/

/-- A sound tree in which the rules have one name to act on. It heads a call. -/
structure Sprouts (tree : Tree) (layout : Layout) (name : String) (callee call : NodeId)
    (arguments : List NodeId) : Prop where
  planted : tree.Planted layout
  member : callee ∈ layout.places
  named : tree.node callee = .identifier name
  headed : tree.callHeadedBy? callee = some (call, arguments)
  others : ∀ id ∈ layout.places, ∀ other, tree.node id = .identifier other →
    id = callee ∨ Detector.Spares other

namespace Sprouts

theorem call_mem (sprouts : tree.Sprouts layout name callee call arguments) :
    call ∈ layout.places :=
  sprouts.planted.parent_mem sprouts.member (callHeadedBy?_eq_some_iff.mp sprouts.headed).1

theorem declined (sprouts : tree.Sprouts layout name callee call arguments)
    (inside : id ∈ layout.places) (other : id ≠ callee) :
    Detector.verdict Detector.regrowing {} tree id = .declined := by
  refine declined_of_spared fun name named => ?_
  exact (sprouts.others id inside name named).resolve_left other

/-- Old names are left alone by an edit, so only what it adds has to be looked at. -/
theorem next (sprouts : tree.Sprouts layout name callee call arguments)
    (site : tree.Site layout target holder below held)
    (exchanged : tree.Exchanged target holder held edited grafted)
    (gone : ∀ id, id ∈ layout.outside target ∨ id ∈ held.flatMap Layout.places → id ≠ callee)
    {sprout caller : NodeId} {final : String}
    (member : sprout ∈ (layout.graft target grafted).places)
    (named : edited.node sprout = .identifier final)
    (headed : edited.callHeadedBy? sprout = some (caller, arguments))
    (fresh : ∀ id, tree.size ≤ id.index → ∀ other, edited.node id = .identifier other →
      id = sprout ∨ Detector.Spares other) :
    edited.Sprouts (layout.graft target grafted) final sprout caller arguments := by
  refine ⟨site.planted_graft exchanged, member, named, headed, fun id inside other here => ?_⟩
  have older (stays : id ∈ layout.outside target ∨ id ∈ held.flatMap Layout.places) :
      Detector.Spares other := by
    have inLayout : id ∈ layout.places := stays.elim site.mem_of_outside site.mem_of_held
    have leaf : edited.children id = [] := by
      rw [Tree.children, here]
      rfl
    rw [site.leaf_node_of_edited exchanged inLayout leaf] at here
    exact (sprouts.others id inLayout other here).resolve_left (gone id stays)
  rcases site.mem_graft_iff.mp inside with outside | inGrafted
  · exact .inr (older (.inl outside))
  · rcases exchanged.mem_cases id inGrafted with beyond | kept
    · exact fresh id beyond other here
    · exact .inr (older (.inr kept))

end Sprouts

/-! ## The name is split off -/

theorem node_store_splitCall (tree : Tree) (arguments : List NodeId) (id : NodeId) :
    ((splitCall arguments).store tree).2.node id =
      if id.index = tree.size + 3 then .product ⟨tree.size + 2⟩ ⟨tree.size + 1⟩
      else if id.index = tree.size + 2 then .identifier "a1"
      else if id.index = tree.size + 1 then .call ⟨tree.size⟩ arguments
      else if id.index = tree.size then .identifier "x"
      else tree.node id := by
  cases id
  simp only [splitCall, Draft.store, node_store, store_fst, next, size_store, NodeId.mk.injEq]

theorem parent_store_splitCall {arguments : List NodeId}
    (held : id = ⟨tree.size⟩ ∨ id ∈ arguments ∧ id.index < tree.size) :
    ((splitCall arguments).store tree).2.parent id = some ⟨tree.size + 1⟩ := by
  have early : id.index < tree.size + 1 := by
    rcases held with rfl | ⟨_, inside⟩
    · exact Nat.lt_succ_self _
    · exact Nat.lt_succ_of_lt inside
  have slot : id ∈ (Node.call ⟨tree.size⟩ arguments).children :=
    List.mem_cons.mpr (held.imp_right And.left)
  have notTop : id ∉ (Node.product ⟨tree.size + 2⟩ ⟨tree.size + 1⟩).children := by
    cases id
    simp only [Node.product, Node.children, List.mem_cons, NodeId.mk.injEq, List.not_mem_nil,
      or_false]
    dsimp only at early
    omega
  have notLeaf : id ∉ (Node.identifier "a1").children := List.not_mem_nil
  simp only [splitCall, Draft.store, parent_store, store_fst, next, size_store, slot, notTop,
    notLeaf, early, false_and, and_self, if_true, if_false]

theorem fst_store_splitCall (tree : Tree) (arguments : List NodeId) :
    ((splitCall arguments).store tree).1 = ⟨tree.size + 3⟩ := by
  simp only [splitCall, Draft.store, store_fst, next, size_store]

theorem name_of_splitCall {other : String} (beyond : tree.size ≤ id.index)
    (named : ((splitCall arguments).store tree).2.node id = .identifier other) :
    id = ⟨tree.size⟩ ∨ Detector.Spares other := by
  rw [node_store_splitCall] at named
  split at named
  · cases named
  · split at named
    · cases named
      exact .inr (by decide)
    · split at named
      · cases named
      · split at named
        · next same => exact .inl (NodeId.eq_of_index_eq same)
        · rw [node_of_size_le tree id beyond] at named
          cases named

namespace Sprouts

theorem call_node (sprouts : tree.Sprouts layout name callee call arguments) :
    tree.node call = .call callee arguments :=
  (callHeadedBy?_eq_some_iff.mp sprouts.headed).2

theorem call_parent (sprouts : tree.Sprouts layout name callee call arguments) :
    tree.parent callee = some call :=
  (callHeadedBy?_eq_some_iff.mp sprouts.headed).1

/-- The head of a call is none of its arguments. -/
theorem callee_not_mem (sprouts : tree.Sprouts layout name callee call arguments) :
    callee ∉ arguments := by
  obtain ⟨part, inside, rfl⟩ := Layout.exists_within_of_mem sprouts.call_mem
  cases part with
  | node place below =>
      have distinct := Layout.places_nodup_of_children (inside.nodup sprouts.planted.nodup)
      have children := (sprouts.planted.spans.within inside).children
      have call := sprouts.call_node
      rw [Layout.place_node] at call
      rw [← children, Tree.children, call] at distinct
      exact (List.nodup_cons.mp distinct).1

theorem fits_splitCall (sprouts : tree.Sprouts layout name callee call arguments) :
    Proposal.Fits tree callee ⟨call, splitCall arguments, "split into 2 factors"⟩ := by
  constructor
  case isNew => rfl
  case target => exact .inr ⟨arguments, sprouts.headed⟩
  case inner =>
    show (tree.node call).isRoot = false
    rw [sprouts.call_node]
    rfl
  case keeps => exact .inr ⟨callee, arguments, sprouts.call_node, List.sublist_cons_self _ _⟩

/-- The split leaves a call of `x` with the old arguments. -/
theorem exists_split (sprouts : tree.Sprouts layout name callee call arguments) :
    ∃ edited grown sprout caller,
      ((splitCall arguments).store tree).2.replace call ((splitCall arguments).store tree).1 =
        .ok edited ∧
      edited.Sprouts grown "x" sprout caller arguments := by
  obtain ⟨holder, below, held, edited, grafted, site, keeps, exchanged, place, result, replaced⟩ :=
    sprouts.fits_splitCall.exists_exchanged sprouts.planted sprouts.member
  dsimp only at site keeps exchanged place result replaced
  rw [fst_store_splitCall] at place
  have here : tree.size ≤ (⟨tree.size⟩ : NodeId).index := Nat.le_refl _
  have next : tree.size ≤ (⟨tree.size + 1⟩ : NodeId).index := Nat.le_add_right _ 1
  have node (id : NodeId) (beyond : tree.size ≤ id.index) :=
    (site.stored_node replaced beyond).trans (node_store_splitCall tree arguments id)
  have top : edited.node grafted.place = .product ⟨tree.size + 2⟩ ⟨tree.size + 1⟩ := by
    rw [node _ exchanged.fresh, place]
    simp
  have caller : edited.node ⟨tree.size + 1⟩ = .call ⟨tree.size⟩ arguments := by
    rw [node _ next]
    simp
  have sprout : edited.node ⟨tree.size⟩ = .identifier "x" := by
    rw [node _ here]
    simp
  have link : edited.parent ⟨tree.size⟩ = some ⟨tree.size + 1⟩ := by
    have notTop : (⟨tree.size⟩ : NodeId) ≠ grafted.place := by
      intro same
      have index := congrArg NodeId.index (same.trans place)
      dsimp only at index
      omega
    rw [site.stored_parent replaced here notTop]
    exact parent_store_splitCall (.inl rfl)
  have planted := site.planted_graft exchanged
  have topMember : grafted.place ∈ (layout.graft call grafted).places :=
    site.mem_graft_iff.mpr (.inr grafted.place_mem_places)
  have callerSlot : (⟨tree.size + 1⟩ : NodeId) ∈ edited.children grafted.place := by
    rw [Tree.children, top]
    exact List.mem_cons_of_mem _ List.mem_cons_self
  have sproutSlot : (⟨tree.size⟩ : NodeId) ∈ edited.children ⟨tree.size + 1⟩ := by
    rw [Tree.children, caller]
    exact List.mem_cons_self
  have member := planted.child_mem (planted.child_mem topMember callerSlot) sproutSlot
  have headed := callHeadedBy?_eq_some_iff.mpr ⟨link, caller⟩
  rw [place, ← fst_store_splitCall tree arguments] at result
  refine ⟨edited, _, _, _, result, sprouts.next site exchanged ?_ member sprout headed ?_⟩
  · intro id stays same
    have dropped : callee ∉ held.map Layout.place := by
      rw [keeps]
      exact sprouts.callee_not_mem
    obtain ⟨notOutside, notHeld⟩ := site.child_gone sprouts.call_parent dropped
    rw [same] at stays
    exact stays.elim notOutside notHeld
  · intro id beyond other named
    rw [site.stored_node replaced beyond] at named
    exact name_of_splitCall beyond named

/-- The new name heads the call that the old one did. -/
theorem exists_rename (sprouts : tree.Sprouts layout name callee call arguments)
    (final : String) :
    ∃ edited grown sprout,
      ((Draft.identifier final).store tree).2.replace callee
        ((Draft.identifier final).store tree).1 = .ok edited ∧
      edited.Sprouts grown final sprout call arguments := by
  have fits : Proposal.Fits tree callee ⟨callee, .identifier final, ""⟩ := by
    constructor
    case isNew => rfl
    case target => exact .inl rfl
    case inner =>
      show (tree.node callee).isRoot = false
      rw [sprouts.named]
      rfl
    case keeps => exact .inl rfl
  obtain ⟨holder, below, held, edited, grafted, site, keeps, exchanged, place, result, replaced⟩ :=
    fits.exists_exchanged sprouts.planted sprouts.member
  obtain rfl : held = [] := List.map_eq_nil_iff.mp keeps
  dsimp only at site exchanged place result replaced
  have sameHolder : holder = call :=
    Option.some.inj (site.parent.symm.trans sprouts.call_parent)
  subst sameHolder
  have stored (id : NodeId) : ((Draft.identifier final).store tree).2.node id =
      if id = tree.next then .identifier final else tree.node id :=
    node_store tree id (.identifier final)
  have sprout : edited.node grafted.place = .identifier final := by
    rw [site.stored_node replaced exchanged.fresh, stored, place]
    exact if_pos rfl
  have caller : edited.node holder = .call grafted.place arguments := by
    obtain ⟨repointed, repoint, nodes⟩ := replaced.node
    have old : holder ≠ tree.next := by
      intro same
      have before := sprouts.planted.index_lt sprouts.call_mem
      rw [same] at before
      exact Nat.lt_irrefl _ before
    rw [stored, if_neg old, sprouts.call_node, Node.repoint?, if_pos rfl,
      Option.some.injEq] at repoint
    rw [nodes, if_pos rfl, ← repoint]
  have member : grafted.place ∈ (layout.graft callee grafted).places :=
    site.mem_graft_iff.mpr (.inr grafted.place_mem_places)
  have headed := callHeadedBy?_eq_some_iff.mpr ⟨exchanged.link, caller⟩
  rw [place] at result
  refine ⟨edited, _, _, result, sprouts.next site exchanged ?_ member sprout headed ?_⟩
  · intro id stays
    rcases stays with outside | kept
    · exact (site.not_held_of_outside outside).1
    · cases kept
  · intro id beyond other named
    rw [site.stored_node replaced beyond, stored] at named
    split at named
    · next same => exact .inl (same.trans place.symm)
    · rw [node_of_size_le tree id beyond] at named
      cases named

/-- As long as the split is not put in, the arguments have a parent that is not reachable. -/
theorem check_splitCall (sprouts : tree.Sprouts layout name callee call arguments)
    (some : arguments ≠ []) : ((splitCall arguments).store tree).2.check ≠ .ok () := by
  intro accepted
  have slot (argument : NodeId) (member : argument ∈ arguments) :
      argument ∈ tree.children call := by
    rw [Tree.children, sprouts.call_node]
    exact List.mem_cons_of_mem _ member
  have inside (argument : NodeId) (member : argument ∈ arguments) :
      argument ∈ layout.places :=
    sprouts.planted.child_mem sprouts.call_mem (slot argument member)
  have allocates : tree.Allocates ((splitCall arguments).store tree).2 :=
    Draft.allocates_store fun id member => sprouts.planted.index_lt (inside id member)
  obtain ⟨argument, member⟩ := List.exists_mem_of_ne_nil arguments some
  have same := (sprouts.planted.check_stored_iff allocates).mp accepted argument
    (sprouts.planted.reaches_iff.mpr (inside argument member))
  have adopted : ((splitCall arguments).store tree).2.parent argument = .some ⟨tree.size + 1⟩ :=
    parent_store_splitCall (.inr ⟨member, sprouts.planted.index_lt (inside argument member)⟩)
  have held : tree.parent argument = .some call :=
    sprouts.planted.spans.parent_of_mem sprouts.call_mem (slot argument member)
  have callInside := sprouts.planted.index_lt sprouts.call_mem
  have caller : call = ⟨tree.size + 1⟩ :=
    Option.some.inj (held.symm.trans (same.symm.trans adopted))
  rw [caller] at callInside
  exact Nat.not_succ_lt_self callInside

end Sprouts

end Tree

/-! ## Runs that grow the name again -/

namespace Normalization

open Detector (regrowing)

variable {setting : Setting} {progress : Progress} {layout : Layout} {name : String}
  {callee call : NodeId} {arguments : List NodeId}

/-- The only node that a rule has something to say about is the one that is found. -/
theorem search_eq_foundAt {detectors : List Detector}
    (rules : setting.rules = detectors.map Detector.rule) {ids : List NodeId} {id : NodeId}
    {rule : String} {proposal : Proposal} (fresh : progress.skipped = []) (member : id ∈ ids)
    (proposed : Detector.verdict detectors setting.options progress.tree id =
      .proposed rule proposal)
    (declined : ∀ other ∈ ids, other ≠ id →
      Detector.verdict detectors setting.options progress.tree other = .declined) :
    search setting ids progress = foundAt rule proposal progress := by
  induction ids with
  | nil => cases member
  | cons first rest ih =>
      have notSkipped : first ∉ progress.skipped := by
        rw [fresh]
        exact List.not_mem_nil
      have tried := tryRules_eq setting.options first detectors progress
      rw [← rules] at tried
      unfold search
      rw [if_neg notSkipped, tried]
      by_cases same : first = id
      · rw [same, proposed]
        rfl
      · rw [declined first List.mem_cons_self same]
        exact ih ((List.mem_cons.mp member).resolve_left (Ne.symm same))
          fun other later => declined other (List.mem_cons_of_mem _ later)

theorem runPass_regrowing (rules : setting.rules = regrowing.map Detector.rule)
    (options : setting.options = {}) (fresh : progress.skipped = [])
    (sprouts : progress.tree.Sprouts layout name callee call arguments) {rule : String}
    {proposal : Proposal}
    (proposed : Detector.verdict regrowing {} progress.tree callee = .proposed rule proposal) :
    runPass setting progress =
      foundAt rule proposal { progress with passes := progress.passes + 1 } := by
  have walked (id : NodeId) : id ∈ progress.tree.passOrder ↔ id ∈ layout.places :=
    sprouts.planted.mem_passOrder_iff
  rw [← options] at proposed
  refine search_eq_foundAt rules fresh ((walked callee).mpr sprouts.member) proposed ?_
  intro id member other
  rw [options]
  exact sprouts.declined ((walked id).mp member) other

/-- One round of edits: the rules have again one name to act on. -/
theorem runPasses_carriesOut (rules : setting.rules = regrowing.map Detector.rule)
    (options : setting.options = {}) (fresh : progress.skipped = [])
    (sprouts : progress.tree.Sprouts layout name callee call arguments) {rule : String}
    {proposal : Proposal} {edited : Tree}
    (proposed : Detector.verdict regrowing {} progress.tree callee = .proposed rule proposal)
    (replaced : (proposal.draft.store progress.tree).2.replace proposal.target
      (proposal.draft.store progress.tree).1 = .ok edited) :
    ∃ later, later.skipped = [] ∧ later.tree = edited ∧ ∀ remaining,
      runPasses setting (remaining + 1) progress = runPasses setting remaining later := by
  have onward := runPasses_of_finding
    (runPass_regrowing rules options fresh sprouts proposed)
  dsimp only at onward
  rw [replaced] at onward
  refine ⟨_, ?_, ?_, onward⟩
  · exact fresh
  · rfl

/-- Two edits lead back to a tree in which `a1x` is to be split. -/
theorem runPasses_regrows (rules : setting.rules = regrowing.map Detector.rule)
    (options : setting.options = {}) (fresh : progress.skipped = [])
    (sprouts : progress.tree.Sprouts layout "a1x" callee call arguments) :
    ∃ later grown sprout caller, later.skipped = [] ∧
      later.tree.Sprouts grown "a1x" sprout caller arguments ∧
      ∀ remaining, runPasses setting (remaining + 2) progress =
        runPasses setting remaining later := by
  obtain ⟨halved, _, x, caller, split, shrunk⟩ := sprouts.exists_split
  obtain ⟨middle, middleFresh, rfl, first⟩ := runPasses_carriesOut rules options fresh sprouts
    (Tree.proposed_of_a1x sprouts.named sprouts.headed) split
  obtain ⟨whole, grown, sprout, renamed, sprouts'⟩ := shrunk.exists_rename "a1x"
  obtain ⟨later, laterFresh, rfl, second⟩ := runPasses_carriesOut rules options middleFresh shrunk
    (Tree.proposed_of_x shrunk.named) renamed
  exact ⟨later, grown, sprout, caller, laterFresh, sprouts',
    fun remaining => (first (remaining + 1)).trans (second remaining)⟩

/-- Whatever number of rounds is allowed, it is exceeded by a split. The split is stored and not
put in, so the tree that is left is not sound. -/
theorem runPasses_exceeds (rules : setting.rules = regrowing.map Detector.rule)
    (options : setting.options = {}) (fresh : progress.skipped = [])
    (sprouts : progress.tree.Sprouts layout "a1x" callee call arguments)
    (some : arguments ≠ []) (rounds : Nat) :
    (runPasses setting (2 * rounds) progress).1 = .error (.limitExceeded setting.limit) ∧
      (runPasses setting (2 * rounds) progress).2.tree.check ≠ .ok () := by
  induction rounds generalizing progress layout callee call with
  | zero =>
      have pass := runPass_regrowing rules options fresh sprouts
        (Tree.proposed_of_a1x sprouts.named sprouts.headed)
      rw [Nat.mul_zero, runPasses_zero_of_finding pass]
      exact ⟨rfl, sprouts.check_splitCall some⟩
  | succ rounds ih =>
      obtain ⟨later, grown, sprout, caller, laterFresh, sprouts', onward⟩ :=
        runPasses_regrows rules options fresh sprouts
      rw [Nat.mul_succ, onward]
      exact ih laterFresh sprouts'

end Normalization

end Juxtaposition
