import Juxtaposition.Proofs.Expr.Exchange
import Juxtaposition.Proofs.Layout.Planted
import Juxtaposition.Proofs.Rule.Reading
import Juxtaposition.Proofs.Rule.Verdict

/-!
# Offers

What the standard rules propose, said along the layout of the tree: the part that a
draft takes the place of, the layouts it keeps, and the reduction it stands for.
-/

set_option autoImplicit false

namespace Juxtaposition.Tree

variable {tree : Tree} {layout : Layout} {options : Options} {id target : NodeId}
  {below held : List Layout} {draft : Draft}

namespace Planted

theorem exists_call (planted : tree.Planted layout) (member : id ∈ layout.places)
    {callee : NodeId} {arguments : List NodeId} (call : tree.node id = .call callee arguments) :
    ∃ first rest, (Layout.node id (first :: rest)).Within layout ∧ first.place = callee ∧
      rest.map Layout.place = arguments := by
  obtain ⟨part, inside, rfl⟩ := Layout.exists_within_of_mem member
  cases part with
  | node place below =>
      have children := (planted.spans.within inside).children
      rw [Tree.children, show tree.node place = _ from call] at children
      obtain ⟨first, rest, rfl, callee, arguments⟩ := List.map_eq_cons_iff.mp children.symm
      exact ⟨first, rest, inside, callee, arguments⟩

theorem exprAlong_call (planted : tree.Planted layout) {first : Layout} {rest : List Layout}
    (inside : (Layout.node id (first :: rest)).Within layout) {callee : NodeId}
    {arguments : List NodeId} (call : tree.node id = .call callee arguments) :
    tree.exprAlong (.node id (first :: rest)) =
      .call (tree.exprAlong first) ((rest.map Layout.place).map tree.read) := by
  rw [exprAlong_node, call, List.map_map]
  refine congrArg (Expr.call _) (List.map_congr_left fun child member => ?_)
  exact (planted.read_place (.trans (.of_mem .refl (List.mem_cons_of_mem _ member)) inside)).symm

end Planted

/-- A proposal for the node at `target` of a planted tree: what it keeps, and how old
and new read. -/
structure Offer (tree : Tree) (options : Options) (layout : Layout) (id target : NodeId)
    (draft : Draft) (below held : List Layout) : Prop where
  inside : (Layout.node target below).Within layout
  inner : (tree.node target).isRoot = false
  kept : held.Sublist below
  isNew : draft.isNew = true
  keeps : held.map Layout.place = draft.keeps
  visited : id ∈ (Layout.node target below).places
  reduces : Expr.Reduces options (tree.exprAlong (.node target below)) (draft.expr tree.read)
  dropped : ∀ other ∈ (Layout.node target below).places,
    other = target ∨ other = id ∨ other ∈ held.flatMap Layout.places

/-! ## Names -/

structure Spot (tree : Tree) (layout : Layout) (id : NodeId) (name : String)
    (below held : List Layout) : Prop where
  inside : (Layout.node (tree.spot id).1 below).Within layout
  inner : (tree.node (tree.spot id).1).isRoot = false
  kept : held.Sublist below
  keeps : held.map Layout.place = (tree.spot id).2.getD []
  visited : id ∈ (Layout.node (tree.spot id).1 below).places
  expr : tree.exprAlong (.node (tree.spot id).1 below) =
    .named ((tree.spot id).2.map (List.map tree.read)) name
  dropped : ∀ other ∈ (Layout.node (tree.spot id).1 below).places,
    other = (tree.spot id).1 ∨ other = id ∨ other ∈ held.flatMap Layout.places

theorem Planted.exists_spot (planted : tree.Planted layout) (member : id ∈ layout.places)
    {name : String} (named : tree.node id = .identifier name) :
    ∃ below held, tree.Spot layout id name below held := by
  obtain ⟨part, inside, rfl⟩ := Layout.exists_within_of_mem member
  have leaf := (planted.spans.within inside).eq_leaf_of_name named
  cases headed : tree.callHeadedBy? part.place with
  | none =>
      have spot : tree.spot part.place = (part.place, none) := by rw [Tree.spot, headed]
      refine ⟨[], [], ?_, ?_, List.Sublist.refl _, ?_, ?_, ?_, ?_⟩
      · rwa [spot, ← leaf]
      · rw [spot, named]
        rfl
      · rw [spot]
        rfl
      · rw [spot]
        exact Layout.place_mem_places _
      · rw [spot, exprAlong_node, named]
        rfl
      · rw [spot]
        intro other here
        simp at here
        exact .inl here
  | some found =>
      obtain ⟨caller, arguments⟩ := found
      have spot : tree.spot part.place = (caller, some arguments) := by rw [Tree.spot, headed]
      obtain ⟨link, call⟩ := callHeadedBy?_eq_some_iff.mp headed
      obtain ⟨first, rest, outer, callee, same⟩ :=
        planted.exists_call (planted.parent_mem member link) call
      rw [← callee] at named
      have spansFirst := (planted.spans.within outer).child List.mem_cons_self
      have firstLeaf := spansFirst.eq_leaf_of_name named
      refine ⟨first :: rest, rest, ?_, ?_, List.sublist_cons_self _ _, ?_, ?_, ?_, ?_⟩
      · rwa [spot]
      · rw [spot, call]
        rfl
      · rw [spot, same]
        rfl
      · rw [spot, Layout.places_node, List.flatMap_cons, ← callee]
        exact List.mem_cons_of_mem _ (List.mem_append_left _ first.place_mem_places)
      · rw [spot, planted.exprAlong_call outer call, same, firstLeaf, exprAlong_node, named]
        rfl
      · rw [spot]
        intro other here
        rw [firstLeaf, callee, Layout.places_node, List.flatMap_cons, Layout.places_node,
          List.flatMap_nil, List.mem_cons, List.mem_append, List.mem_singleton] at here
        exact here

/-! ## Offers -/

namespace Planted

theorem offer_of_name (planted : tree.Planted layout) (member : id ∈ layout.places) {name : String}
    (named : tree.node id = .identifier name)
    (proposed : (tree.verdict options id).gist = .ok (some (target, draft))) :
    target = (tree.spot id).1 ∧
      ∃ below held, tree.Offer options layout id target draft below held := by
  obtain ⟨below, held, spot⟩ := planted.exists_spot member named
  rw [gist_verdict_name named] at proposed
  have position : (tree.spot id).2.isSome = tree.isCallee id := isSome_spot tree id
  rw [← position] at proposed
  cases split : options.split (tree.spot id).2.isSome name with
  | whole => rw [split] at proposed; cases proposed
  | oversized number => rw [split] at proposed; cases proposed
  | pieces first second rest =>
      rw [split] at proposed
      cases proposed
      refine ⟨rfl, below, held, spot.inside, spot.inner, spot.kept, ?_, ?_, spot.visited, ?_,
        spot.dropped⟩
      · exact NamePiece.isNew_chain _ _ _
      · rw [NamePiece.keeps_chain, spot.keeps]
      · rw [spot.expr, NamePiece.expr_chain]
        exact .pieces (by rwa [Option.isSome_map])
  | trailing letters value =>
      rw [split] at proposed
      cases proposed
      refine ⟨rfl, below, held, spot.inside, spot.inner, spot.kept, rfl, ?_, spot.visited, ?_,
        spot.dropped⟩
      · rw [Draft.keeps, Draft.keeps, NamePiece.keeps_draftWith, spot.keeps, List.nil_append]
      · rw [spot.expr, Draft.expr, Draft.expr, NamePiece.expr_draftWith]
        exact .trailing (by rwa [Option.isSome_map])

theorem offer_of_call (planted : tree.Planted layout) (member : id ∈ layout.places)
    {callee : NodeId} {arguments : List NodeId} (call : tree.node id = .call callee arguments)
    (kept : ∀ name, tree.node callee = .identifier name → (options.split true name).isKept = true)
    (proposed : (tree.verdict options id).gist = .ok (some (target, draft))) :
    target = id ∧ ∃ below held, tree.Offer options layout id target draft below held := by
  obtain ⟨first, rest, inside, rfl, same⟩ := planted.exists_call member call
  have spans := (planted.spans.within inside).child List.mem_cons_self
  have firstRead : tree.read first.place = tree.exprAlong first :=
    planted.read_place (.trans (.of_mem .refl List.mem_cons_self) inside)
  have inner : (tree.node id).isRoot = false := by
    rw [call]
    rfl
  have dropped : ∀ other ∈ (Layout.node id (first :: rest)).places,
      other = id ∨ other = id ∨ other ∈ (first :: rest).flatMap Layout.places := by
    intro other here
    rw [Layout.places_node, List.mem_cons] at here
    exact here.imp_right .inr
  have offer (reduces : Expr.Reduces options
        (.call (tree.exprAlong first) (arguments.map tree.read))
        (.product (tree.exprAlong first) (.group (arguments.map tree.read))))
      (asProduct : (tree.verdict options id).gist = callGist id first.place arguments) :
      target = id ∧ ∃ below held, tree.Offer options layout id target draft below held := by
    rw [asProduct] at proposed
    cases proposed
    refine ⟨rfl, first :: rest, first :: rest, inside, inner, List.Sublist.refl _, rfl, ?_,
      Layout.place_mem_places _, ?_, dropped⟩
    · rw [List.map_cons, same]
      rfl
    · rw [planted.exprAlong_call inside call, same]
      simp only [Draft.expr, firstRead]
      exact reduces
  have isRoot := (planted.spans.within inside).isRoot List.mem_cons_self
  obtain ⟨_, kind⟩ := spans.kind_exprAlong isRoot
  cases called : (tree.node first.place).isCallOrGroup with
  | true =>
      exact offer (.callOfCall (kind.trans called)) (gist_verdict_callOfCall call called)
  | false =>
      cases found : tree.name? first.place with
      | none =>
          rw [gist_verdict_otherCall call found called] at proposed
          cases proposed
      | some name =>
          have named := name?_eq_some_iff.mp found
          have judged := gist_verdict_callOfName options call named
          cases reason : options.nonFunction? name with
          | none =>
              rw [judged, reason] at proposed
              cases proposed
          | some text =>
              rw [reason] at judged
              refine offer ?_ judged
              rw [spans.eq_leaf_of_name named, exprAlong_node, named]
              exact .nonFunction (kept name named) reason

theorem offer_of_float (planted : tree.Planted layout) (member : id ∈ layout.places)
    {value : Binary64} {literal : Option String} (float : tree.node id = .float value literal)
    (proposed : (tree.verdict options id).gist = .ok (some (target, draft))) :
    target = id ∧ tree.Offer options layout id id draft [] [] ∧
      Expr.CalledAlike (tree.exprAlong (.node id [])) (draft.expr tree.read) := by
  obtain ⟨part, inside, rfl⟩ := Layout.exists_within_of_mem member
  have leaf : part = .node part.place [] :=
    (planted.spans.within inside).eq_leaf (by rw [Tree.children, float]; rfl)
  rw [leaf] at inside
  rw [gist_verdict_float float] at proposed
  rcases literalGist_cases options part.place literal with
    ⟨silent, _⟩ | ⟨text, literal, rfl, lenient, found, judged⟩
  · rw [silent] at proposed
    cases proposed
  · rw [judged] at proposed
    cases drafted : literal.draft with
    | error number => rw [drafted] at proposed; cases proposed
    | ok result =>
        rw [drafted] at proposed
        cases proposed
        obtain ⟨isNew, keeps⟩ := ExponentLiteral.draft_new drafted
        have reads : literal.expr = .ok (draft.expr tree.read) := by
          rw [literal.expr_eq tree.read, drafted]
          rfl
        refine ⟨rfl, ⟨inside, ?_, List.Sublist.refl _, isNew, ?_, Layout.place_mem_places _, ?_,
          ?_⟩, ?_⟩
        · rw [float]
          rfl
        · rw [keeps]
          rfl
        · rw [exprAlong_node, float]
          exact .literal lenient found reads
        · intro other here
          simp at here
          exact .inl here
        · rw [exprAlong_node, float]
          obtain ⟨mantissa, exponent, _, ⟨operator, shape⟩ | shape⟩ :=
            ExponentLiteral.expr_eq_ok reads
          · rw [shape]
            exact ⟨rfl, rfl, rfl⟩
          · rw [shape]
            exact ⟨rfl, rfl, rfl⟩

end Planted

end Juxtaposition.Tree
