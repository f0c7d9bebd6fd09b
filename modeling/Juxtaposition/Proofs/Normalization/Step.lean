import Juxtaposition.Proofs.Normalization.Carried
import Juxtaposition.Proofs.Normalization.Order
import Juxtaposition.Proofs.Rule.Quiet

/-!
# One step of a run

The first proposal in the order of a pass can always be carried out. The edited tree
is planted, and its expression is one reduction further.
-/

set_option autoImplicit false

namespace Juxtaposition.Tree

variable {tree edited : Tree} {layout : Layout} {options : Options} {id target : NodeId}
  {below held : List Layout} {draft : Draft}

structure Survives (tree edited : Tree) (next : Layout) (id : NodeId) : Prop where
  member : id ∈ next.places
  node : edited.node id = tree.node id
  isCallee : edited.isCallee id = true → tree.isCallee id = true

theorem IsOversized.survives {next : Layout} (oversized : tree.IsOversized options id)
    (survives : tree.Survives edited next id) : edited.IsOversized options id := by
  rcases tree.gist_verdict_cases options id with
    ⟨name, named⟩ | ⟨callee, arguments, call⟩ | ⟨value, literal, float⟩ | declined
  · obtain ⟨number, split⟩ := oversized.split_eq named
    have stays : options.split (edited.isCallee id) name = .oversized number := by
      cases after : edited.isCallee id with
      | true => rw [← split, survives.isCallee after]
      | false =>
          cases before : tree.isCallee id with
          | true => rw [before] at split; exact Options.split_value_oversized split
          | false => rw [← split, before]
    refine ⟨number, ?_⟩
    rw [gist_verdict_name (survives.node.trans named), stays]
    rfl
  · have leaf := oversized.children_eq
    rw [Tree.children, call] at leaf
    cases leaf
  · obtain ⟨number, found⟩ := oversized
    rw [gist_verdict_float float] at found
    exact ⟨number, (gist_verdict_float (survives.node.trans float)).trans found⟩
  · obtain ⟨number, found⟩ := oversized
    rw [found] at declined
    cases declined

theorem Carries.survives {change : Change} (carried : tree.Carries options layout change edited)
    (member : id ∈ layout.places) (different : id ≠ change.visited)
    (leaf : tree.children id = []) : tree.Survives edited (layout.changed change) id := by
  have notTarget : id ≠ change.target := by
    rintro rfl
    rcases carried.headed with same | ⟨arguments, call⟩
    · exact different same
    · rw [Tree.children, call] at leaf
      cases leaf
  have stays := carried.mem_changed member notTarget different
  exact ⟨stays, carried.site.leaf_node carried.exchanged member leaf,
    carried.site.isCallee_of_edited carried.exchanged stays (carried.planted.index_lt member)⟩

theorem Offer.exists_carried (offer : tree.Offer options layout id target draft below held)
    (planted : tree.Planted layout)
    (proposed : (tree.verdict options id).gist = .ok (some (target, draft)))
    (headed : target = id ∨ ∃ arguments, tree.node target = .call id arguments)
    (alike : ∀ place rest arguments,
      (Layout.node place (.node target below :: rest)).Within layout →
      tree.node place = .call target arguments →
      Expr.CalledAlike (tree.exprAlong (.node target below)) (draft.expr tree.read)) :
    ∃ change edited, change.visited = id ∧ change.target = target ∧ change.draft = draft ∧
      tree.Carries options layout change edited := by
  obtain ⟨holder, site⟩ := planted.exists_site offer.inside offer.inner offer.kept
  obtain ⟨edited, grafted, _, replaced, exchanged, reading⟩ :=
    site.exists_edit offer.isNew offer.keeps
  exact ⟨⟨id, target, holder, draft, below, held, grafted⟩, edited, rfl, rfl, rfl,
    proposed, offer, headed, alike, site, replaced, exchanged, reading⟩

namespace Planted

variable {front back : List NodeId}

/-- Where a call is offered as a product, or a called name as factors, no call around it
calls it. That call would have had its turn before. -/
private theorem not_called (planted : tree.Planted layout)
    (order : tree.passOrder = front ++ id :: back)
    (quiet : ∀ earlier ∈ front, tree.Quiet options earlier) {place callee : NodeId}
    {rest : List Layout} {arguments others : List NodeId}
    (call : tree.node target = .call callee arguments)
    (visited : id ∈ (Layout.node target below).places)
    (outer : (Layout.node place (.node target below :: rest)).Within layout)
    (outerCall : tree.node place = .call target others) : False := by
  have unnamed : tree.name? target = none := name?_eq call
  have earlier := planted.call_before_callee outer outerCall unnamed visited order
  refine quiet place earlier _ (gist_verdict_callOfCall outerCall ?_)
  rw [call]
  rfl

/-- A name that is tried by its call has been kept whole. -/
private theorem isKept_callee (planted : tree.Planted layout)
    (order : tree.passOrder = front ++ id :: back)
    (quiet : ∀ earlier ∈ front, tree.Quiet options earlier) (member : id ∈ layout.places)
    {callee : NodeId} {arguments : List NodeId} (call : tree.node id = .call callee arguments)
    {name : String} (named : tree.node callee = .identifier name) :
    (options.split true name).isKept = true := by
  obtain ⟨first, rest, inside, rfl, _⟩ := planted.exists_call member call
  have earlier := (quiet _ (planted.name_before_call inside call named order)).isKept named
  have called : tree.isCallee first.place = true :=
    isCallee_eq_true_iff.mpr
      ⟨id, arguments, (planted.spans.within inside).parent List.mem_cons_self, call⟩
  rwa [called] at earlier

/-- The first proposal in the order of a pass can be carried out. -/
theorem exists_carried (planted : tree.Planted layout)
    (order : tree.passOrder = front ++ id :: back)
    (quiet : ∀ earlier ∈ front, tree.Quiet options earlier)
    (proposed : (tree.verdict options id).gist = .ok (some (target, draft))) :
    ∃ change edited, change.visited = id ∧ change.target = target ∧ change.draft = draft ∧
      tree.Carries options layout change edited := by
  have member : id ∈ layout.places := by
    rw [← planted.mem_passOrder_iff, order]
    simp
  rcases tree.gist_verdict_cases options id with
    ⟨name, named⟩ | ⟨callee, arguments, call⟩ | ⟨value, literal, float⟩ | declined
  · obtain ⟨same, below, held, offer⟩ := planted.offer_of_name member named proposed
    cases headed : tree.callHeadedBy? id with
    | none =>
        obtain rfl : target = id := by rw [same, spot, headed]
        refine offer.exists_carried planted proposed (.inl rfl)
          fun place rest arguments outer call => ?_
        have link := (planted.spans.within outer).parent List.mem_cons_self
        rw [Layout.place_node] at link
        rw [callHeadedBy?_eq_some_iff.mpr ⟨link, call⟩] at headed
        cases headed
    | some found =>
        obtain ⟨caller, arguments⟩ := found
        obtain rfl : target = caller := by rw [same, spot, headed]
        obtain ⟨_, call⟩ := callHeadedBy?_eq_some_iff.mp headed
        exact offer.exists_carried planted proposed (.inr ⟨arguments, call⟩)
          fun place rest others outer outerCall =>
            (planted.not_called order quiet call offer.visited outer outerCall).elim
  · obtain ⟨rfl, below, held, offer⟩ := planted.offer_of_call member call
      (fun name named => planted.isKept_callee order quiet member call named) proposed
    exact offer.exists_carried planted proposed (.inl rfl) fun place rest others outer outerCall =>
      (planted.not_called order quiet call offer.visited outer outerCall).elim
  · obtain ⟨rfl, offer, alike⟩ := planted.offer_of_float member float proposed
    exact offer.exists_carried planted proposed (.inl rfl) fun _ _ _ _ _ => alike
  · rw [declined] at proposed
    cases proposed

end Planted

end Juxtaposition.Tree
