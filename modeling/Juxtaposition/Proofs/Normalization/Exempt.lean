import Juxtaposition.Proofs.Normalization.Standard
import Juxtaposition.Proofs.Normalization.Still

/-!
# Exempt names in a run

A name that is exempt wherever it stands is a still node. A name that is exempt as a callee
only stays as well, because the call that it heads stays, and with it the position.
-/

set_option autoImplicit false

namespace Juxtaposition

open Juxtaposition.Tree (root)

theorem Node.eq_identifier_of_outline {node : Node} {name : String}
    (same : node.outline = .identifier name) : node = .identifier name := by
  cases node <;> cases same
  rfl

theorem Node.exists_call_of_outline {node : Node} {callee : NodeId} {arguments : List NodeId}
    (same : node.outline = (call callee arguments).outline) :
    ∃ head others, node = .call head others ∧ others.length = arguments.length := by
  cases node with
  | call head others =>
      have lengths := congrArg (fun outline => outline.children.length) same
      simp only [outline, rename, children, List.length_cons, List.length_map,
        Nat.add_right_cancel_iff] at lengths
      exact ⟨head, others, rfl, lengths⟩
  | _ => cases same

namespace Options

variable {options : Options} {isCallee : Bool} {name : String}

theorem split_of_exempts (exempt : options.exemptsName isCallee name = true) :
    options.split isCallee name = .whole := by
  rw [split, if_pos exempt]

theorem exemptsName_of_exemptsCallee (exempt : options.exemptsCallee name = true) :
    options.exemptsName true name = true := by
  rw [exemptsCallee, Bool.or_eq_true] at exempt
  rcases exempt with logarithm | safe
  · simp [exemptsName, logarithm]
  · simp [exemptsName, safe]

theorem nonFunction?_of_exempts (exempt : options.exemptsCallee name = true) :
    options.nonFunction? name = none := by
  rw [nonFunction?, if_pos exempt]

end Options

namespace Tree

variable {tree edited last : Tree} {layout final : Layout} {options : Options} {change : Change}
  {id call : NodeId} {arguments : List NodeId} {name : String} {count : Nat}

/-- An exempt callee, and the call that it heads, are of no interest to any rule. -/
private theorem Carries.ne_of_exempt (carried : tree.Carries options layout change edited)
    (member : call ∈ layout.places) (calls : tree.node call = .call id arguments)
    (named : tree.node id = .identifier name) (exempt : options.exemptsCallee name = true) :
    id ≠ change.target ∧ call ≠ change.target ∧ call ≠ change.visited := by
  have proposed := carried.proposed
  have link : tree.parent id = some call :=
    carried.planted.spans.parent_of_mem member (by rw [Tree.children, calls]; exact List.mem_cons_self)
  have called : tree.isCallee id = true := isCallee_eq_true_iff.mpr ⟨call, arguments, link, calls⟩
  have notVisited : id ≠ change.visited := by
    rintro rfl
    rw [gist_verdict_name named, called,
      Options.split_of_exempts (Options.exemptsName_of_exemptsCallee exempt)] at proposed
    cases proposed
  have callNotVisited : call ≠ change.visited := by
    rintro rfl
    rw [gist_verdict_callOfName options calls named,
      Options.nonFunction?_of_exempts exempt] at proposed
    cases proposed
  refine ⟨?_, ?_, callNotVisited⟩
  · rintro rfl
    rcases carried.headed with same | ⟨others, outer⟩
    · exact notVisited same
    · rw [named] at outer
      cases outer
  · rintro rfl
    rcases carried.headed with same | ⟨others, outer⟩
    · exact callNotVisited same
    · rw [calls, Node.call.injEq] at outer
      exact notVisited outer.1

/-- The call of an exempt name stays in the tree, and stays a call of that name. -/
theorem Carries.call_of_exempt (carried : tree.Carries options layout change edited)
    (member : call ∈ layout.places) (calls : tree.node call = .call id arguments)
    (named : tree.node id = .identifier name) (exempt : options.exemptsCallee name = true) :
    call ∈ (layout.changed change).places ∧ edited.node id = .identifier name ∧
      ∃ others, edited.node call = .call id others := by
  obtain ⟨notTarget, callNotTarget, callNotVisited⟩ :=
    carried.ne_of_exempt member calls named exempt
  refine ⟨carried.mem_changed member callNotTarget callNotVisited, ?_, ?_⟩
  · have inside : id ∈ layout.places :=
      carried.planted.child_mem member (by rw [Tree.children, calls]; exact List.mem_cons_self)
    have outline := carried.outline inside
    rw [named] at outline
    exact Node.eq_identifier_of_outline outline
  · by_cases same : call = change.holder
    · subst same
      have outline := carried.outline member
      rw [calls] at outline
      obtain ⟨head, others, node, _⟩ := Node.exists_call_of_outline outline
      obtain ⟨former, _, before, repointed⟩ := carried.exchanged.repoints.callee head others node
      rw [calls, Node.call.injEq] at before
      rw [← before.1, if_neg notTarget] at repointed
      exact ⟨others, by rw [node, repointed]⟩
    · exact ⟨arguments, (carried.exchanged.node call (carried.planted.index_lt member) same).trans
        calls⟩

theorem Evolves.call_of_exempt (evolves : Evolves options count tree layout last final)
    (member : call ∈ layout.places) (calls : tree.node call = .call id arguments)
    (named : tree.node id = .identifier name) (exempt : options.exemptsCallee name = true) :
    call ∈ final.places ∧ last.node id = .identifier name ∧
      ∃ others, last.node call = .call id others := by
  induction evolves generalizing arguments with
  | refl => exact ⟨member, named, arguments, calls⟩
  | cons carried _ ih =>
      obtain ⟨stays, stillNamed, others, stillCalls⟩ :=
        carried.call_of_exempt member calls named exempt
      exact ih stays stillCalls stillNamed

/-- The call that an exempt name heads stays, with as many arguments. -/
theorem Evolves.headed_of_exempt (evolves : Evolves options count tree layout last final)
    (planted : tree.Planted layout) (member : id ∈ layout.places)
    (named : tree.node id = .identifier name) (exempt : options.exemptsCallee name = true)
    (headed : tree.callHeadedBy? id = some (call, arguments)) :
    call ∈ final.places ∧ ∃ others, last.callHeadedBy? id = some (call, others) ∧
      others.length = arguments.length := by
  obtain ⟨link, calls⟩ := callHeadedBy?_eq_some_iff.mp headed
  have callMember := planted.parent_mem member link
  obtain ⟨stays, _, others, after⟩ := evolves.call_of_exempt callMember calls named exempt
  have first : id ∈ last.children call := by
    rw [Tree.children, after]
    exact List.mem_cons_self
  have back := (evolves.planted planted).spans.parent_of_mem stays first
  refine ⟨stays, others, callHeadedBy?_eq_some_iff.mpr ⟨back, after⟩, ?_⟩
  have outline := evolves.keepsOutlines.outline call (planted.index_lt callMember)
  rw [calls, after] at outline
  obtain ⟨_, _, shape, lengths⟩ := Node.exists_call_of_outline outline
  cases shape
  exact lengths

theorem Evolves.mem_of_exempt (evolves : Evolves options count tree layout last final)
    (planted : tree.Planted layout) (member : id ∈ layout.places)
    (named : tree.node id = .identifier name)
    (exempt : isLogarithmName name = true ∨ options.safeAsVariable name = true ∨
      tree.isCallee id = true ∧ options.safeAsFunction name = true) : id ∈ final.places := by
  by_cases called : tree.isCallee id = true ∧ options.safeAsFunction name = true
  · obtain ⟨call, arguments, link, calls⟩ := isCallee_eq_true_iff.mp called.1
    have headed := callHeadedBy?_eq_some_iff.mpr ⟨link, calls⟩
    have asCallee : options.exemptsCallee name = true := by
      rw [Options.exemptsCallee, Bool.or_eq_true]
      exact .inr called.2
    obtain ⟨stays, others, after, _⟩ :=
      evolves.headed_of_exempt planted member named asCallee headed
    refine (evolves.planted planted).child_mem stays ?_
    rw [Tree.children, (callHeadedBy?_eq_some_iff.mp after).2]
    exact List.mem_cons_self
  · have anywhere : isLogarithmName name = true ∨ options.safeAsVariable name = true := by
      rcases exempt with logarithm | safe | callee
      · exact .inl logarithm
      · exact .inr safe
      · exact absurd callee called
    refine evolves.mem_of_isStill member ?_
    rw [named]
    intro isCallee
    refine Options.split_of_exempts ?_
    rw [Options.exemptsName, Bool.or_eq_true, Bool.or_eq_true]
    exact .inl anywhere

end Tree

namespace Normalization

variable {tree : Tree} {options : Options} {id : NodeId} {name : String}

/-- An exempt name is still there after a run, and so is the call that it heads if the name is
exempt as a callee. -/
theorem runStandard_keeps_exempt (sound : tree.check = .ok ())
    (reached : tree.Reaches root id) (named : tree.node id = .identifier name)
    (exempt : isLogarithmName name = true ∨ options.safeAsVariable name = true ∨
      tree.isCallee id = true ∧ options.safeAsFunction name = true)
    (permitImplicit : Bool) (outcome : Outcome) :
    ∃ stats after, (runStandard permitImplicit options tree outcome).result = .ok stats ∧
      (runStandard permitImplicit options tree outcome).tree = after ∧
      after.Reaches root id ∧ after.node id = .identifier name ∧
      ∀ call arguments, tree.callHeadedBy? id = some (call, arguments) →
        isLogarithmName name = true ∨ options.safeAsFunction name = true →
        after.Reaches root call ∧ ∃ others, after.callHeadedBy? id = some (call, others) ∧
          others.length = arguments.length := by
  obtain ⟨layout, planted⟩ := Tree.check_eq_ok_iff.mp sound
  obtain ⟨final, next, count, ended, _, evolves, _⟩ :=
    exists_evolved planted permitImplicit options outcome
  obtain ⟨result, same, _⟩ := runStandard_of_runPasses ended
  have last := evolves.planted planted
  have member := planted.reaches_iff.mp reached
  refine ⟨final.stats, final.tree, result, same, ?_, ?_, ?_⟩
  · exact last.reaches_iff.mpr (evolves.mem_of_exempt planted member named exempt)
  · have outline := evolves.keepsOutlines.outline id (planted.index_lt member)
    rw [named] at outline
    exact Node.eq_identifier_of_outline outline
  · intro call arguments headed asCallee
    have exemptCallee : options.exemptsCallee name = true := by
      rw [Options.exemptsCallee, Bool.or_eq_true]
      exact asCallee
    obtain ⟨stays, after⟩ := evolves.headed_of_exempt planted member named exemptCallee headed
    exact ⟨last.reaches_iff.mpr stays, after⟩

/-- The tree of `log_2(x3)(y)`. -/
def calledLogarithm : Tree :=
  ⟨#[⟨.root ⟨1⟩, none⟩, ⟨.call ⟨2⟩ [⟨5⟩], some ⟨0⟩⟩, ⟨.call ⟨3⟩ [⟨4⟩], some ⟨1⟩⟩,
    ⟨.identifier "log_2", some ⟨2⟩⟩, ⟨.identifier "x3", some ⟨2⟩⟩, ⟨.identifier "y", some ⟨1⟩⟩]⟩

theorem runStandard_keeps_exempt_calledLogarithm :
    calledLogarithm.check = .ok () ∧
      (runStandard true {} calledLogarithm .fresh).tree.Reaches root ⟨3⟩ ∧
      (runStandard true {} calledLogarithm .fresh).tree.Reaches root ⟨2⟩ ∧
      ∃ others, (runStandard true {} calledLogarithm .fresh).tree.callHeadedBy? ⟨3⟩ =
        some (⟨2⟩, others) ∧ others.length = 1 := by
  have sound : calledLogarithm.check = .ok () := by decide
  have reached : calledLogarithm.Reaches root ⟨3⟩ :=
    .child (.child (.child .refl (by decide : ⟨1⟩ ∈ _)) (by decide : ⟨2⟩ ∈ _)) (by decide)
  have logarithm : isLogarithmName "log_2" = true := by decide
  obtain ⟨stats, after, _, same, stays, _, calls⟩ :=
    runStandard_keeps_exempt sound reached rfl (.inl logarithm) true .fresh
  obtain ⟨callStays, others, headed, length⟩ := calls ⟨2⟩ [⟨4⟩] (by decide) (.inl logarithm)
  rw [same]
  exact ⟨sound, stays, callStays, others, headed, length⟩

end Normalization

end Juxtaposition
