import Juxtaposition.Proofs.Tree.Coherent
import Juxtaposition.Tree.Reading

/-!
# Circles of child links

A replacement looks for circles along parent links, while every reading of a tree follows
child links. The two disagree below a node that an older holder still lists. A circle closes
exactly when the holder of the replaced node lies below the replacement, and the look along
parent links prevents this for a replacement whose nodes all point back at their holders.
-/

set_option autoImplicit false

namespace Juxtaposition.Tree

def Below (tree : Tree) (id descendant : NodeId) : Prop :=
  ∃ child ∈ tree.children id, tree.Reaches child descendant

def Acyclic (tree : Tree) : Prop :=
  ∀ id, ¬ tree.Below id id

/-- Everything below a node points back at the node that holds it. -/
def Faithful (tree : Tree) (top : NodeId) : Prop :=
  ∀ holder, tree.Reaches top holder → ∀ child ∈ tree.children holder,
    tree.parent child = some holder

/-- The replacement is carried out, although the holder of `old` lies below it. -/
def ClosesAt (tree : Tree) (old replacement : NodeId) : Prop :=
  old ≠ replacement ∧ ∃ edited holder, tree.replace old replacement = .ok edited ∧
    tree.parent old = some holder ∧ tree.Reaches replacement holder

def Closes (tree : Tree) : Command → Prop
  | .store _ => False
  | .replace old replacement => tree.ClosesAt old replacement
  | .replaceBody body => ∃ current, tree.body? = some current ∧ tree.ClosesAt current body

def PutsFaithful (tree : Tree) : Command → Prop
  | .store _ => True
  | .replace _ replacement => tree.Faithful replacement
  | .replaceBody body => tree.Faithful body

variable {tree edited : Tree} {old replacement holder start id : NodeId}

theorem faithful_of_closed {top : NodeId} (ids : List NodeId) (member : top ∈ ids)
    (closed : ∀ holder ∈ ids, ∀ child ∈ tree.children holder,
      child ∈ ids ∧ tree.parent child = some holder) : tree.Faithful top := by
  intro holder reached
  have inside : holder ∈ ids := by
    induction reached with
    | refl => exact member
    | child _ step ih => exact (closed _ ih _ step).1
  exact fun child step => (closed holder inside child step).2

/-! ## Replaced nodes -/

namespace Replaced

private theorem mem_children_edited_cases
    (replaced : tree.Replaced edited old replacement holder) {child : NodeId}
    (member : child ∈ edited.children id) :
    child ∈ tree.children id ∨ id = holder ∧ child = replacement := by
  rcases replaced.mem_children_cases member with rfl | known
  · by_cases same : id = holder
    · exact .inr ⟨same, rfl⟩
    · rw [replaced.children_of_ne same] at member
      exact .inl member
  · exact .inl known

/-- A path in the edited arena is an old one, or it comes through the new link. -/
private theorem reaches_cases (replaced : tree.Replaced edited old replacement holder)
    (reached : edited.Reaches start id) :
    tree.Reaches start id ∨ tree.Reaches start holder ∧ tree.Reaches replacement id := by
  induction reached with
  | refl => exact .inl .refl
  | child _ step ih =>
      rcases replaced.mem_children_edited_cases step with known | ⟨rfl, rfl⟩
      · rcases ih with direct | ⟨first, second⟩
        · exact .inl (.child direct known)
        · exact .inr ⟨first, .child second known⟩
      · rcases ih with direct | ⟨first, _⟩
        · exact .inr ⟨direct, .refl⟩
        · exact .inr ⟨first, .refl⟩

/-- The slots of the holder are the only ones that change, so a path to it stays. -/
private theorem reaches_holder (replaced : tree.Replaced edited old replacement holder)
    (reached : tree.Reaches start holder) : edited.Reaches start holder := by
  have early (id : NodeId) (path : tree.Reaches start id) :
      edited.Reaches start id ∨ edited.Reaches start holder := by
    induction path with
    | refl => exact .inl .refl
    | @child outer id _ step ih =>
        rcases ih with direct | done
        · by_cases same : outer = holder
          · exact .inr (same ▸ direct)
          · rw [← replaced.children_of_ne same] at step
            exact .inl (.child direct step)
        · exact .inr done
  rcases early holder reached with done | done
  · exact done
  · exact done

/-- A replacement closes a circle exactly if the holder lies below what is put in. -/
theorem acyclic_iff (replaced : tree.Replaced edited old replacement holder)
    (acyclic : tree.Acyclic) : edited.Acyclic ↔ ¬ tree.Reaches replacement holder := by
  constructor
  · intro open_ reached
    exact open_ holder ⟨replacement, replaced.replacement_mem_children,
      replaced.reaches_holder reached⟩
  · intro apart id circle
    obtain ⟨child, member, path⟩ := circle
    rcases replaced.mem_children_edited_cases member with known | ⟨rfl, rfl⟩
    · rcases replaced.reaches_cases path with direct | ⟨toHolder, fromNew⟩
      · exact acyclic id ⟨child, known, direct⟩
      · exact apart ((Reaches.child fromNew known).trans toHolder)
    · rcases replaced.reaches_cases path with direct | ⟨toHolder, _⟩
      · exact apart direct
      · exact apart toHolder

end Replaced

/-! ## Commands -/

namespace Coherent

private theorem reaches_of_store (coherent : tree.Coherent) {node : Node}
    (known : start.index < tree.size) (path : (tree.store node).2.Reaches start id) :
    tree.Reaches start id ∧ id.index < tree.size := by
  induction path with
  | refl => exact ⟨.refl, known⟩
  | @child outer id _ step ih =>
      obtain ⟨reached, outerInside⟩ := ih
      have older : outer ≠ tree.next := by
        rintro rfl
        exact Nat.lt_irrefl _ outerInside
      rw [children, node_store, if_neg older] at step
      exact ⟨.child reached step, coherent.child_lt outer id step⟩

/-- Nothing holds a new node, so no circle comes through it. -/
theorem acyclic_store (coherent : tree.Coherent) (acyclic : tree.Acyclic) {node : Node}
    (inside : ∀ child ∈ node.children, child.index < tree.size) :
    (tree.store node).2.Acyclic := by
  intro id circle
  obtain ⟨child, member, path⟩ := circle
  rw [children, node_store] at member
  split at member
  · next new =>
    obtain ⟨_, older⟩ := coherent.reaches_of_store (inside child member) path
    rw [new] at older
    exact Nat.lt_irrefl _ older
  · have known := coherent.child_lt id child member
    obtain ⟨reached, _⟩ := coherent.reaches_of_store known path
    exact acyclic id ⟨child, member, reached⟩

private theorem acyclic_replace_iff (acyclic : tree.Acyclic)
    (inside : replacement.index < tree.size) :
    ((tree.replace old replacement).toOption.getD tree).Acyclic ↔
      ¬ tree.ClosesAt old replacement := by
  cases result : tree.replace old replacement with
  | error error =>
      refine ⟨fun _ closes => ?_, fun _ => acyclic⟩
      obtain ⟨_, edited, _, carried, _⟩ := closes
      rw [result] at carried
      cases carried
  | ok edited =>
      rcases replace_eq_ok_cases inside result with ⟨same, rfl⟩ | ⟨holder, replaced⟩
      · exact ⟨fun _ closes => closes.1 same, fun _ => acyclic⟩
      · refine (replaced.acyclic_iff acyclic).trans (not_congr ?_)
        constructor
        · intro reached
          refine ⟨?_, edited, holder, result, replaced.held, reached⟩
          rintro rfl
          have free := replaced.detached
          rw [replaced.held] at free
          cases free
        · rintro ⟨_, _, other, _, link, reached⟩
          rw [replaced.held, Option.some.injEq] at link
          rwa [link]

/-- A command leaves the arena without a circle unless it closes one. -/
theorem acyclic_execute_iff (coherent : tree.Coherent) (acyclic : tree.Acyclic)
    {command : Command} (admitted : tree.Admits command) :
    (tree.execute command).Acyclic ↔ ¬ tree.Closes command := by
  cases command with
  | store node =>
      exact ⟨fun _ closes => closes, fun _ => coherent.acyclic_store acyclic admitted.2⟩
  | replace old replacement => exact acyclic_replace_iff acyclic admitted.2
  | replaceBody body =>
      obtain ⟨current, found⟩ := coherent.exists_body?
      have unfolded : tree.replaceBody body = tree.replace current body := by
        rw [replaceBody, found]
      rw [Tree.execute, unfolded]
      refine (acyclic_replace_iff acyclic admitted).trans (not_congr ?_)
      constructor
      · intro closes
        exact ⟨current, found, closes⟩
      · rintro ⟨other, body, closes⟩
        rw [found, Option.some.injEq] at body
        rwa [body]

/-! ## Faithful subtrees -/

private theorem mem_ascent_of_reaches {top : NodeId} (faithful : tree.Faithful top)
    (reached : tree.Reaches top id) {above : List NodeId} (ascent : tree.Ascends id above) :
    top ∈ above := by
  induction reached generalizing above with
  | refl => cases ascent <;> exact List.mem_cons_self
  | @child holder id outer step ih =>
      have link := faithful holder outer id step
      cases ascent with
      | top free =>
          rw [link] at free
          cases free
      | step found rest =>
          rw [link, Option.some.injEq] at found
          subst found
          exact List.mem_cons_of_mem _ (ih rest)

/-- The look along parent links sees every circle that a faithful subtree would close. -/
theorem not_closesAt_of_faithful (coherent : tree.Coherent)
    (inside : replacement.index < tree.size) (faithful : tree.Faithful replacement) :
    ¬ tree.ClosesAt old replacement := by
  rintro ⟨different, edited, holder, result, link, reached⟩
  rcases replace_eq_ok_cases inside result with ⟨same, _⟩ | ⟨other, replaced⟩
  · exact different same
  · rw [replaced.held, Option.some.injEq] at link
    subst link
    have ascent := coherent.lineage_ascends (coherent.parent_lt old other replaced.held)
    exact replaced.acyclic (mem_ascent_of_reaches faithful reached ascent)

theorem not_closes_of_putsFaithful (coherent : tree.Coherent) {command : Command}
    (admitted : tree.Admits command) (faithful : tree.PutsFaithful command) :
    ¬ tree.Closes command := by
  cases command with
  | store node => exact fun closes => closes
  | replace old replacement => exact coherent.not_closesAt_of_faithful admitted.2 faithful
  | replaceBody body =>
      rintro ⟨current, _, closes⟩
      exact coherent.not_closesAt_of_faithful admitted faithful closes

/-! ## Readings -/

private theorem exists_mapM {read : NodeId → Option Expr} {ids : List NodeId}
    (each : ∀ id ∈ ids, ∃ expr, read id = some expr) : ∃ exprs, ids.mapM read = some exprs := by
  induction ids with
  | nil => exact ⟨[], rfl⟩
  | cons first rest ih =>
      obtain ⟨expr, head⟩ := each first List.mem_cons_self
      obtain ⟨exprs, tail⟩ := ih fun id member => each id (List.mem_cons_of_mem _ member)
      exact ⟨expr :: exprs, by simp [head, tail]⟩

/-- The places on the way down to a node are distinct, so the bound allows for all levels. -/
private theorem exists_exprWithin? (coherent : tree.Coherent) (acyclic : tree.Acyclic)
    {bound : Nat} {path : List NodeId} (inside : id.index < tree.size) (nodup : path.Nodup)
    (above : ∀ other ∈ path, other.index < tree.size ∧ tree.Below other id)
    (enough : tree.size ≤ path.length + bound) :
    ∃ expr, tree.exprWithin? bound id = some expr := by
  have fresh : id ∉ path := fun member => acyclic id (above id member).2
  have longer : (id :: path).Nodup := List.nodup_cons.mpr ⟨fresh, nodup⟩
  induction bound generalizing id path with
  | zero =>
      have few := length_le_size longer fun other member => by
        rcases List.mem_cons.mp member with rfl | earlier
        · exact inside
        · exact (above other earlier).1
      rw [List.length_cons] at few
      omega
  | succ bound ih =>
      have inner (child : NodeId) (member : child ∈ tree.children id) :
          ∃ expr, tree.exprWithin? bound child = some expr := by
        have lower : ∀ other ∈ id :: path, other.index < tree.size ∧ tree.Below other child := by
          intro other here
          rcases List.mem_cons.mp here with rfl | earlier
          · exact ⟨inside, child, member, .refl⟩
          · obtain ⟨known, first, step, reached⟩ := above other earlier
            exact ⟨known, first, step, .child reached member⟩
        have new : child ∉ id :: path := fun here => acyclic child (lower child here).2
        exact ih (coherent.child_lt id child member) longer lower
          (by simp only [List.length_cons]; omega) new (List.nodup_cons.mpr ⟨new, longer⟩)
      rw [exprWithin?]
      unfold children at inner
      cases kind : tree.node id with
      | identifier name => exact ⟨_, rfl⟩
      | integer value => exact ⟨_, rfl⟩
      | float value literal => exact ⟨_, rfl⟩
      | root body =>
          rw [kind] at inner
          exact inner body List.mem_cons_self
      | call callee arguments =>
          rw [kind] at inner
          obtain ⟨head, calleeRead⟩ := inner callee List.mem_cons_self
          obtain ⟨items, itemsRead⟩ := exists_mapM fun item member =>
            inner item (List.mem_cons_of_mem _ member)
          exact ⟨.call head items, by simp [calleeRead, itemsRead]⟩
      | operation operator lhs rhs provenance =>
          rw [kind] at inner
          obtain ⟨left, leftRead⟩ := inner lhs (by simp [Node.children])
          obtain ⟨right, rightRead⟩ := inner rhs (by simp [Node.children])
          exact ⟨.operation operator left right provenance, by simp [leftRead, rightRead]⟩
      | group items =>
          rw [kind] at inner
          have each : ∀ item ∈ items, ∃ expr, tree.exprWithin? bound item = some expr := inner
          obtain ⟨exprs, itemsRead⟩ := exists_mapM each
          exact ⟨.group exprs, by simp [itemsRead]⟩
      | negation operand =>
          rw [kind] at inner
          obtain ⟨expr, operandRead⟩ := inner operand List.mem_cons_self
          exact ⟨.negation expr, by simp [operandRead]⟩

/-- Without a circle every reading comes to its end. -/
theorem exists_expr? (coherent : tree.Coherent) (acyclic : tree.Acyclic)
    (inside : id.index < tree.size) : ∃ expr, tree.expr? id = some expr :=
  coherent.exists_exprWithin? acyclic inside List.nodup_nil nofun (Nat.le_add_left _ _)

end Coherent

/-! ## Histories -/

def executeAll (tree : Tree) (history : List Command) : Tree :=
  history.foldl execute tree

def Throughout (property : Tree → Command → Prop) (tree : Tree) : List Command → Prop
  | [] => True
  | command :: rest => property tree command ∧ Throughout property (tree.execute command) rest

def StaysAcyclic (tree : Tree) (history : List Command) : Prop :=
  ∀ done rest, history = done ++ rest → (tree.executeAll done).Acyclic

theorem staysAcyclic_cons {command : Command} {rest : List Command} :
    tree.StaysAcyclic (command :: rest) ↔
      tree.Acyclic ∧ (tree.execute command).StaysAcyclic rest := by
  constructor
  · intro stays
    refine ⟨stays [] _ rfl, fun done later split => ?_⟩
    exact stays (command :: done) later (congrArg (command :: ·) split)
  · rintro ⟨acyclic, stays⟩ done later split
    cases done with
    | nil => exact acyclic
    | cons first done =>
        obtain ⟨rfl, remaining⟩ := List.cons.inj split
        exact stays done later remaining

namespace Coherent

theorem executeAll (coherent : tree.Coherent) {history : List Command}
    (admitted : tree.Throughout Admits history) : (tree.executeAll history).Coherent := by
  induction history generalizing tree with
  | nil => exact coherent
  | cons command rest ih => exact ih (coherent.execute admitted.1) admitted.2

theorem staysAcyclic_iff (coherent : tree.Coherent) (acyclic : tree.Acyclic)
    {history : List Command} (admitted : tree.Throughout Admits history) :
    tree.StaysAcyclic history ↔
      tree.Throughout (fun tree command => ¬ tree.Closes command) history := by
  induction history generalizing tree with
  | nil =>
      refine ⟨fun _ => trivial, fun _ done rest split => ?_⟩
      obtain ⟨rfl, _⟩ := List.append_eq_nil_iff.mp split.symm
      exact acyclic
  | cons command rest ih =>
      have step := coherent.acyclic_execute_iff acyclic admitted.1
      have later := fun open_ => ih (coherent.execute admitted.1) (step.mpr open_) admitted.2
      rw [staysAcyclic_cons]
      constructor
      · rintro ⟨_, stays⟩
        have open_ := step.mp (stays [] rest rfl)
        exact ⟨open_, (later open_).mp stays⟩
      · rintro ⟨open_, others⟩
        exact ⟨acyclic, (later open_).mpr others⟩

theorem not_closes_throughout (coherent : tree.Coherent) {history : List Command}
    (admitted : tree.Throughout Admits history)
    (faithful : tree.Throughout PutsFaithful history) :
    tree.Throughout (fun tree command => ¬ tree.Closes command) history := by
  induction history generalizing tree with
  | nil => trivial
  | cons command rest ih =>
      exact ⟨coherent.not_closes_of_putsFaithful admitted.1 faithful.1,
        ih (coherent.execute admitted.1) admitted.2 faithful.2⟩

end Coherent

private theorem link_of_empty {child : NodeId} (member : child ∈ empty.children id) :
    id = root ∧ child = ⟨1⟩ := by
  rcases id with ⟨_ | _ | index⟩
  · exact ⟨rfl, List.mem_singleton.mp member⟩
  · cases member
  · rw [children, node_of_size_le empty _ (show 2 ≤ index + 2 by omega)] at member
    cases member

theorem acyclic_empty : empty.Acyclic := by
  rintro id ⟨child, member, path⟩
  obtain ⟨rfl, rfl⟩ := link_of_empty member
  cases path with
  | child _ step => cases (link_of_empty step).2

/-- The arena has no circle on the way exactly if no replacement closes one, which is so if
everything that is put in points back at its holders. Without a circle every node reads as
an expression. -/
theorem history_staysAcyclic_iff {history : List Command}
    (admitted : empty.Throughout Admits history) :
    (empty.StaysAcyclic history ↔
      empty.Throughout (fun tree command => ¬ tree.Closes command) history) ∧
    (empty.Throughout PutsFaithful history → empty.StaysAcyclic history) ∧
    (empty.StaysAcyclic history → ∀ id : NodeId, id.index < (empty.executeAll history).size →
      ∃ expr, (empty.executeAll history).expr? id = some expr) := by
  have exactly := coherent_empty.staysAcyclic_iff acyclic_empty admitted
  refine ⟨exactly, fun faithful => ?_, fun stays id inside => ?_⟩
  · exact exactly.mpr (coherent_empty.not_closes_throughout admitted faithful)
  · have coherent := coherent_empty.executeAll admitted
    exact coherent.exists_expr? (stays history [] (List.append_nil history).symm) inside

/-- A node that is held twice for a while, until its older holder is replaced. -/
def adoption : List Command :=
  [.store (.identifier "z"), .store (.negation ⟨2⟩), .replaceBody ⟨3⟩,
    .store (.group [⟨2⟩]), .replace ⟨3⟩ ⟨4⟩]

private theorem admits_adoption : empty.Throughout Admits adoption :=
  ⟨⟨rfl, by decide⟩, ⟨rfl, by decide⟩, (by decide : 3 < 4), ⟨rfl, by decide⟩,
    ⟨by decide, by decide⟩, trivial⟩

private theorem adoption_faithful : empty.Throughout PutsFaithful adoption :=
  ⟨trivial, trivial, faithful_of_closed [⟨3⟩, ⟨2⟩] (by decide) (by decide), trivial,
    faithful_of_closed [⟨4⟩, ⟨2⟩] (by decide) (by decide), trivial⟩

theorem adoption_staysAcyclic :
    empty.Throughout Admits adoption ∧ empty.StaysAcyclic adoption ∧
      empty.Throughout (fun tree command => ¬ tree.Closes command) adoption ∧
      ∃ expr, (empty.executeAll adoption).expr? root = some expr := by
  obtain ⟨exactly, faithful, reads⟩ := history_staysAcyclic_iff admits_adoption
  have stays := faithful adoption_faithful
  exact ⟨admits_adoption, stays, exactly.mp stays, reads stays root (by decide)⟩

/-- Two holders of one node, the younger one in the tree. -/
def twoHolders : List Command :=
  [.store (.identifier "z"), .store (.negation ⟨2⟩), .store (.negation ⟨3⟩),
    .store (.negation ⟨3⟩), .replaceBody ⟨5⟩]

/-- The tree is valid, and node `4` is put in for the node `2`, although the holder `3` of that
node lies below `4`. Walks from the root then never end. -/
theorem circle_below_older_holder :
    empty.Throughout Admits (twoHolders ++ [.replace ⟨2⟩ ⟨4⟩]) ∧
    (∀ node, Command.store node ∈ twoHolders → root ∉ node.children) ∧
    (empty.executeAll twoHolders).check = .ok () ∧
    ((empty.executeAll twoHolders).replace ⟨2⟩ ⟨4⟩).isOk = true ∧
    (empty.executeAll (twoHolders ++ [.replace ⟨2⟩ ⟨4⟩])).Reaches root ⟨3⟩ ∧
    (empty.executeAll (twoHolders ++ [.replace ⟨2⟩ ⟨4⟩])).Below ⟨3⟩ ⟨3⟩ := by
  refine ⟨?_, ?_, by decide, by decide, ?_, ?_⟩
  · exact ⟨⟨rfl, by decide⟩, ⟨rfl, by decide⟩, ⟨rfl, by decide⟩, ⟨rfl, by decide⟩,
      (by decide : 5 < 6), ⟨by decide, by decide⟩, trivial⟩
  · intro node stored
    simp only [twoHolders, List.mem_cons, Command.store.injEq, reduceCtorEq, or_false,
      List.not_mem_nil] at stored
    rcases stored with rfl | rfl | rfl | rfl <;> decide
  · exact .child (.child .refl (by decide : ⟨5⟩ ∈ _)) (by decide)
  · exact ⟨⟨4⟩, by decide, .child .refl (by decide)⟩

end Juxtaposition.Tree
