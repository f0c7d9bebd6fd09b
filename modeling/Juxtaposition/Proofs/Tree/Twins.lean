import Juxtaposition.Proofs.Tree.Calls
import Juxtaposition.Proofs.Tree.Renaming
import Mathlib.Logic.Function.Basic

/-!
# Twin arenas

Two arenas that hold the same nodes at different places. Only some places are paired. The others
may hold anything, so neither the numbering nor the detached nodes of an arena matter. Storing
and replacing at paired places keeps them twins.
-/

set_option autoImplicit false

namespace Juxtaposition

structure Pairing where
  place : NodeId → NodeId
  known : NodeId → Prop

namespace Pairing

def Extends (pairing later : Pairing) : Prop :=
  ∀ id, pairing.known id → later.known id ∧ later.place id = pairing.place id

def insert (pairing : Pairing) (id twin : NodeId) : Pairing :=
  ⟨Function.update pairing.place id twin, fun other => pairing.known other ∨ other = id⟩

variable {pairing middle later : Pairing}

theorem Extends.refl (pairing : Pairing) : pairing.Extends pairing :=
  fun _ knows => ⟨knows, rfl⟩

theorem Extends.trans (first : pairing.Extends middle) (second : middle.Extends later) :
    pairing.Extends later := by
  intro id knows
  obtain ⟨middleKnows, place⟩ := first id knows
  obtain ⟨laterKnows, again⟩ := second id middleKnows
  exact ⟨laterKnows, again.trans place⟩

theorem insert_place (pairing : Pairing) (id twin : NodeId) :
    (pairing.insert id twin).place id = twin :=
  Function.update_self _ _ _

theorem Extends.rename_eq (widens : pairing.Extends later) {node : Node}
    (knows : ∀ child ∈ node.children, pairing.known child) :
    node.rename later.place = node.rename pairing.place :=
  Node.rename_congr fun child member => (widens child (knows child member)).2

theorem Extends.map_eq (widens : pairing.Extends later) {ids : List NodeId}
    (knows : ∀ id ∈ ids, pairing.known id) :
    ids.map later.place = ids.map pairing.place :=
  List.map_congr_left fun id member => (widens id (knows id member)).2

end Pairing

namespace Tree

/-- What holds of paired places: their nodes and their holders correspond. Everything that a
known node refers to is known. -/
structure Twins (tree : Tree) (pairing : Pairing) (other : Tree) : Prop where
  rooted : pairing.known root ∧ pairing.place root = root
  inside : ∀ id, pairing.known id →
    id.index < tree.size ∧ (pairing.place id).index < other.size
  injective : ∀ id next, pairing.known id → pairing.known next →
    pairing.place id = pairing.place next → id = next
  node : ∀ id, pairing.known id →
    other.node (pairing.place id) = (tree.node id).rename pairing.place
  parent : ∀ id, pairing.known id →
    other.parent (pairing.place id) = (tree.parent id).map pairing.place
  child : ∀ id child, pairing.known id → child ∈ tree.children id → pairing.known child
  holder : ∀ id holder, pairing.known id → tree.parent id = some holder → pairing.known holder

namespace Twins

variable {tree other edited changed : Tree} {pairing : Pairing} {id next : NodeId}

theorem place_eq_iff (twins : tree.Twins pairing other) (knows : pairing.known id)
    (knowsNext : pairing.known next) : pairing.place id = pairing.place next ↔ id = next :=
  ⟨twins.injective id next knows knowsNext, congrArg _⟩

theorem mem_map_place_iff (twins : tree.Twins pairing other) (knows : pairing.known id)
    {ids : List NodeId} (knowsAll : ∀ next ∈ ids, pairing.known next) :
    pairing.place id ∈ ids.map pairing.place ↔ id ∈ ids := by
  refine ⟨fun member => ?_, List.mem_map_of_mem⟩
  obtain ⟨next, inside, same⟩ := List.mem_map.mp member
  rwa [← twins.injective next id (knowsAll next inside) knows same]

theorem known_of_reaches (twins : tree.Twins pairing other) (knows : pairing.known id)
    (reaches : tree.Reaches id next) : pairing.known next := by
  induction reaches with
  | refl => exact knows
  | child _ step ih => exact twins.child _ _ ih step

theorem children_place (twins : tree.Twins pairing other) (knows : pairing.known id) :
    other.children (pairing.place id) = (tree.children id).map pairing.place := by
  rw [children, twins.node id knows, Node.children_rename, children]

/-! ## Calls and names -/

theorem name?_place (twins : tree.Twins pairing other) (knows : pairing.known id) :
    other.name? (pairing.place id) = tree.name? id := by
  rw [name?, twins.node id knows, Node.name?_rename, name?]

theorem callAt?_place (twins : tree.Twins pairing other) (knows : pairing.known id) :
    other.callAt? (pairing.place id) =
      (tree.callAt? id).map (Prod.map pairing.place (List.map pairing.place)) := by
  unfold callAt?
  rw [twins.node id knows]
  cases tree.node id <;> rfl

theorem known_of_call (twins : tree.Twins pairing other) (knows : pairing.known id)
    {callee : NodeId} {arguments : List NodeId} (call : tree.callAt? id = some (callee, arguments)) :
    pairing.known callee := by
  refine twins.child id callee knows ?_
  rw [children, callAt?_eq_some_iff.mp call]
  exact List.mem_cons_self

theorem callHeadedBy?_place (twins : tree.Twins pairing other) (knows : pairing.known id) :
    other.callHeadedBy? (pairing.place id) =
      (tree.callHeadedBy? id).map (Prod.map pairing.place (List.map pairing.place)) := by
  unfold callHeadedBy?
  rw [twins.parent id knows]
  cases link : tree.parent id with
  | none => rfl
  | some holder =>
      have knowsHolder := twins.holder id holder knows link
      dsimp only [Option.map_some]
      rw [twins.callAt?_place knowsHolder]
      cases call : tree.callAt? holder with
      | none => rfl
      | some parts =>
          obtain ⟨callee, arguments⟩ := parts
          have knowsCallee := twins.known_of_call knowsHolder call
          simp only [Option.map_some, Prod.map, twins.place_eq_iff knowsCallee knows]
          split <;> rfl

theorem isCallee_place (twins : tree.Twins pairing other) (knows : pairing.known id) :
    other.isCallee (pairing.place id) = tree.isCallee id := by
  rw [isCallee, twins.callHeadedBy?_place knows, Option.isSome_map, isCallee]

/-! ## A stored node -/

section Store

variable {node : Node}

private theorem ne_next (twins : tree.Twins pairing other) (knows : pairing.known id) :
    id ≠ tree.next ∧ pairing.place id ≠ other.next := by
  obtain ⟨inTree, inOther⟩ := twins.inside id knows
  refine ⟨?_, fun same => ?_⟩
  · rintro rfl
    exact Nat.lt_irrefl _ inTree
  · rw [same] at inOther
    exact Nat.lt_irrefl _ inOther

theorem extends_insert (twins : tree.Twins pairing other) (twin : NodeId) :
    pairing.Extends (pairing.insert tree.next twin) :=
  fun _ knows => ⟨.inl knows, Function.update_of_ne (twins.ne_next knows).1 _ _⟩

/-- A new node adopts paired children, and every other paired node keeps its holder. -/
private theorem parent_store_place (twins : tree.Twins pairing other)
    (knows : ∀ child ∈ node.children, pairing.known child) (known : pairing.known id) :
    (other.store (node.rename pairing.place)).2.parent (pairing.place id) =
      ((tree.store node).2.parent id).map (pairing.insert tree.next other.next).place := by
  have adopts : pairing.place id ∈ (node.rename pairing.place).children ↔ id ∈ node.children := by
    rw [Node.children_rename, twins.mem_map_place_iff known knows]
  rw [parent_store, parent_store]
  simp only [adopts, twins.inside id known, and_true]
  split
  · rw [Option.map_some, Pairing.insert_place]
  · rw [twins.parent id known]
    refine Option.map_congr fun holder link => ?_
    exact (twins.extends_insert other.next holder (twins.holder id holder known link)).2.symm

theorem store (twins : tree.Twins pairing other)
    (knows : ∀ child ∈ node.children, pairing.known child) :
    (tree.store node).2.Twins (pairing.insert tree.next other.next)
      (other.store (node.rename pairing.place)).2 := by
  have kept := twins.extends_insert other.next
  have new := pairing.insert_place tree.next other.next
  constructor
  case rooted =>
    obtain ⟨known, place⟩ := kept Tree.root twins.rooted.1
    exact ⟨known, place.trans twins.rooted.2⟩
  case inside =>
    rintro id (known | rfl)
    · obtain ⟨inTree, inOther⟩ := twins.inside id known
      rw [(kept id known).2, size_store, size_store]
      exact ⟨Nat.lt_succ_of_lt inTree, Nat.lt_succ_of_lt inOther⟩
    · rw [new, size_store, size_store]
      exact ⟨Nat.lt_succ_self _, Nat.lt_succ_self _⟩
  case injective =>
    rintro id next (known | rfl) (knownNext | rfl) same
    · rw [(kept id known).2, (kept next knownNext).2] at same
      exact twins.injective id next known knownNext same
    · rw [(kept id known).2, new] at same
      exact absurd same (twins.ne_next known).2
    · rw [(kept next knownNext).2, new] at same
      exact absurd same.symm (twins.ne_next knownNext).2
    · rfl
  case node =>
    rintro id (known | rfl)
    · obtain ⟨notNext, twinNotNext⟩ := twins.ne_next known
      rw [(kept id known).2, node_store, node_store, if_neg notNext, if_neg twinNotNext,
        kept.rename_eq fun child => twins.child id child known, twins.node id known]
    · rw [new, node_store, node_store, if_pos rfl, if_pos rfl, kept.rename_eq knows]
  case parent =>
    rintro id (known | rfl)
    · rw [(kept id known).2]
      exact twins.parent_store_place knows known
    · rw [new, parent_store_next, parent_store_next]
      rfl
  case child =>
    rintro id child (known | rfl) member
    · rw [children, node_store, if_neg (twins.ne_next known).1] at member
      exact .inl (twins.child id child known member)
    · rw [children, node_store, if_pos rfl] at member
      exact .inl (knows child member)
  case holder =>
    rintro id holder (known | rfl) link
    · rw [parent_store] at link
      split at link
      · exact .inr (Option.some.inj link).symm
      · exact .inl (twins.holder id holder known link)
    · rw [parent_store_next] at link
      cases link

end Store

/-! ## A replaced node -/

section Replace

variable {old replacement holder : NodeId}

/-- A replacement that was carried out at paired places of both arenas had the same holder. -/
private theorem replaced (twins : tree.Twins pairing other) (knowsOld : pairing.known old)
    (knows : pairing.known replacement)
    (replaced : tree.Replaced edited old replacement holder)
    (again : other.Replaced changed (pairing.place old) (pairing.place replacement)
      (pairing.place holder)) : edited.Twins pairing changed := by
  have knowsHolder := twins.holder old holder knowsOld replaced.held
  obtain ⟨repointed, repoint, nodes⟩ := replaced.node
  obtain ⟨twin, twinRepoint, twinNodes⟩ := again.node
  obtain rfl : twin = repointed.rename pairing.place := by
    have commuted : ((tree.node holder).rename pairing.place).repoint? (pairing.place old)
        (pairing.place replacement) = _ :=
      Node.repoint?_rename replacement fun child member =>
        twins.injective child old (twins.child holder child knowsHolder member) knowsOld
    rw [← twins.node holder knowsHolder, twinRepoint, repoint] at commuted
    exact Option.some.inj commuted
  constructor
  case rooted => exact twins.rooted
  case inside =>
    intro id known
    rw [replaced.size, again.size]
    exact twins.inside id known
  case injective => exact twins.injective
  case node =>
    intro id known
    rw [nodes, twinNodes]
    simp only [twins.place_eq_iff known knowsHolder]
    split
    · rfl
    · exact twins.node id known
  case parent =>
    intro id known
    rw [replaced.parent, again.parent]
    simp only [twins.place_eq_iff known knowsOld, twins.place_eq_iff known knows]
    split
    · rfl
    · split
      · rfl
      · exact twins.parent id known
  case child =>
    intro id child known member
    rcases replaced.mem_children_cases member with rfl | older
    · exact knows
    · exact twins.child id child known older
  case holder =>
    intro id outer known link
    rw [replaced.parent] at link
    split at link
    · cases link
    · split at link
      · exact Option.some.inj link ▸ knowsHolder
      · exact twins.holder id outer known link

theorem replace (twins : tree.Twins pairing other) (knowsOld : pairing.known old)
    (knows : pairing.known replacement) (result : tree.replace old replacement = .ok edited)
    (again : other.replace (pairing.place old) (pairing.place replacement) = .ok changed) :
    edited.Twins pairing changed := by
  obtain ⟨inTree, inOther⟩ := twins.inside replacement knows
  rcases replace_eq_ok_cases inTree result with ⟨rfl, rfl⟩ | ⟨holder, replaced⟩
  · rw [Tree.replace, if_pos rfl, Except.ok.injEq] at again
    exact again ▸ twins
  · rcases replace_eq_ok_cases inOther again with ⟨same, _⟩ | ⟨twin, twinReplaced⟩
    · obtain rfl := twins.injective old replacement knowsOld knows same
      have held := replaced.held
      rw [replaced.detached] at held
      cases held
    · have held := twinReplaced.held
      rw [twins.parent old knowsOld, replaced.held, Option.map_some, Option.some.injEq] at held
      subst held
      exact twins.replaced knowsOld knows replaced twinReplaced

end Replace

end Twins

end Tree

end Juxtaposition
