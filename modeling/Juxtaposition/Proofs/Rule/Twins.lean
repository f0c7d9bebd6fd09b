import Juxtaposition.Proofs.Rule.Reading
import Juxtaposition.Proofs.Rule.Verdict
import Juxtaposition.Proofs.Tree.Twins

/-!
# Rules on twin arenas

At paired nodes of twin arenas the rules say the same, about the paired places. Storing what they
propose in both arenas pairs the new nodes.
-/

set_option autoImplicit false

namespace Juxtaposition

namespace Draft

def rename (place : NodeId → NodeId) : Draft → Draft
  | kept id => kept (place id)
  | identifier name => identifier name
  | integer value => integer value
  | float value => float value
  | call name arguments => call name (arguments.map place)
  | group items => group (items.map place)
  | operation operator lhs rhs => operation operator (lhs.rename place) (rhs.rename place)
  | factor first rest => factor (first.rename place) (rest.rename place)

variable {place other : NodeId → NodeId} {draft : Draft}

theorem rename_congr (same : ∀ id ∈ draft.keeps, place id = other id) :
    draft.rename place = draft.rename other := by
  induction draft with
  | kept id => exact congrArg kept (same id List.mem_cons_self)
  | identifier name => rfl
  | integer value => rfl
  | float value => rfl
  | call name arguments => exact congrArg (call name) (List.map_congr_left same)
  | group items => exact congrArg group (List.map_congr_left same)
  | operation operator lhs rhs left right =>
      rw [rename, rename, left fun id member => same id (List.mem_append_left _ member),
        right fun id member => same id (List.mem_append_right _ member)]
  | factor first rest left right =>
      rw [rename, rename, left fun id member => same id (List.mem_append_left _ member),
        right fun id member => same id (List.mem_append_right _ member)]

theorem rename_id (draft : Draft) : draft.rename (fun id => id) = draft := by
  induction draft with
  | operation operator lhs rhs left right => rw [rename, left, right]
  | factor first rest left right => rw [rename, left, right]
  | call name arguments => exact congrArg (call name) (List.map_id' arguments)
  | group items => exact congrArg group (List.map_id' items)
  | _ => rfl

theorem rename_of_keeps_eq_nil (nothing : draft.keeps = []) : draft.rename place = draft := by
  refine (rename_congr fun id member => ?_).trans draft.rename_id
  rw [nothing] at member
  cases member

end Draft

/-! ## Storing -/

namespace Tree

structure StoresPair (pairing later : Pairing) (stored again : NodeId × Tree) : Prop where
  widens : pairing.Extends later
  twins : stored.2.Twins later again.2
  known : later.known stored.1
  place : later.place stored.1 = again.1

variable {tree other : Tree} {pairing later : Pairing}

theorem Twins.storesPair (twins : tree.Twins pairing other) (node : Node)
    (knows : ∀ child ∈ node.children, pairing.known child) :
    StoresPair pairing (pairing.insert tree.next other.next) (tree.store node)
      (other.store (node.rename pairing.place)) :=
  ⟨twins.extends_insert other.next, twins.store knows, .inr rfl, pairing.insert_place _ _⟩

/-- Storing on top of what was stored before. -/
theorem StoresPair.store {stored again : NodeId × Tree}
    (pair : StoresPair pairing later stored again) (node : Node) {twin : Node}
    (knows : ∀ child ∈ node.children, later.known child) (same : node.rename later.place = twin) :
    ∃ last, StoresPair pairing last (stored.2.store node) (again.2.store twin) := by
  subst same
  have next := pair.twins.storesPair node knows
  exact ⟨_, pair.widens.trans next.widens, next.twins, next.known, next.place⟩

theorem Twins.storesPair_leaf (twins : tree.Twins pairing other) (node : Node)
    (leaf : node.children = []) (same : node.rename pairing.place = node) :
    ∃ later, StoresPair pairing later (tree.store node) (other.store node) := by
  have pair := twins.storesPair node fun child member => by
    rw [leaf] at member
    cases member
  rw [same] at pair
  exact ⟨_, pair⟩

end Tree

namespace Draft

variable {tree other : Tree} {pairing : Pairing} {draft : Draft}

private theorem storesPair_both {first second : Draft} {middle : Pairing}
    (knows : ∀ id ∈ second.keeps, pairing.known id)
    (pair : Tree.StoresPair pairing middle (first.store tree)
      ((first.rename pairing.place).store other))
    (ih : ∀ {tree other : Tree} {pairing : Pairing}, tree.Twins pairing other →
      (∀ id ∈ second.keeps, pairing.known id) →
      ∃ later, Tree.StoresPair pairing later (second.store tree)
        ((second.rename pairing.place).store other)) :
    ∃ later, Tree.StoresPair pairing later (second.store (first.store tree).2)
        ((second.rename pairing.place).store ((first.rename pairing.place).store other).2) ∧
      later.known (first.store tree).1 ∧
      later.place (first.store tree).1 = ((first.rename pairing.place).store other).1 := by
  obtain ⟨later, next⟩ := ih pair.twins fun id member => (pair.widens id (knows id member)).1
  rw [rename_congr fun id member => (pair.widens id (knows id member)).2] at next
  obtain ⟨known, place⟩ := next.widens _ pair.known
  exact ⟨later, ⟨pair.widens.trans next.widens, next.twins, next.known, next.place⟩, known,
    place.trans pair.place⟩

theorem storesPair (twins : tree.Twins pairing other)
    (knows : ∀ id ∈ draft.keeps, pairing.known id) :
    ∃ later, Tree.StoresPair pairing later (draft.store tree)
      ((draft.rename pairing.place).store other) := by
  induction draft generalizing tree other pairing with
  | kept id => exact ⟨pairing, .refl pairing, twins, knows id List.mem_cons_self, rfl⟩
  | identifier name => exact twins.storesPair_leaf _ rfl rfl
  | integer value => exact twins.storesPair_leaf _ rfl rfl
  | float value => exact twins.storesPair_leaf _ rfl rfl
  | group items => exact ⟨_, twins.storesPair (.group items) knows⟩
  | call name arguments =>
      obtain ⟨later, callee⟩ :=
        twins.storesPair_leaf (.identifier name) rfl rfl
      refine callee.store (.call _ arguments) ?_ ?_
      · intro child member
        rcases List.mem_cons.mp member with rfl | argument
        · exact callee.known
        · exact (callee.widens child (knows child argument)).1
      · have place : later.place tree.next = other.next := callee.place
        exact congrArg₂ Node.call place (callee.widens.map_eq knows)
  | operation operator lhs rhs left right =>
      obtain ⟨middle, pair⟩ := left twins fun id member => knows id (List.mem_append_left _ member)
      obtain ⟨later, both, known, place⟩ :=
        storesPair_both (fun id member => knows id (List.mem_append_right _ member)) pair right
      refine both.store (.operation operator _ _ .missing) ?_ ?_
      · simp [Node.children, known, both.known]
      · rw [Node.rename, place, both.place]
  | factor first rest left right =>
      obtain ⟨middle, pair⟩ := right twins fun id member => knows id (List.mem_append_right _ member)
      obtain ⟨later, both, known, place⟩ :=
        storesPair_both (fun id member => knows id (List.mem_append_left _ member)) pair left
      refine both.store (.product _ _) ?_ ?_
      · simp [Node.product, Node.children, known, both.known]
      · rw [Node.product, Node.rename, place, both.place]
        rfl

end Draft

/-! ## Proposals -/

def Proposal.rename (place : NodeId → NodeId) (proposal : Proposal) : Proposal :=
  ⟨place proposal.target, proposal.draft.rename place, proposal.description⟩

def Detection.rename (place : NodeId → NodeId) (found : Detection) : Detection :=
  found.map (Option.map (Proposal.rename place))

namespace NamePiece

theorem rename_draftWith (place : NodeId → NodeId) (arguments : Option (List NodeId))
    (piece : NamePiece) :
    (piece.draftWith arguments).rename place =
      piece.draftWith (arguments.map (List.map place)) := by
  cases arguments <;> cases piece <;> rfl

theorem rename_chain (place : NodeId → NodeId) (arguments : Option (List NodeId))
    (piece : NamePiece) (rest : List NamePiece) :
    (chain arguments piece rest).rename place =
      chain (arguments.map (List.map place)) piece rest := by
  induction rest generalizing piece with
  | nil => exact rename_draftWith place arguments piece
  | cons following rest ih =>
      have first : piece.draft.rename place = piece.draft := rename_draftWith place none piece
      rw [chain, Draft.rename, first, ih, chain]

end NamePiece

namespace Verdict

def rename (place : NodeId → NodeId) : Verdict → Verdict
  | declined => declined
  | oversized rule number => oversized rule number
  | proposed rule proposal => proposed rule (proposal.rename place)

theorem rename_after (place : NodeId → NodeId) (rule : String) (found : Detection)
    (later : Verdict) :
    (later.after rule found).rename place =
      (later.rename place).after rule (found.rename place) := by
  rcases found with number | _ | proposal <;> rfl

end Verdict

namespace Tree.Twins

variable {tree other : Tree} {pairing : Pairing} {id target : NodeId} {options : Options}

/-! ## Detectors -/

private theorem detectCallOfCall_place (twins : tree.Twins pairing other)
    (knows : pairing.known id) :
    Rule.detectCallOfCall options other (pairing.place id) =
      (Rule.detectCallOfCall options tree id).rename pairing.place := by
  unfold Rule.detectCallOfCall
  rw [twins.callAt?_place knows]
  cases call : tree.callAt? id with
  | none => rfl
  | some parts =>
      obtain ⟨callee, arguments⟩ := parts
      have kind : (other.node (pairing.place callee)).isCallOrGroup =
          (tree.node callee).isCallOrGroup := by
        rw [twins.node callee (twins.known_of_call knows call)]
        cases tree.node callee <;> rfl
      simp only [Option.map_some, Prod.map, kind]
      split <;> rfl

private theorem detectFunctionNameShape_place (twins : tree.Twins pairing other)
    (knows : pairing.known id) :
    Rule.detectFunctionNameShape options other (pairing.place id) =
      (Rule.detectFunctionNameShape options tree id).rename pairing.place := by
  unfold Rule.detectFunctionNameShape
  rw [twins.callAt?_place knows]
  cases call : tree.callAt? id with
  | none => rfl
  | some parts =>
      obtain ⟨callee, arguments⟩ := parts
      simp only [Option.map_some, Prod.map, twins.name?_place (twins.known_of_call knows call)]
      cases tree.name? callee with
      | none => rfl
      | some name =>
          simp only [bind, Option.bind]
          cases options.nonFunction? name <;> rfl

private theorem detectName_place (twins : tree.Twins pairing other) (knows : pairing.known id)
    {split : Options → Tree → NodeId → String → Detection}
    (splits : ∀ name, split options other (pairing.place id) name =
      (split options tree id name).rename pairing.place) :
    Rule.detectName split options other (pairing.place id) =
      (Rule.detectName split options tree id).rename pairing.place := by
  unfold Rule.detectName Options.exempts
  rw [twins.name?_place knows, twins.isCallee_place knows]
  cases tree.name? id with
  | none => rfl
  | some name =>
      dsimp only
      rw [splits]
      split <;> rfl

private theorem forName_place (twins : tree.Twins pairing other) (knows : pairing.known id)
    {draft : Option (List NodeId) → Draft} (description : String)
    (moves : ∀ arguments, (draft arguments).rename pairing.place =
      draft (arguments.map (List.map pairing.place))) :
    Proposal.forName other (pairing.place id) draft description =
      (Proposal.forName tree id draft description).rename pairing.place := by
  unfold Proposal.forName
  rw [twins.callHeadedBy?_place knows]
  cases tree.callHeadedBy? id with
  | none => exact congrArg (Proposal.mk _ · _) (moves none).symm
  | some parts => exact congrArg (Proposal.mk _ · _) (moves (some parts.2)).symm

private theorem splitLetterDigit_place (twins : tree.Twins pairing other)
    (knows : pairing.known id) (name : String) :
    Rule.splitLetterDigit options other (pairing.place id) name =
      (Rule.splitLetterDigit options tree id name).rename pairing.place := by
  unfold Rule.splitLetterDigit
  rw [twins.isCallee_place knows]
  split
  · rfl
  · cases Text.letterDigit? name.toList <;> rfl

private theorem splitDigitRuns_place (twins : tree.Twins pairing other)
    (knows : pairing.known id) (name : String) :
    Rule.splitDigitRuns options other (pairing.place id) name =
      (Rule.splitDigitRuns options tree id name).rename pairing.place := by
  unfold Rule.splitDigitRuns
  rcases Text.pieces name with _ | ⟨first, _ | ⟨second, texts⟩⟩
  · rfl
  · rfl
  · dsimp only
    rcases (first :: second :: texts).mapM NamePiece.ofText with number | _ | ⟨piece, rest⟩
    · rfl
    · rfl
    · simp only [bind, Except.bind, pure, Except.pure, twins.forName_place knows _
        fun arguments => NamePiece.rename_chain pairing.place arguments piece rest]
      rfl

private theorem splitTrailingDigits_place (twins : tree.Twins pairing other)
    (knows : pairing.known id) (name : String) :
    Rule.splitTrailingDigits options other (pairing.place id) name =
      (Rule.splitTrailingDigits options tree id name).rename pairing.place := by
  unfold Rule.splitTrailingDigits
  obtain ⟨letters, digits⟩ := Text.splitAtDigit name
  dsimp only
  split
  · rfl
  · cases Text.readInteger digits with
    | error number => rfl
    | ok value =>
        have moves (arguments : Option (List NodeId)) :
            (Draft.product (.identifier letters)
              ((NamePiece.number value).draftWith arguments)).rename pairing.place =
            .product (.identifier letters)
              ((NamePiece.number value).draftWith (arguments.map (List.map pairing.place))) := by
          rw [Draft.rename, Draft.rename, NamePiece.rename_draftWith]
        simp only [bind, Except.bind, twins.forName_place knows _ moves]
        rfl

private theorem detectExponentLiteral_place (twins : tree.Twins pairing other)
    (knows : pairing.known id) :
    Rule.detectExponentLiteral options other (pairing.place id) =
      (Rule.detectExponentLiteral options tree id).rename pairing.place := by
  unfold Rule.detectExponentLiteral
  rw [twins.node id knows]
  split
  · rfl
  · rcases tree.node id with _ | _ | _ | ⟨value, _ | text⟩ | _ | _ | _ | _
    case float.some =>
      simp only [Node.rename]
      cases ExponentLiteral.ofText? text with
      | none => rfl
      | some literal =>
          dsimp only
          cases drafted : literal.draft with
          | error number => rfl
          | ok draft =>
              have same : draft.rename pairing.place = draft :=
                Draft.rename_of_keeps_eq_nil (ExponentLiteral.draft_new drafted).2
              exact congrArg (fun draft => Except.ok (some (Proposal.mk _ draft _))) same.symm
    all_goals rfl

/-- The rules say the same at paired nodes. -/
theorem verdict_place (twins : tree.Twins pairing other) (knows : pairing.known id) :
    other.verdict options (pairing.place id) =
      (tree.verdict options id).rename pairing.place := by
  rw [verdict_eq, verdict_eq]
  simp only [Verdict.rename_after, ← twins.detectCallOfCall_place knows,
    ← twins.detectFunctionNameShape_place knows, ← twins.detectExponentLiteral_place knows,
    ← twins.detectName_place knows fun name => twins.splitLetterDigit_place knows name,
    ← twins.detectName_place knows fun name => twins.splitDigitRuns_place knows name,
    ← twins.detectName_place knows fun name => twins.splitTrailingDigits_place knows name]
  rfl

/-! ## What proposals refer to -/

private theorem known_spot (twins : tree.Twins pairing other) (knows : pairing.known id) :
    pairing.known (tree.spot id).1 ∧
      ∀ argument ∈ (tree.spot id).2.getD [], pairing.known argument := by
  unfold spot
  cases headed : tree.callHeadedBy? id with
  | none => exact ⟨knows, nofun⟩
  | some parts =>
      obtain ⟨link, call⟩ := callHeadedBy?_eq_some_iff.mp headed
      have knowsCall := twins.holder id parts.1 knows link
      refine ⟨knowsCall, fun argument member => twins.child parts.1 argument knowsCall ?_⟩
      rw [children, call]
      exact List.mem_cons_of_mem _ member

/-- A proposal is about known nodes. -/
theorem known_of_proposed (twins : tree.Twins pairing other) (knows : pairing.known id)
    {draft : Draft} (proposed : (tree.verdict options id).gist = .ok (some (target, draft))) :
    pairing.known target ∧ ∀ kept ∈ draft.keeps, pairing.known kept := by
  rcases tree.gist_verdict_cases options id with
    ⟨name, named⟩ | ⟨callee, arguments, call⟩ | ⟨value, literal, float⟩ | declined
  · obtain ⟨knowsTarget, knowsArguments⟩ := twins.known_spot knows
    rw [gist_verdict_name named] at proposed
    cases split : options.split (tree.isCallee id) name with
    | whole => rw [split] at proposed; cases proposed
    | oversized number => rw [split] at proposed; cases proposed
    | pieces first second rest =>
        rw [split] at proposed
        cases proposed
        rw [NamePiece.keeps_chain]
        exact ⟨knowsTarget, knowsArguments⟩
    | trailing letters value =>
        rw [split] at proposed
        cases proposed
        rw [Draft.keeps, Draft.keeps, NamePiece.keeps_draftWith]
        exact ⟨knowsTarget, knowsArguments⟩
  · rcases gist_verdict_call_cases options call with silent | product
    · rw [silent] at proposed
      cases proposed
    · rw [product] at proposed
      cases proposed
      refine ⟨knows, fun kept member => twins.child _ kept knows ?_⟩
      rw [children, call]
      exact member
  · rw [gist_verdict_float float] at proposed
    rcases literalGist_cases options id literal with ⟨silent, _⟩ | ⟨_, parts, _, _, _, judged⟩
    · rw [silent] at proposed
      cases proposed
    · rw [judged] at proposed
      cases drafted : parts.draft with
      | error number => rw [drafted] at proposed; cases proposed
      | ok built =>
          rw [drafted] at proposed
          cases proposed
          rw [(ExponentLiteral.draft_new drafted).2]
          exact ⟨knows, fun kept member => absurd member List.not_mem_nil⟩
  · rw [declined] at proposed
    cases proposed

end Tree.Twins

end Juxtaposition
