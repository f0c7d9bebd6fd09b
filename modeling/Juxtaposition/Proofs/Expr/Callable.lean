import Juxtaposition.Proofs.Expr.Exchange

/-!
# What is called

An expression in which only names, calls and groups are called stays one under all
reductions. An inner call never becomes a product before the call around it.
-/

set_option autoImplicit false

namespace Juxtaposition

namespace Expr

def isCallable (expr : Expr) : Bool :=
  expr.name?.isSome || expr.isCallOrGroup

mutual

def callsCallables : Expr → Bool
  | identifier _ | integer _ | float _ _ => true
  | call callee arguments =>
      callee.isCallable && callee.callsCallables && callsCallablesAll arguments
  | operation _ lhs rhs _ => lhs.callsCallables && rhs.callsCallables
  | group items => callsCallablesAll items
  | negation operand => operand.callsCallables

def callsCallablesAll : List Expr → Bool
  | [] => true
  | expr :: rest => expr.callsCallables && callsCallablesAll rest

end

theorem callsCallablesAll_eq_all (exprs : List Expr) :
    callsCallablesAll exprs = exprs.all callsCallables := by
  induction exprs with
  | nil => rfl
  | cons first rest ih => rw [callsCallablesAll, ih, List.all_cons]

def argumentsCallCallables (arguments : Option (List Expr)) : Bool :=
  callsCallablesAll (arguments.getD [])

theorem callsCallables_product (lhs rhs : Expr) :
    (product lhs rhs).callsCallables = (lhs.callsCallables && rhs.callsCallables) := by
  rw [product, callsCallables]

theorem callsCallables_named (arguments : Option (List Expr)) (name : String) :
    (named arguments name).callsCallables = argumentsCallCallables arguments := by
  cases arguments with
  | none => rw [named, callsCallables]; rfl
  | some arguments => simp [named, callsCallables, isCallable, name?, argumentsCallCallables]

theorem callsCallables_counted (arguments : Option (List Expr)) (value : Int64) :
    (counted arguments value).callsCallables = argumentsCallCallables arguments := by
  cases arguments with
  | none => rw [counted, callsCallables]; rfl
  | some arguments =>
      rw [counted, callsCallables_product, callsCallables, callsCallables, Bool.true_and]
      rfl

theorem callsCallables_pieceExpr (arguments : Option (List Expr)) (piece : NamePiece) :
    (piece.expr arguments).callsCallables = argumentsCallCallables arguments := by
  cases piece with
  | name text => exact callsCallables_named arguments text
  | number value => exact callsCallables_counted arguments value

theorem callsCallables_exprChain (arguments : Option (List Expr)) (piece : NamePiece)
    (rest : List NamePiece) :
    (NamePiece.exprChain arguments piece rest).callsCallables =
      argumentsCallCallables arguments := by
  induction rest generalizing piece with
  | nil => exact callsCallables_pieceExpr arguments piece
  | cons following rest ih =>
      rw [NamePiece.exprChain, callsCallables_product, callsCallables_pieceExpr, ih]
      rfl

theorem Reduces.callsCallables {options : Options} {old new : Expr}
    (reduces : Reduces options old new) (before : old.callsCallables = true) :
    new.callsCallables = true := by
  cases reduces with
  | callOfCall called =>
      rw [Expr.callsCallables, Bool.and_eq_true, Bool.and_eq_true] at before
      rw [callsCallables_product, Expr.callsCallables, before.1.2, before.2]
      rfl
  | nonFunction _ _ =>
      rw [Expr.callsCallables, Bool.and_eq_true] at before
      rw [callsCallables_product, Expr.callsCallables, Expr.callsCallables, before.2]
      rfl
  | pieces _ => rwa [callsCallables_exprChain, ← callsCallables_named]
  | trailing _ =>
      rw [callsCallables_named] at before
      rw [callsCallables_product, callsCallables_counted, before, Expr.callsCallables]
      rfl
  | literal _ _ read =>
      obtain ⟨mantissa, exponent, mantissaRead, shape⟩ := ExponentLiteral.expr_eq_ok read
      have plain : mantissa.callsCallables = true := by
        rcases ExponentLiteral.mantissaExpr_eq_ok mantissaRead with ⟨value, rfl⟩ | ⟨value, rfl⟩
        · rw [Expr.callsCallables]
        · rw [Expr.callsCallables]
      rcases shape with ⟨operator, rfl⟩ | rfl
      · simp [Expr.callsCallables, callsCallables_product, plain]
      · simp [Expr.callsCallables, callsCallables_product, plain]

theorem Exchanges.callsCallables {old new expr expr' : Expr}
    (exchange : Exchanges old new expr expr')
    (part : old.callsCallables = true → new.callsCallables = true)
    (before : expr.callsCallables = true) : expr'.callsCallables = true := by
  induction exchange with
  | here => exact part before
  | callee _ alike ih =>
      simp only [Expr.callsCallables, isCallable, Bool.and_eq_true, alike.unnamed_left,
        alike.unnamed_right, alike.isCallOrGroup] at before ⊢
      exact ⟨⟨before.1.1, ih before.1.2⟩, before.2⟩
  | argument _ ih =>
      simp only [Expr.callsCallables, callsCallablesAll_eq_all, List.all_append, List.all_cons,
        Bool.and_eq_true] at before ⊢
      exact ⟨before.1, before.2.1, ih before.2.2.1, before.2.2.2⟩
  | lhs _ ih =>
      simp only [Expr.callsCallables, Bool.and_eq_true] at before ⊢
      exact ⟨ih before.1, before.2⟩
  | rhs _ ih =>
      simp only [Expr.callsCallables, Bool.and_eq_true] at before ⊢
      exact ⟨before.1, ih before.2⟩
  | item _ ih =>
      simp only [Expr.callsCallables, callsCallablesAll_eq_all, List.all_append, List.all_cons,
        Bool.and_eq_true] at before ⊢
      exact ⟨before.1, ih before.2.1, before.2.2⟩
  | operand _ ih =>
      simp only [Expr.callsCallables] at before ⊢
      exact ih before

theorem Steps.callsCallables {options : Options} {count : Nat} {expr expr' : Expr}
    (steps : Steps options count expr expr') (before : expr.callsCallables = true) :
    expr'.callsCallables = true := by
  induction steps with
  | refl => exact before
  | cons step _ ih =>
      obtain ⟨_, _, reduces, exchange⟩ := step
      exact ih (exchange.callsCallables reduces.callsCallables before)

end Expr

theorem Node.callsCallables_expr {node : Node} {below : List Expr}
    (arity : below.length = node.children.length) :
    (node.expr below).callsCallables = true ↔
      (∀ expr ∈ below, expr.callsCallables = true) ∧
        ∀ callee arguments, node = .call callee arguments →
          ∀ expr ∈ below.head?, expr.isCallable = true := by
  cases node with
  | root body =>
      obtain ⟨only, rfl⟩ := List.length_eq_one_iff.mp arity
      simp [expr]
  | identifier name =>
      obtain rfl := List.length_eq_zero_iff.mp arity
      simp [expr, Expr.callsCallables]
  | integer value =>
      obtain rfl := List.length_eq_zero_iff.mp arity
      simp [expr, Expr.callsCallables]
  | float value literal =>
      obtain rfl := List.length_eq_zero_iff.mp arity
      simp [expr, Expr.callsCallables]
  | call callee arguments =>
      obtain ⟨first, rest, rfl⟩ := List.exists_cons_of_length_eq_add_one arity
      simp [expr, Expr.callsCallables, Expr.callsCallablesAll_eq_all, and_assoc, and_comm,
        and_left_comm]
  | operation operator lhs rhs provenance =>
      obtain ⟨left, right, rfl⟩ := List.length_eq_two.mp arity
      simp [expr, Expr.callsCallables]
  | group items => simp [expr, Expr.callsCallables, Expr.callsCallablesAll_eq_all]
  | negation operand =>
      obtain ⟨only, rfl⟩ := List.length_eq_one_iff.mp arity
      simp [expr, Expr.callsCallables]

namespace Tree

variable {tree : Tree} {layout : Layout}

private theorem Spans.isCallable_iff {callee : NodeId} {arguments : List NodeId} {place : NodeId}
    {below : List Layout} (spans : tree.Spans (.node place below))
    (call : tree.node place = .call callee arguments) :
    (∀ expr ∈ (below.map tree.exprAlong).head?, expr.isCallable = true) ↔
      (tree.name? callee).isSome = true ∨ (tree.node callee).isCallOrGroup = true := by
  have children := spans.children
  rw [Tree.children, call] at children
  obtain ⟨first, rest, rfl, rfl, _⟩ := List.map_eq_cons_iff.mp children.symm
  obtain ⟨name, kind⟩ :=
    (spans.child List.mem_cons_self).kind_exprAlong (spans.isRoot List.mem_cons_self)
  simp [Expr.isCallable, name, kind]

theorem Spans.callsCallables_iff (spans : tree.Spans layout) :
    (tree.exprAlong layout).callsCallables = true ↔
      ∀ id ∈ layout.places, ∀ callee arguments, tree.node id = .call callee arguments →
        (tree.name? callee).isSome = true ∨ (tree.node callee).isCallOrGroup = true := by
  induction layout using Layout.induction with
  | node place below ih =>
      have children : (tree.node place).children = _ := spans.children
      rw [exprAlong_node, Node.callsCallables_expr (by rw [children]; simp)]
      constructor
      · rintro ⟨inner, top⟩ id member callee arguments call
        rw [Layout.places_node] at member
        rcases List.mem_cons.mp member with rfl | inBelow
        · exact (spans.isCallable_iff call).mp (top callee arguments call)
        · obtain ⟨child, childMember, inChild⟩ := List.mem_flatMap.mp inBelow
          have callable := inner (tree.exprAlong child) (List.mem_map_of_mem childMember)
          exact (ih child childMember (spans.child childMember)).mp callable id inChild callee
            arguments call
      · intro all
        refine ⟨fun expr member => ?_, fun callee arguments call => ?_⟩
        · obtain ⟨child, childMember, rfl⟩ := List.mem_map.mp member
          exact (ih child childMember (spans.child childMember)).mpr fun id inChild =>
            all id (Layout.mem_places_of_mem childMember inChild)
        · exact (spans.isCallable_iff call).mpr (all place (by simp) callee arguments call)

end Tree

end Juxtaposition
