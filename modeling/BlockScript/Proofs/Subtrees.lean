import BlockScript.Proofs.Kept

/-!
# What trees are made of

The nodes of a tree are listed by recursion on the tree. A fact about all of them is proved one node
at a time, and then it is enough to know the parts of a node. The parts of an expression are of two
kinds: its *operands*, which an operator or an argument list holds on to, and what it *encloses*
between its own words, where any expression can stand. A statement is made of whole expressions and
of other statements.

## Main definitions

* `Expr.operands`, `Expr.enclosed` — the parts of an expression
* `Stmt.exprs` — the whole expressions of a statement
* `Node.children` — the parts of a node
* `Expr.Each`, `Stmt.Each` — all nodes of a tree have a property

## Main results

* `Expr.each_iff`, `Stmt.each_iff` — all nodes of a tree, by its parts
* `Expr.byParts`, `Stmt.byParts` — induction on trees, by their parts
* `Program.mem_nodes_of_mem_children` — the parts of a node are nodes, too
-/

namespace BlockScript

/-! ## Expressions -/

namespace Expr

/-- The parts that an operator or an argument list holds on to. -/
def operands : Expr → List Expr
  | .unary _ _ operand => [operand]
  | .binary _ _ left right | .logical _ _ left right => [left, right]
  | .call _ _ callee _ => [callee]
  | .literal .. | .ident .. | .assign .. | .group .. => []

/-- The parts that any expression can stand for: the value that is assigned, what is in parentheses,
and the arguments of a call. -/
def enclosed : Expr → List Expr
  | .assign _ _ value => [value]
  | .group _ inner => [inner]
  | .call _ _ _ args => args
  | .literal .. | .ident .. | .unary .. | .binary .. | .logical .. => []

/-- All parts of an expression. -/
def parts (e : Expr) : List Expr := e.operands ++ e.enclosed

/-- Induction on expressions, by their parts. -/
theorem byParts {motive : Expr → Prop} (h : ∀ e : Expr, (∀ part ∈ e.parts, motive part) → motive e)
    (e : Expr) : motive e := by
  induction e using Expr.ind with
  | literal | ident => exact h _ fun _ hpart => absurd hpart List.not_mem_nil
  | assign _ _ _ ih | unary _ _ _ ih | group _ _ ih =>
    exact h _ (List.forall_mem_singleton.mpr ih)
  | binary _ _ _ _ ihl ihr | logical _ _ _ _ ihl ihr =>
    exact h _ (List.forall_mem_cons.mpr ⟨ihl, List.forall_mem_singleton.mpr ihr⟩)
  | call _ _ _ _ ih ihargs => exact h _ (List.forall_mem_cons.mpr ⟨ih, ihargs⟩)

theorem mem_nodes {e : Expr} {node : Node} :
    node ∈ e.nodes ↔ node = .expr e ∨ ∃ part ∈ e.parts, node ∈ part.nodes := by
  cases e <;> simp [nodes, parts, operands, enclosed]

/-- All nodes of the expression have the property. -/
def Each (P : Node → Prop) (e : Expr) : Prop := ∀ node ∈ e.nodes, P node

theorem Each.imp {P Q : Node → Prop} {e : Expr} (h : e.Each P) (himp : ∀ node, P node → Q node) :
    e.Each Q := fun node hnode => himp node (h node hnode)

theorem each_iff {e : Expr} {P : Node → Prop} :
    e.Each P ↔ P (.expr e) ∧ ∀ part ∈ e.parts, part.Each P := by
  constructor
  · intro h
    exact ⟨h _ (mem_nodes.mpr (.inl rfl)), fun part hpart node hnode =>
      h node (mem_nodes.mpr (.inr ⟨part, hpart, hnode⟩))⟩
  · rintro ⟨hself, hparts⟩ node hnode
    rcases mem_nodes.mp hnode with rfl | ⟨part, hpart, hnode⟩
    · exact hself
    · exact hparts part hpart node hnode

end Expr

/-! ## Statements -/

namespace Stmt

/-- The whole expressions that a statement itself has, without those of other statements in it. -/
def exprs : Stmt → List Expr
  | .expr _ value | .print _ value => [value]
  | .ifThen _ cond _ | .ifElse _ cond _ _ | .whileDo _ cond _ => [cond]
  | .ret _ value | .var _ _ value => value.toList
  | .block .. | .func .. => []

/-- Induction on statements, by the statements they are made of. -/
theorem byParts {motive : Stmt → Prop} (h : ∀ s : Stmt, (∀ part ∈ s.parts, motive part) → motive s)
    (s : Stmt) : motive s := by
  induction s using Stmt.ind with
  | expr | print | ret | var => exact h _ fun _ hpart => absurd hpart List.not_mem_nil
  | block _ _ ih | func _ _ _ _ ih => exact h _ ih
  | ifThen _ _ _ ih | whileDo _ _ _ ih => exact h _ (List.forall_mem_singleton.mpr ih)
  | ifElse _ _ _ _ ihyes ihno =>
    exact h _ (List.forall_mem_cons.mpr ⟨ihyes, List.forall_mem_singleton.mpr ihno⟩)

theorem mem_nodes {s : Stmt} {node : Node} :
    node ∈ s.nodes ↔ node = .stmt s ∨ (∃ e ∈ s.exprs, node ∈ e.nodes) ∨
      ∃ part ∈ s.parts, node ∈ part.nodes := by
  cases s <;> simp [nodes, exprs, parts]

/-- All nodes of the statement have the property. -/
def Each (P : Node → Prop) (s : Stmt) : Prop := ∀ node ∈ s.nodes, P node

theorem Each.imp {P Q : Node → Prop} {s : Stmt} (h : s.Each P) (himp : ∀ node, P node → Q node) :
    s.Each Q := fun node hnode => himp node (h node hnode)

theorem each_iff {s : Stmt} {P : Node → Prop} :
    s.Each P ↔
      P (.stmt s) ∧ (∀ e ∈ s.exprs, e.Each P) ∧ ∀ part ∈ s.parts, part.Each P := by
  constructor
  · intro h
    exact ⟨h _ (mem_nodes.mpr (.inl rfl)),
      fun e he node hnode => h node (mem_nodes.mpr (.inr (.inl ⟨e, he, hnode⟩))),
      fun part hpart node hnode => h node (mem_nodes.mpr (.inr (.inr ⟨part, hpart, hnode⟩)))⟩
  · rintro ⟨hself, hexprs, hparts⟩ node hnode
    rcases mem_nodes.mp hnode with rfl | ⟨e, he, hnode⟩ | ⟨part, hpart, hnode⟩
    · exact hself
    · exact hexprs e he node hnode
    · exact hparts part hpart node hnode

end Stmt

/-! ## Nodes and programs -/

/-- The parts of a node. -/
def Node.children : Node → List Node
  | .expr e => e.parts.map .expr
  | .stmt s => s.exprs.map .expr ++ s.parts.map .stmt

theorem Program.mem_nodes {program : Program} {node : Node} :
    node ∈ program.nodes ↔ ∃ s ∈ program, node ∈ s.nodes := by
  rw [Program.nodes, Stmt.listNodes_eq, List.mem_flatMap]

section

variable {node child : Node} (hchild : child ∈ node.children)
include hchild

theorem Expr.mem_nodes_of_mem_children {e : Expr} (h : node ∈ e.nodes) : child ∈ e.nodes := by
  induction e using Expr.byParts with
  | h e ih =>
    rcases mem_nodes.mp h with rfl | ⟨part, hpart, hnode⟩
    · obtain ⟨part, hpart, rfl⟩ := List.mem_map.mp hchild
      exact mem_nodes.mpr (.inr ⟨part, hpart, mem_nodes.mpr (.inl rfl)⟩)
    · exact mem_nodes.mpr (.inr ⟨part, hpart, ih part hpart hnode⟩)

theorem Stmt.mem_nodes_of_mem_children {s : Stmt} (h : node ∈ s.nodes) : child ∈ s.nodes := by
  induction s using Stmt.byParts with
  | h s ih =>
    rcases mem_nodes.mp h with rfl | ⟨e, he, hnode⟩ | ⟨part, hpart, hnode⟩
    · rcases List.mem_append.mp hchild with hchild | hchild
      · obtain ⟨e, he, rfl⟩ := List.mem_map.mp hchild
        exact mem_nodes.mpr (.inr (.inl ⟨e, he, Expr.mem_nodes.mpr (.inl rfl)⟩))
      · obtain ⟨part, hpart, rfl⟩ := List.mem_map.mp hchild
        exact mem_nodes.mpr (.inr (.inr ⟨part, hpart, mem_nodes.mpr (.inl rfl)⟩))
    · exact mem_nodes.mpr (.inr (.inl ⟨e, he, Expr.mem_nodes_of_mem_children hchild hnode⟩))
    · exact mem_nodes.mpr (.inr (.inr ⟨part, hpart, ih part hpart hnode⟩))

/-- The parts of a node of a program are nodes of the program. -/
theorem Program.mem_nodes_of_mem_children {program : Program} (h : node ∈ program.nodes) :
    child ∈ program.nodes := by
  obtain ⟨s, hs, hnode⟩ := mem_nodes.mp h
  exact mem_nodes.mpr ⟨s, hs, Stmt.mem_nodes_of_mem_children hchild hnode⟩

end

end BlockScript
