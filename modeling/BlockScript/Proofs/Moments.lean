import BlockScript.Proofs.ScopeNames
import BlockScript.Proofs.Subtrees

/-!
# The moments of a session

To run a program is to evaluate its nodes, each in some scope and on the machine as it is by then.
This file says which nodes are evaluated when. A *site* is a node together with everything around it
in its program, and a *moment* is a site whose evaluation is about to begin.

From the moment of a node one comes to those of its parts, after the parts that are evaluated before
them have given their results (`Begins`). The body of a function is not a part of its call, and a
function can get to where it is called from anywhere in the session. So its statements stand at the
site of the declaration that made the function, at an earlier moment (`Visited.body`).

A moment does not depend on whether the run ever ends. What a run that goes on forever comes to is
what it comes to with enough fuel.

## Main definitions

* `Site`, `Site.In`, `Site.depth` — nodes in programs, and the blocks and functions around them
* `Begins`, `Enters` — how evaluation gets from a node to its parts, or into a function
* `Machine.Precedes` — machines one after the other in a session
* `Moment`, `Visited` — the moments of a session

## Main results

* `Visited.exists_in` — all moments are at sites of programs that are run
-/

namespace BlockScript

variable {H : Type}

/-! ## Sites -/

/-- Whether the parts of a node have a scope of their own. -/
def Node.opensScope : Node → Bool
  | .stmt (.block ..) | .stmt (.func ..) => true
  | _ => false

/-- A node of a program, and the nodes that enclose it there, from the inside to the outside. -/
structure Site where
  node : Node
  around : List Node

namespace Site

/-- A statement that nothing encloses. -/
def top (s : Stmt) : Site := ⟨.stmt s, []⟩

/-- A part of the node at a site. -/
def part (site : Site) (node : Node) : Site := ⟨node, site.node :: site.around⟩

/-- The number of blocks and functions that enclose the node. -/
def depth (site : Site) : Nat := site.around.countP Node.opensScope

theorem depth_part (site : Site) (node : Node) :
    (site.part node).depth = site.depth + if site.node.opensScope then 1 else 0 :=
  List.countP_cons

/-- The site is one of the program. -/
inductive In (program : Program) : Site → Prop where
  | top {s : Stmt} (h : s ∈ program) : In program (top s)
  | part {site : Site} {node : Node} (h : In program site) (hnode : node ∈ site.node.children) :
      In program (site.part node)

/-- The node of a site is a node of the program. -/
theorem In.mem_nodes {program : Program} {site : Site} (h : In program site) :
    site.node ∈ program.nodes := by
  induction h with
  | top h => exact Program.stmt_mem_nodes h
  | @part site node _ hnode ih => exact Program.mem_nodes_of_mem_children hnode ih

end Site

/-! ## From a node to its parts -/

/-- The part of a node that is evaluated before anything else. A loop is left out, since it
evaluates its condition again and again. -/
def Node.first? : Node → Option Expr
  | .expr (.assign _ _ e) | .expr (.unary _ _ e) | .expr (.binary _ _ e _)
  | .expr (.logical _ _ e _) | .expr (.group _ e) | .expr (.call _ _ e _)
  | .stmt (.expr _ e) | .stmt (.ifThen _ e _) | .stmt (.ifElse _ e _ _) | .stmt (.print _ e)
  | .stmt (.ret _ (some e)) | .stmt (.var _ _ (some e)) => some e
  | _ => none

section

variable [Host H]

/-- Some turns of a loop lead from one machine to the other, each to its normal end. -/
inductive Turns (n : Nat) (scope : ScopeId) (cond : Expr) (body : Stmt) :
    Machine H → Machine H → Prop where
  | refl (m : Machine H) : Turns n scope cond body m m
  | tail {m m₁ m₂ m₃ : Machine H} {v : Value H} (h : Turns n scope cond body m m₁)
      (hcond : evalExpr (callWith n) scope cond m₁ = .ok v m₂) (hv : v.truthy = true)
      (hbody : execStmt (callWith n) n scope body m₂ = .ok .normal m₃) :
      Turns n scope cond body m m₃

/-- The evaluation of a node in a scope, with the fuel `n`, comes to one of the parts of the node,
which it evaluates in a scope and on a machine that are given last. -/
inductive Begins (n : Nat) : Node → ScopeId → Machine H → Node → ScopeId → Machine H → Prop where
  | first {node : Node} {e : Expr} {s : ScopeId} {m : Machine H} (h : node.first? = some e) :
      Begins n node s m (.expr e) s m
  | right {span : Span} {op : BinaryOp} {left right : Expr} {s : ScopeId} {v : Value H}
      {m m₁ : Machine H} (h : evalExpr (callWith n) s left m = .ok v m₁) :
      Begins n (.expr (.binary span op left right)) s m (.expr right) s m₁
  | undecided {span : Span} {op : LogicalOp} {left right : Expr} {s : ScopeId} {v : Value H}
      {m m₁ : Machine H} (h : evalExpr (callWith n) s left m = .ok v m₁)
      (hv : op.decidedBy v = false) :
      Begins n (.expr (.logical span op left right)) s m (.expr right) s m₁
  | arg {span paren : Span} {callee a : Expr} {before after : List Expr} {s : ScopeId}
      {f : Value H} {values : List (Value H)} {m m₁ m₂ : Machine H}
      (hcallee : evalExpr (callWith n) s callee m = .ok f m₁)
      (hbefore : evalArgs (callWith n) s before m₁ = .ok values m₂) :
      Begins n (.expr (.call span paren callee (before ++ a :: after))) s m (.expr a) s m₂
  | onlyYes {span : Span} {cond : Expr} {yes : Stmt} {s : ScopeId} {v : Value H}
      {m m₁ : Machine H} (h : evalExpr (callWith n) s cond m = .ok v m₁) (hv : v.truthy = true) :
      Begins n (.stmt (.ifThen span cond yes)) s m (.stmt yes) s m₁
  | yes {span : Span} {cond : Expr} {yes no : Stmt} {s : ScopeId} {v : Value H}
      {m m₁ : Machine H} (h : evalExpr (callWith n) s cond m = .ok v m₁) (hv : v.truthy = true) :
      Begins n (.stmt (.ifElse span cond yes no)) s m (.stmt yes) s m₁
  | no {span : Span} {cond : Expr} {yes no : Stmt} {s : ScopeId} {v : Value H}
      {m m₁ : Machine H} (h : evalExpr (callWith n) s cond m = .ok v m₁) (hv : v.truthy = false) :
      Begins n (.stmt (.ifElse span cond yes no)) s m (.stmt no) s m₁
  | inner {span : Span} {t : Stmt} {before after : List Stmt} {s : ScopeId} {m m₁ : Machine H}
      (h : Completes (callWith n) n m.scopes.next before
        { m with scopes := m.scopes.push (some s) } m₁) :
      Begins n (.stmt (.block span (before ++ t :: after))) s m (.stmt t) m.scopes.next m₁
  | test {span : Span} {cond : Expr} {body : Stmt} {s : ScopeId} {m m₁ : Machine H}
      (h : Turns n s cond body m m₁) :
      Begins n (.stmt (.whileDo span cond body)) s m (.expr cond) s m₁
  | turn {span : Span} {cond : Expr} {body : Stmt} {s : ScopeId} {v : Value H}
      {m m₁ m₂ : Machine H} (h : Turns n s cond body m m₁)
      (hcond : evalExpr (callWith n) s cond m₁ = .ok v m₂) (hv : v.truthy = true) :
      Begins n (.stmt (.whileDo span cond body)) s m (.stmt body) s m₂

omit [Host H] in
theorem Node.mem_children_of_first? {node : Node} {e : Expr} (h : node.first? = some e) :
    .expr e ∈ node.children := by
  rcases node with e' | s
  · cases e' <;> simp_all [Node.first?, Node.children, Expr.parts, Expr.operands, Expr.enclosed]
  · cases s with
    | ret span value =>
      cases value <;> simp_all [Node.first?, Node.children, Stmt.exprs]
    | var span name value =>
      cases value <;> simp_all [Node.first?, Node.children, Stmt.exprs]
    | _ => simp_all [Node.first?, Node.children, Stmt.exprs]

/-- What is begun is a part of the node. -/
theorem Begins.mem_children {n : Nat} {node node' : Node} {s s' : ScopeId} {m m' : Machine H}
    (h : Begins n node s m node' s' m') : node' ∈ node.children := by
  cases h with
  | first h => exact Node.mem_children_of_first? h
  | right | undecided | arg =>
    simp [Node.children, Expr.parts, Expr.operands, Expr.enclosed]
  | onlyYes | yes | no | inner | test | turn =>
    simp [Node.children, Stmt.exprs, Stmt.parts]

/-- A call, with the fuel `n` for what is inside of the function, enters the body of a function. The
function, the scope of its parameters and the machine with the parameters in it are given last. -/
inductive Enters (n : Nat) :
    Node → ScopeId → Machine H → Nat → Closure → ScopeId → Machine H → Prop where
  | call {span paren : Span} {callee : Expr} {args : List Expr} {s : ScopeId} {id : Nat}
      {c : Closure} {values : List (Value H)} {m m₁ m₂ m₃ : Machine H}
      (hcallee : evalExpr (callWith (n + 1)) s callee m = .ok (.function id c) m₁)
      (hargs : evalArgs (callWith (n + 1)) s args m₁ = .ok values m₂)
      (hcount : c.params.length = values.length)
      (hparams : bindParams m₂.scopes.next c.params values
        { m₂ with scopes := m₂.scopes.push (some c.scope) } = .ok () m₃) :
      Enters n (.expr (.call span paren callee args)) s m id c m₂.scopes.next m₃

/-! ## Time -/

/-- What can happen to the machine of a session. -/
inductive Machine.Advances : Machine H → Machine H → Prop where
  | change {m m' : Machine H} (h : Change 0 m m') : Advances m m'
  | define (m : Machine H) (native : Native H) : Advances m (m.defineNative native)
  | reset (m : Machine H) : Advances m m.reset

/-- The one machine can become the other in a session. -/
def Machine.Precedes : Machine H → Machine H → Prop := Relation.ReflTransGen Advances

theorem Machine.Reaches.precedes {m m' : Machine H} (h : m.Reaches 0 m') : m.Precedes m' :=
  Relation.ReflTransGen.mono (fun _ _ => Advances.change) _ _ h

/-! ## Moments -/

/-- A site whose node is about to be evaluated, with some fuel, in a scope of a machine. -/
structure Moment (H : Type) where
  fuel : Nat
  site : Site
  scope : ScopeId
  machine : Machine H

/-- The function is the one that is made at the moment, by a declaration. -/
def Moment.Makes (moment : Moment H) (id : Nat) (c : Closure) : Prop :=
  id = moment.machine.functionsMade ∧ c.scope = moment.scope ∧
    ∃ span, moment.site.node = .stmt (.func span c.name c.params c.body)

/-- The moments of a session that begins with a machine and takes some steps. -/
inductive Visited (start : Machine H) (steps : List (Session.Step H)) : Moment H → Prop where
  | top {before after : List (Session.Step H)} {fuel : Nat} {program done rest : List Stmt}
      {s : Stmt} {m m' : Machine H} (hsteps : steps = before ++ .run fuel program :: after)
      (hm : m = Session.afterSteps before start) (hprogram : program = done ++ s :: rest)
      (hdone : Completes (callWith fuel) fuel m.globals done m m') :
      Visited start steps ⟨fuel, .top s, m.globals, m'⟩
  | part {moment : Moment H} {node : Node} {scope : ScopeId} {m : Machine H}
      (h : Visited start steps moment)
      (hbegins : Begins moment.fuel moment.site.node moment.scope moment.machine node scope m) :
      Visited start steps ⟨moment.fuel, moment.site.part node, scope, m⟩
  | body {moment origin : Moment H} {n id : Nat} {c : Closure} {scope : ScopeId}
      {done rest : List Stmt} {s : Stmt} {m m' : Machine H} (h : Visited start steps moment)
      (hfuel : moment.fuel = n + 1)
      (henters : Enters n moment.site.node moment.scope moment.machine id c scope m)
      (horigin : Visited start steps origin) (hmakes : origin.Makes id c)
      (hearlier : origin.machine.Precedes m) (hbody : c.body = done ++ s :: rest)
      (hdone : Completes (callWith n) n scope done m m') :
      Visited start steps ⟨n, origin.site.part (.stmt s), scope, m'⟩

/-- **All moments of a session** are at sites of programs that it runs. -/
theorem Visited.exists_in {start : Machine H} {steps : List (Session.Step H)} {moment : Moment H}
    (h : Visited start steps moment) :
    ∃ fuel program, .run fuel program ∈ steps ∧ moment.site.In program := by
  induction h with
  | @top before after fuel program done rest s m m' hsteps _ hprogram _ =>
    refine ⟨fuel, program, by simp [hsteps], .top (by simp [hprogram])⟩
  | part _ hbegins ih =>
    obtain ⟨fuel, program, hrun, hsite⟩ := ih
    exact ⟨fuel, program, hrun, .part hsite hbegins.mem_children⟩
  | body _ _ _ _ hmakes _ hbody _ _ ih =>
    obtain ⟨fuel, program, hrun, hsite⟩ := ih
    obtain ⟨-, -, span, hnode⟩ := hmakes
    refine ⟨fuel, program, hrun, .part hsite ?_⟩
    rw [hnode, hbody]
    simp [Node.children, Stmt.parts]

end

end BlockScript
