import BlockScript.Parser
import BlockScript.Proofs.Reads
import BlockScript.Proofs.Simulation

/-!
# What the parser keeps

The parser keeps every declaration that it could read, whatever faults there are in the others, and
a fault that does not break off a declaration leaves its tree standing. So for such a program there
is no derivation in the grammar to go by. What holds of its trees holds because every way through
the parser that gives a tree at all makes it so.

This file has the rules for that, `Parser.Yields` for what a parser gives and `Parser.Built` for how
statements are put together, and one use of them: a declaration never stands alone where a statement
is asked for, as a branch of an `if` or as the body of a loop. So a statement declares a name in the
scope it is run in only if it is a declaration itself.

## Main definitions

* `Stmt.declared?` — the name that a declaration is of
* `Stmt.Orderly`, `Stmt.Plain` — only declarations declare names where they stand, and the statement
  is none itself
* `Parser.Yields` — every value that a parser gives has a property
* `Parser.Built` — properties that all statements have which are put together from expressions

## Main results

* `Parser.Built.yields`, `Parser.Built.parseTokens` — the parser gives trees with such properties
* `orderly_parseTokens` — the program that the parser keeps is orderly
-/

namespace BlockScript

/-! ## Nodes -/

@[simp] theorem Expr.listNodes_eq (es : List Expr) : Expr.listNodes es = es.flatMap Expr.nodes := by
  induction es with
  | nil => rfl
  | cons e es ih => rw [Expr.listNodes, ih, List.flatMap_cons]

@[simp] theorem Stmt.listNodes_eq (ss : List Stmt) : Stmt.listNodes ss = ss.flatMap Stmt.nodes := by
  induction ss with
  | nil => rfl
  | cons s ss ih => rw [Stmt.listNodes, ih, List.flatMap_cons]

/-- There are no statements in an expression. -/
@[simp] theorem Expr.stmt_notMem_nodes (e : Expr) (t : Stmt) : Node.stmt t ∉ e.nodes := by
  induction e using Expr.ind with
  | literal span value => simp [Expr.nodes]
  | ident span name => simp [Expr.nodes]
  | assign span name value ih => simp [Expr.nodes, ih]
  | unary span op operand ih => simp [Expr.nodes, ih]
  | binary span op left right ihl ihr => simp [Expr.nodes, ihl, ihr]
  | logical span op left right ihl ihr => simp [Expr.nodes, ihl, ihr]
  | group span inner ih => simp [Expr.nodes, ih]
  | call span paren callee args ih ihargs => simpa [Expr.nodes, ih] using ihargs

/-- The statements that a statement is made of. -/
def Stmt.parts : Stmt → List Stmt
  | .block _ body | .func _ _ _ body => body
  | .ifThen _ _ yes => [yes]
  | .ifElse _ _ yes no => [yes, no]
  | .whileDo _ _ body => [body]
  | .expr .. | .print .. | .ret .. | .var .. => []

/-- The statements in a statement are the statement itself and those in its parts. -/
theorem Stmt.stmt_mem_nodes {s t : Stmt} :
    Node.stmt t ∈ s.nodes ↔ t = s ∨ ∃ part ∈ s.parts, Node.stmt t ∈ part.nodes := by
  cases s <;> simp [Stmt.nodes, Stmt.parts]

theorem Program.stmt_mem_nodes {program : Program} {s : Stmt} (h : s ∈ program) :
    Node.stmt s ∈ program.nodes := by
  rw [Program.nodes, Stmt.listNodes_eq]
  exact List.mem_flatMap.mpr ⟨s, h, Stmt.stmt_mem_nodes.mpr (.inl rfl)⟩

/-! ## Orderly trees -/

/-- The name that a declaration is of. Other statements declare no name. -/
def Stmt.declared? : Stmt → Option String
  | .func _ name .. | .var _ name _ => some name
  | _ => none

/-- Nothing in the statement declares a name where it stands, but for the declarations. -/
def Stmt.Orderly (s : Stmt) : Prop :=
  ∀ t, Node.stmt t ∈ s.nodes → t.binds = t.declared?.isSome

/-- What the parser gives where a statement is asked for. -/
structure Stmt.Plain (s : Stmt) : Prop where
  binds : s.binds = false
  orderly : s.Orderly

namespace Stmt

theorem Orderly.of_parts {s : Stmt} (h : s.binds = s.declared?.isSome)
    (hparts : ∀ part ∈ s.parts, part.Orderly) : s.Orderly := by
  intro t ht
  rcases stmt_mem_nodes.mp ht with rfl | ⟨part, hpart, ht⟩
  · exact h
  · exact hparts part hpart t ht

theorem Orderly.func (span : Span) (name : String) (params : List String) {body : List Stmt}
    (h : ∀ s ∈ body, s.Orderly) : (Stmt.func span name params body).Orderly :=
  .of_parts rfl h

theorem Orderly.var (span : Span) (name : String) (value : Option Expr) :
    (Stmt.var span name value).Orderly :=
  .of_parts rfl fun _ h => absurd h List.not_mem_nil

namespace Plain

theorem block {span : Span} {body : List Stmt} (h : ∀ s ∈ body, s.Orderly) :
    (Stmt.block span body).Plain := ⟨rfl, .of_parts rfl h⟩

theorem expr (span : Span) (value : Expr) : (Stmt.expr span value).Plain :=
  ⟨rfl, .of_parts rfl fun _ h => absurd h List.not_mem_nil⟩

theorem print (span : Span) (value : Expr) : (Stmt.print span value).Plain :=
  ⟨rfl, .of_parts rfl fun _ h => absurd h List.not_mem_nil⟩

theorem ret (span : Span) (value : Option Expr) : (Stmt.ret span value).Plain :=
  ⟨rfl, .of_parts rfl fun _ h => absurd h List.not_mem_nil⟩

theorem ifThen (span : Span) (cond : Expr) {yes : Stmt} (h : yes.Plain) :
    (Stmt.ifThen span cond yes).Plain :=
  ⟨h.binds, .of_parts h.binds (List.forall_mem_singleton.mpr h.orderly)⟩

theorem ifElse (span : Span) (cond : Expr) {yes no : Stmt} (hyes : yes.Plain) (hno : no.Plain) :
    (Stmt.ifElse span cond yes no).Plain := by
  have hbinds : (Stmt.ifElse span cond yes no).binds = false := by
    rw [Stmt.binds, hyes.binds, hno.binds, Bool.or_false]
  refine ⟨hbinds, .of_parts hbinds (List.forall_mem_cons.mpr ⟨hyes.orderly, ?_⟩)⟩
  exact List.forall_mem_singleton.mpr hno.orderly

theorem whileDo (span : Span) (cond : Expr) {body : Stmt} (h : body.Plain) :
    (Stmt.whileDo span cond body).Plain :=
  ⟨h.binds, .of_parts h.binds (List.forall_mem_singleton.mpr h.orderly)⟩

end Plain

end Stmt

namespace Parser

/-! ## What a parser gives -/

variable {α β : Type}

/-- Every value that the parser gives has the property. -/
def Yields (p : Parser α) (P : α → Prop) : Prop := ∀ s a s', p s = .ok a s' → P a

namespace Yields

variable {p : Parser α} {f : α → Parser β} {P : α → Prop} {Q : β → Prop}

protected theorem pure {a : α} (h : P a) : Yields (pure a : Parser α) P := by
  intro s b s' hr
  injection hr with hb _
  exact hb ▸ h

/-- **Sequencing.** -/
theorem bind (hp : Yields p P) (hf : ∀ a, P a → Yields (f a) Q) : Yields (p >>= f) Q := by
  intro s b s' hr
  rw [bind_apply] at hr
  cases hs : p s with
  | error fault s₁ => rw [hs] at hr; nomatch hr
  | ok a s₁ => rw [hs] at hr; exact hf a (hp s a s₁ hs) s₁ b s' hr

/-- What the first parser gives does not matter. -/
theorem after (hf : ∀ a, Yields (f a) Q) : Yields (p >>= f) Q :=
  bind (P := fun _ => True) (fun _ _ _ _ => trivial) fun a _ => hf a

theorem map (hp : Yields p P) : Yields (some <$> p) fun value => ∀ a ∈ value, P a := by
  rw [map_eq_bind]
  exact hp.bind fun a ha => .pure fun b hb => Option.some.inj hb ▸ ha

theorem failHere (fault : Fault) : Yields (Parser.failHere fault : Parser α) P :=
  fun _ _ _ hr => nomatch hr

theorem insideFunction (hp : Yields p P) : Yields (insideFunction p) P := by
  intro s a s' hr
  rw [Parser.insideFunction] at hr
  cases hs : p { s with depth := s.depth + 1 } with
  | error fault s₁ => rw [hs] at hr; cases hr
  | ok b s₁ =>
    rw [hs] at hr
    injection hr with hb _
    exact hb ▸ hp _ b s₁ hs

theorem recover (hp : Yields p P) : Yields (recover p) fun value => ∀ a ∈ value, P a := by
  intro s value s' hr
  rw [Parser.recover] at hr
  cases hs : p s with
  | error fault s₁ =>
    rw [hs] at hr
    injection hr with hvalue _
    subst hvalue
    intro _ h
    cases h
  | ok a s₁ =>
    rw [hs] at hr
    injection hr with hvalue _
    subst hvalue
    exact fun b hb => Option.some.inj hb ▸ hp s a s₁ hs

end Yields

/-! ## Statements and declarations

The parser puts statements together from expressions and other statements. A property of its trees
is proved by going through the ways to do so, which is what `Built` asks for. -/

/-- From expressions with the property `Q`, all that is put together are statements with the
property `stmt` and declarations with the property `decl`. Declarations stand only where they can,
in blocks and in functions, and a condition that is left out is `true`. -/
structure Built (Q : Expr → Prop) (stmt decl : Stmt → Prop) : Prop where
  always : ∀ span, Q (.literal span (.bool true))
  block : ∀ span body, (∀ s ∈ body, decl s) → stmt (.block span body)
  expr : ∀ span value, Q value → stmt (.expr span value)
  func : ∀ span name params body, (∀ s ∈ body, decl s) → decl (.func span name params body)
  ifThen : ∀ span cond yes, Q cond → stmt yes → stmt (.ifThen span cond yes)
  ifElse : ∀ span cond yes no, Q cond → stmt yes → stmt no → stmt (.ifElse span cond yes no)
  print : ∀ span value, Q value → stmt (.print span value)
  ret : ∀ span value, (∀ e ∈ value, Q e) → stmt (.ret span value)
  var : ∀ span name value, (∀ e ∈ value, Q e) → decl (.var span name value)
  whileDo : ∀ span cond body, Q cond → stmt body → stmt (.whileDo span cond body)
  decl : ∀ s, stmt s → decl s

section

variable {Q : Expr → Prop} {stmt decl : Stmt → Prop} (hbuilt : Built Q stmt decl)
include hbuilt

/-- A `for` loop is put together from a block and a `while` loop. -/
theorem Built.forLoop (span : Span) {init : Option Stmt} {cond : Expr} {step : Option Expr}
    {body : Stmt} (hinit : ∀ s ∈ init, decl s) (hcond : Q cond) (hstep : ∀ e ∈ step, Q e)
    (hbody : stmt body) : stmt (forLoop span init cond step body) := by
  have hsteps : ∀ s ∈ (step.map fun e => Stmt.expr e.span e).toList, decl s := by
    cases step with
    | none => exact fun _ h => absurd h List.not_mem_nil
    | some e => exact List.forall_mem_singleton.mpr (hbuilt.decl _ (hbuilt.expr _ e (hstep e rfl)))
  have hinner := hbuilt.block span _ (List.forall_mem_cons.mpr ⟨hbuilt.decl body hbody, hsteps⟩)
  have hloop := hbuilt.decl _ (hbuilt.whileDo span cond _ hcond hinner)
  refine hbuilt.block span _ (List.forall_mem_append.mpr ⟨fun s hs => ?_, ?_⟩)
  · exact hinit s (Option.mem_toList.mp hs)
  · exact List.forall_mem_singleton.mpr hloop

/-- A declaration that was read, if it was, has the property. -/
abbrev Keeps (decl : Stmt → Prop) (declaration : Parser (Option Stmt)) : Prop :=
  Yields declaration fun value => ∀ s ∈ value, decl s

variable {expr : Parser Expr} {statement : Parser Stmt} {declaration : Parser (Option Stmt)}

omit hbuilt in
theorem yields_declarations (h : Keeps decl declaration) (closed : State → Bool) (steps : Nat) :
    Yields (declarations declaration closed steps) fun body => ∀ s ∈ body, decl s := by
  induction steps with
  | zero => exact .pure fun _ h => absurd h List.not_mem_nil
  | succ steps ih =>
    intro s body s' hr
    rw [declarations] at hr
    split at hr
    · injection hr with hbody _
      subst hbody
      exact fun _ h => absurd h List.not_mem_nil
    · refine Yields.bind (Q := fun body => ∀ s ∈ body, decl s) h
        (fun kept hkept => ih.bind fun others hothers => .pure ?_) s body s' hr
      refine List.forall_mem_append.mpr ⟨fun t ht => ?_, hothers⟩
      exact hkept t (Option.mem_toList.mp ht)

omit hbuilt in
theorem yields_block (h : Keeps decl declaration) (steps : Nat) :
    Yields (block steps declaration) fun body => ∀ s ∈ body, decl s :=
  (yields_declarations h _ steps).bind fun _ hbody => .after fun _ => .pure hbody

omit hbuilt in
theorem yields_unlessNext {α : Type} {p : Parser α} {P : α → Prop} (h : Yields p P)
    (kind : Token.Kind) : Yields (unlessNext kind p) fun value => ∀ a ∈ value, P a := by
  refine .after fun found => ?_
  split
  · exact .pure fun _ h => nomatch h
  · exact h.map

theorem yields_funcDeclaration (h : Keeps decl declaration) (steps start : Nat) :
    Yields (funcDeclaration steps declaration start) decl := by
  refine .after fun name => .after fun _ => .after fun params => .after fun _ => .after fun _ => ?_
  exact (yields_block h steps).insideFunction.bind fun body hbody => .after fun span =>
    .pure (hbuilt.func span _ _ _ hbody)

theorem yields_varDeclaration (hexpr : Yields expr Q) (start : Nat) :
    Yields (varDeclaration expr start) decl := by
  have hvalue : Yields (initialValue expr) fun value => ∀ e ∈ value, Q e := by
    refine .after fun equals => ?_
    split
    · exact hexpr.map
    · exact .pure fun _ h => nomatch h
  exact .after fun name => hvalue.bind fun value hvalue => .after fun _ => .after fun span =>
    .pure (hbuilt.var span _ _ hvalue)

theorem yields_exprStatement (hexpr : Yields expr Q) : Yields (exprStatement expr) stmt :=
  hexpr.bind fun value hvalue => .after fun _ => .after fun span =>
    .pure (hbuilt.expr span value hvalue)

theorem yields_forInitial (hexpr : Yields expr Q) :
    Yields (forInitial expr) fun init => ∀ s ∈ init, decl s := by
  refine .after fun semicolon => ?_
  split
  · exact .pure fun _ h => nomatch h
  · refine .after fun keyword => ?_
    split
    · exact (yields_varDeclaration hbuilt hexpr _).map
    · exact Yields.map (P := decl) fun s a s' hr =>
        hbuilt.decl a (yields_exprStatement hbuilt hexpr s a s' hr)

theorem yields_forCondition (hexpr : Yields expr Q) : Yields (forCondition expr) Q := by
  refine .after fun absent => ?_
  split
  · exact .after fun span => .pure (hbuilt.always span)
  · exact hexpr

theorem yields_forStatement (hexpr : Yields expr Q) (h : Yields statement stmt) (start : Nat) :
    Yields (forStatement expr statement start) stmt := by
  refine .after fun _ => (yields_forInitial hbuilt hexpr).bind fun init hinit => ?_
  refine (yields_forCondition hbuilt hexpr).bind fun cond hcond => .after fun _ => ?_
  refine (yields_unlessNext hexpr _).bind fun step hstep => .after fun _ => ?_
  exact h.bind fun body hbody => .after fun span =>
    .pure (hbuilt.forLoop span hinit hcond hstep hbody)

theorem yields_ifStatement (hexpr : Yields expr Q) (h : Yields statement stmt) (start : Nat) :
    Yields (ifStatement expr statement start) stmt := by
  refine .after fun _ => hexpr.bind fun cond hcond => .after fun _ => h.bind fun yes hyes => ?_
  refine .after fun keyword => ?_
  split
  · exact h.bind fun no hno => .after fun span =>
      .pure (hbuilt.ifElse span cond yes no hcond hyes hno)
  · exact .after fun span => .pure (hbuilt.ifThen span cond yes hcond hyes)

theorem yields_statementOf (hexpr : Yields expr Q) (hstatement : Yields statement stmt)
    (hdeclaration : Keeps decl declaration) (steps : Nat) :
    Yields (statementOf steps expr statement declaration) stmt := by
  intro s tree s' hr
  rw [statementOf] at hr
  split at hr
  · exact yields_exprStatement hbuilt hexpr s tree s' hr
  · split at hr
    · exact yields_forStatement hbuilt hexpr hstatement _ _ tree s' hr
    · exact yields_ifStatement hbuilt hexpr hstatement _ _ tree s' hr
    · exact hexpr.bind (fun value hvalue => .after fun _ => .after fun span =>
        .pure (hbuilt.print span value hvalue)) _ tree s' hr
    · exact Yields.after (fun _ => (yields_unlessNext hexpr _).bind fun value hvalue =>
        .after fun _ => .after fun span => .pure (hbuilt.ret span value hvalue)) _ tree s' hr
    · exact Yields.after (fun _ => hexpr.bind fun cond hcond => .after fun _ => hstatement.bind
        fun body hbody => .after fun span => .pure (hbuilt.whileDo span cond body hcond hbody))
        _ tree s' hr
    · exact (yields_block hdeclaration steps).bind (fun body hbody => .after fun span =>
        .pure (hbuilt.block span body hbody)) _ tree s' hr
    · exact yields_exprStatement hbuilt hexpr s tree s' hr

theorem yields_declarationOf (hexpr : Yields expr Q) (hstatement : Yields statement stmt)
    (hdeclaration : Keeps decl declaration) (steps : Nat) :
    Keeps decl (declarationOf steps expr statement declaration) := by
  have hplain : ∀ s tree s', statementOf steps expr statement declaration s = .ok tree s' →
      decl tree := fun s tree s' hr =>
    hbuilt.decl tree
      (yields_statementOf hbuilt hexpr hstatement hdeclaration steps s tree s' hr)
  refine Yields.recover fun s tree s' hr => ?_
  split at hr
  · exact hplain s tree s' hr
  · split at hr
    · exact yields_funcDeclaration hbuilt hdeclaration steps _ _ tree s' hr
    · exact yields_varDeclaration hbuilt hexpr _ _ tree s' hr
    · exact hplain s tree s' hr

/-- **The parser gives trees that are put together from expressions**, and no declaration where a
statement is asked for. -/
theorem Built.yields (hexpr : ∀ n, Yields (expression n) Q) (n : Nat) :
    Yields (Parser.statement n) stmt ∧ Keeps decl (Parser.declaration n) := by
  induction n with
  | zero =>
    refine ⟨.failHere _, fun s value s' hr => ?_⟩
    injection hr with hvalue _
    subst hvalue
    exact fun _ h => nomatch h
  | succ n ih =>
    obtain ⟨hstatement, hdeclaration⟩ := ih
    exact ⟨yields_statementOf hbuilt (hexpr _) hstatement hdeclaration _,
      yields_declarationOf hbuilt (hexpr _) hstatement hdeclaration _⟩

/-- What is kept has the property, whatever the tokens are. -/
theorem Built.parseTokens (hexpr : ∀ n, Yields (expression n) Q) (tokens : List Token) :
    ∀ s ∈ (parseTokens tokens).program, decl s := by
  rw [BlockScript.parseTokens]
  cases hr : Parser.program _ (Parser.State.start tokens) with
  | error fault s => exact fun _ h => absurd h List.not_mem_nil
  | ok program s => exact yields_declarations (hbuilt.yields hexpr _).2 _ _ _ program s hr

end

/-! ## Orderly trees are kept -/

theorem built_plain : Built (fun _ => True) Stmt.Plain Stmt.Orderly where
  always _ := trivial
  block _ _ h := .block h
  expr span value _ := .expr span value
  func span name params _ h := .func span name params h
  ifThen span cond _ _ h := .ifThen span cond h
  ifElse span cond _ _ _ hyes hno := .ifElse span cond hyes hno
  print span value _ := .print span value
  ret span value _ := .ret span value
  var span name value _ := .var span name value
  whileDo span cond _ _ h := .whileDo span cond h
  decl _ h := h.orderly

/-- **The parser gives orderly trees**, and no declaration where a statement is asked for. -/
theorem yields_statement_declaration (n : Nat) :
    Yields (Parser.statement n) Stmt.Plain ∧ Keeps Stmt.Orderly (Parser.declaration n) :=
  built_plain.yields (fun _ _ _ _ _ => trivial) n

end Parser

/-- **The program that the parser keeps is orderly**, whatever the tokens are. -/
theorem orderly_parseTokens (tokens : List Token) {t : Stmt}
    (ht : Node.stmt t ∈ (parseTokens tokens).program.nodes) : t.binds = t.declared?.isSome := by
  rw [Program.nodes, Stmt.listNodes_eq, List.mem_flatMap] at ht
  obtain ⟨s, hs, ht⟩ := ht
  exact Parser.built_plain.parseTokens (fun _ _ _ _ _ => trivial) tokens s hs t ht

end BlockScript
