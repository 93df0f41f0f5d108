import BlockScript.Proofs.Grammar
import BlockScript.Proofs.Places

/-!
# Moved words

The rules of the grammar look at the kinds and the texts of tokens, and at their places only to give
a place to a tree. So words that are moved are derived as they were, and their tree is the tree
moved, as long as the way they are moved respects how the place of a tree comes about: it goes from
the place of its first word through the place of its last one.

## Main definitions

* `Moves` — a way to move tokens and places

## Main results

* `Grammar.Expression.moved`, `Grammar.Statement.moved`, `Grammar.Program.moved` — moved words
-/

namespace BlockScript

/-- `g` moves tokens as `f` moves places, and `f` respects the place from one word through
another. -/
structure Moves (f : Span → Span) (g : Token → Token) : Prop where
  kind : ∀ token, (g token).kind = token.kind
  lexeme : ∀ token, (g token).lexeme = token.lexeme
  literal : ∀ token, (g token).literal = token.literal
  span : ∀ token, (g token).span = f token.span
  through : ∀ first last : Span, f (first.through last) = (f first).through (f last)

namespace Grammar

variable {f : Span → Span} {g : Token → Token}

/-! ## Expressions -/

theorem Separated.map {items : List (List Token)} {words : List Token} (h : Separated items words)
    (hmove : Moves f g) : Separated (items.map (List.map g)) (words.map g) := by
  induction h with
  | none => exact .none
  | one words => exact .one (words.map g)
  | @more comma words others items hcomma hitems _ ih =>
    rw [List.map_append, List.map_cons, List.map_cons]
    exact .more (by rw [hmove.kind, hcomma]) (by simpa using hitems) ih

/-- An operation with its words moved. -/
def Operation.moved (f : Span → Span) (g : Token → Token) (o : Operation) : Operation :=
  ⟨g o.operator, o.joint, o.words.map g, o.right.mapSpans f⟩

theorem map_flatMap_operations (operations : List Operation) :
    (operations.flatMap Operation.all).map g =
      (operations.map (Operation.moved f g)).flatMap Operation.all := by
  rw [List.map_flatMap, List.flatMap_map]
  rfl

theorem mapSpans_foldl_operations (hmove : Moves f g) (operations : List Operation)
    (first : Expr) :
    (operations.foldl Operation.apply first).mapSpans f =
      (operations.map (Operation.moved f g)).foldl Operation.apply (first.mapSpans f) := by
  induction operations generalizing first with
  | nil => rfl
  | cons o operations ih =>
    have hstep : (Operation.apply first o).mapSpans f =
        Operation.apply (first.mapSpans f) (o.moved f g) := by
      obtain ⟨operator, joint, words, right⟩ := o
      cases joint <;>
        simp [Operation.apply, Operation.moved, Expr.mapSpans, hmove.through]
    rw [List.foldl_cons, ih, hstep, List.map_cons, List.foldl_cons]

/-- An argument list with its words moved. -/
def Arguments.moved (f : Span → Span) (g : Token → Token) (a : Arguments) : Arguments :=
  ⟨g a.opening, a.items.map fun i => (i.1.map g, i.2.mapSpans f), a.words.map g,
    g a.closing⟩

theorem map_flatMap_arguments (calls : List Arguments) :
    (calls.flatMap Arguments.all).map g =
      (calls.map (Arguments.moved f g)).flatMap Arguments.all := by
  rw [List.map_flatMap, List.flatMap_map]
  congr 1
  funext a
  simp [Arguments.all, Arguments.moved]

theorem mapSpans_foldl_arguments (hmove : Moves f g) (calls : List Arguments) (callee : Expr) :
    (calls.foldl Arguments.apply callee).mapSpans f =
      (calls.map (Arguments.moved f g)).foldl Arguments.apply (callee.mapSpans f) := by
  induction calls generalizing callee with
  | nil => rfl
  | cons a calls ih =>
    have hstep : (Arguments.apply callee a).mapSpans f =
        Arguments.apply (callee.mapSpans f) (a.moved f g) := by
      simp [Arguments.apply, Arguments.moved, Expr.mapSpans, hmove.through, hmove.span]
    rw [List.foldl_cons, ih, hstep, List.map_cons, List.foldl_cons]

theorem Expression.moved (hmove : Moves f g) {symbol : ExprSymbol} {words : List Token}
    {tree : Expr} (h : Expression symbol words tree) :
    Expression symbol (words.map g) (tree.mapSpans f) := by
  have hkind {token : Token} {kind : Token.Kind} (h : token.kind = kind) :
      (g token).kind = kind := (hmove.kind token).trans h
  induction h with
  | @assign target equals words value htarget hequals _ ih =>
    have h := Expression.assign (hkind htarget) (hkind hequals) ih
    rw [hmove.lexeme, hmove.span, Expr.span_mapSpans, ← hmove.through] at h
    exact h
  | operand _ ih => exact .operand ih
  | level _ hoperators _ ih ihs =>
    rw [List.map_append, map_flatMap_operations, mapSpans_foldl_operations hmove]
    refine .level ih (List.forall_mem_map.mpr fun o ho => ?_) (List.forall_mem_map.mpr ihs)
    rw [show ((o.moved f g).operator.kind, (o.moved f g).joint) = (o.operator.kind, o.joint) from
      congrArg (·, o.joint) (hmove.kind o.operator)]
    exact hoperators o ho
  | tightest _ ih => exact .tightest ih
  | not hoperator _ ih =>
    have h := Expression.not (hkind hoperator) ih
    rw [hmove.span, Expr.span_mapSpans, ← hmove.through] at h
    exact h
  | negate hoperator _ ih =>
    have h := Expression.negate (hkind hoperator) ih
    rw [hmove.span, Expr.span_mapSpans, ← hmove.through] at h
    exact h
  | unaryCall _ ih => exact .unaryCall ih
  | call _ hopening _ hwords hcount hclosing ih ihs =>
    rw [List.map_append, map_flatMap_arguments, mapSpans_foldl_arguments hmove]
    refine .call ih (List.forall_mem_map.mpr fun c hc => hkind (hopening c hc))
      (List.forall_mem_map.mpr fun c hc => List.forall_mem_map.mpr (ihs c hc))
      (List.forall_mem_map.mpr fun c hc => ?_) (List.forall_mem_map.mpr fun c hc => ?_)
      (List.forall_mem_map.mpr fun c hc => hkind (hclosing c hc))
    · have h := (hwords c hc).map hmove
      simp only [Arguments.moved, List.map_map] at h ⊢
      exact h
    · simpa [Arguments.moved] using hcount c hc
  | true h => rw [List.map_singleton, Expr.mapSpans, ← hmove.span]; exact .true (hkind h)
  | false h => rw [List.map_singleton, Expr.mapSpans, ← hmove.span]; exact .false (hkind h)
  | nil h => rw [List.map_singleton, Expr.mapSpans, ← hmove.span]; exact .nil (hkind h)
  | literal h hliteral =>
    rw [List.map_singleton, Expr.mapSpans, ← hmove.span]
    exact .literal (by rwa [hmove.kind]) ((hmove.literal _).trans hliteral)
  | ident h =>
    rw [List.map_singleton, Expr.mapSpans, ← hmove.span, ← hmove.lexeme]
    exact .ident (hkind h)
  | group hopening _ hclosing ih =>
    have h := Expression.group (hkind hopening) ih (hkind hclosing)
    rw [hmove.span, hmove.span, ← hmove.through] at h
    simpa [Expr.mapSpans] using h

/-! ## Statements -/

theorem OptionalExpression.moved (hmove : Moves f g) {words : List Token} {value : Option Expr}
    (h : OptionalExpression words value) :
    OptionalExpression (words.map g) (value.map (Expr.mapSpans f)) := by
  cases h with
  | none => exact .none
  | some h => exact .some (h.moved hmove)

theorem VarDecl.moved (hmove : Moves f g) {words : List Token} {tree : Stmt}
    (h : VarDecl words tree) : VarDecl (words.map g) (tree.mapSpans f) := by
  cases h with
  | @mk keyword name semicolon words value hkeyword hname hvalue hsemicolon =>
    have hvalue : InitialValue (words.map g) (value.map (Expr.mapSpans f)) := by
      cases hvalue with
      | none => exact .none
      | some hequals h => exact .some (by rwa [hmove.kind]) (h.moved hmove)
    have h := VarDecl.mk (by rwa [hmove.kind]) (by rwa [hmove.kind]) hvalue
      (by rwa [hmove.kind] : (g semicolon).kind = _)
    rw [hmove.span, hmove.span, ← hmove.through, hmove.lexeme] at h
    simpa [Stmt.mapSpans] using h

theorem ExprStmt.moved (hmove : Moves f g) {words : List Token} {tree : Stmt}
    (h : ExprStmt words tree) : ExprStmt (words.map g) (tree.mapSpans f) := by
  cases h with
  | @mk words semicolon value hvalue hsemicolon =>
    have h := ExprStmt.mk (hvalue.moved hmove) (by rwa [hmove.kind] : (g semicolon).kind = _)
    rw [hmove.span, Expr.span_mapSpans, ← hmove.through] at h
    simpa [Stmt.mapSpans] using h

theorem ForInitial.moved (hmove : Moves f g) {words : List Token} {init : Option Stmt}
    (h : ForInitial words init) : ForInitial (words.map g) (init.map (Stmt.mapSpans f)) := by
  cases h with
  | none h => exact .none (by rwa [hmove.kind])
  | var h => exact .var (h.moved hmove)
  | expr h => exact .expr (h.moved hmove)

theorem mapSpans_forTree (hmove : Moves f g) (span : Span) (init : Option Stmt) (cond : Option Expr)
    (semicolon : Token) (step : Option Expr) (body : Stmt) :
    (forTree span init cond semicolon step body).mapSpans f =
      forTree (f span) (init.map (Stmt.mapSpans f)) (cond.map (Expr.mapSpans f)) (g semicolon)
        (step.map (Expr.mapSpans f)) (body.mapSpans f) := by
  cases init <;> cases cond <;> cases step <;>
    simp [forTree, Stmt.mapSpans, Expr.mapSpans, hmove.span]

/-- The parts of a sequence, moved. -/
def movedParts (f : Span → Span) (g : Token → Token) (parts : List (List Token × Stmt)) :
    List (List Token × Stmt) := parts.map fun d => (d.1.map g, d.2.mapSpans f)

theorem flatMap_movedParts (parts : List (List Token × Stmt)) :
    (movedParts f g parts).flatMap Prod.fst = (parts.flatMap Prod.fst).map g := by
  rw [movedParts, List.flatMap_map, List.map_flatMap]

theorem map_movedParts (parts : List (List Token × Stmt)) :
    (movedParts f g parts).map Prod.snd = (parts.map Prod.snd).map (Stmt.mapSpans f) := by
  rw [movedParts, List.map_map, List.map_map]
  rfl

theorem Statement.moved (hmove : Moves f g) {attaches : Bool → Prop} {symbol : StmtSymbol}
    {inside : Bool} {words : List Token} {tree : Stmt}
    (h : Statement attaches symbol inside words tree) :
    Statement attaches symbol inside (words.map g) (tree.mapSpans f) := by
  have hkind {token : Token} {kind : Token.Kind} (h : token.kind = kind) :
      (g token).kind = kind := (hmove.kind token).trans h
  induction h with
  | @funcDecl inside keyword name opening closing left right params words body hkeyword hname
      hopening hparams hwords hcount hclosing hleft _ hright ih =>
    have hparams : ∀ p ∈ params.map g, p.kind = .identifier :=
      List.forall_mem_map.mpr fun p hp => hkind (hparams p hp)
    have hwords : Separated ((params.map g).map ([·])) (words.map g) := by
      have h := hwords.map hmove
      rw [List.map_map] at h ⊢
      exact h
    have hbody : ∀ d ∈ movedParts f g body, Statement attaches .declaration true d.1 d.2 :=
      List.forall_mem_map.mpr ih
    have h : Statement attaches .declaration inside _ _ := .funcDecl (hkind hkeyword) (hkind hname)
      (hkind hopening) hparams hwords (by simpa using hcount) (hkind hclosing) (hkind hleft) hbody
      (hkind hright)
    rw [hmove.span, hmove.span, ← hmove.through, hmove.lexeme, flatMap_movedParts, map_movedParts,
      List.map_map, show Token.lexeme ∘ g = Token.lexeme from funext hmove.lexeme] at h
    simpa [Stmt.mapSpans] using h
  | varDecl h => exact .varDecl (h.moved hmove)
  | statement _ ih => exact .statement ih
  | exprStmt h => exact .exprStmt (h.moved hmove)
  | forStmt hkeyword hopening hinit hcond hsemicolon hstep hclosing _ ih =>
    have h := Statement.forStmt (hkind hkeyword) (hkind hopening) (hinit.moved hmove)
      (hcond.moved hmove) (hkind hsemicolon) (hstep.moved hmove) (hkind hclosing) ih
    rw [hmove.span, Stmt.span_mapSpans, ← hmove.through, ← mapSpans_forTree hmove] at h
    simpa using h
  | ifThen hkeyword hopening hcond hclosing _ ih =>
    have h := Statement.ifThen (hkind hkeyword) (hkind hopening) (hcond.moved hmove)
      (hkind hclosing) ih
    rw [hmove.span, Stmt.span_mapSpans, ← hmove.through] at h
    simpa [Stmt.mapSpans] using h
  | ifElse hkeyword hopening hcond hclosing _ hopen hother _ ih ih' =>
    have h := Statement.ifElse (hkind hkeyword) (hkind hopening) (hcond.moved hmove)
      (hkind hclosing) ih hopen (hkind hother) ih'
    rw [hmove.span, Stmt.span_mapSpans, ← hmove.through] at h
    simpa [Stmt.mapSpans] using h
  | @printStmt inside _ _ _ _ hkeyword hvalue hsemicolon =>
    have h : Statement attaches (.statement false) inside _ _ :=
      .printStmt (hkind hkeyword) (hvalue.moved hmove) (hkind hsemicolon)
    rw [hmove.span, hmove.span, ← hmove.through] at h
    simpa [Stmt.mapSpans] using h
  | returnStmt hkeyword hvalue hsemicolon =>
    have h : Statement attaches (.statement false) true _ _ :=
      .returnStmt (hkind hkeyword) (hvalue.moved hmove) (hkind hsemicolon)
    rw [hmove.span, hmove.span, ← hmove.through] at h
    simpa [Stmt.mapSpans] using h
  | whileStmt hkeyword hopening hcond hclosing _ ih =>
    have h := Statement.whileStmt (hkind hkeyword) (hkind hopening) (hcond.moved hmove)
      (hkind hclosing) ih
    rw [hmove.span, Stmt.span_mapSpans, ← hmove.through] at h
    simpa [Stmt.mapSpans] using h
  | @block inside left right body hleft _ hright ih =>
    have hbody : ∀ d ∈ movedParts f g body, Statement attaches .declaration inside d.1 d.2 :=
      List.forall_mem_map.mpr ih
    have h := Statement.block (hkind hleft) hbody (hkind hright)
    rw [hmove.span, hmove.span, ← hmove.through, flatMap_movedParts, map_movedParts] at h
    simpa [Stmt.mapSpans] using h

theorem Program.moved (hmove : Moves f g) {attaches : Bool → Prop} {words : List Token}
    {program : BlockScript.Program} (h : Program attaches words program) :
    Program attaches (words.map g) (program.map (Stmt.mapSpans f)) := by
  obtain ⟨parts, hparts, rfl, rfl⟩ := h
  refine ⟨movedParts f g parts, ?_, ?_, ?_⟩
  · exact List.forall_mem_map.mpr fun d hd => (hparts d hd).moved hmove
  · exact (flatMap_movedParts parts).symm
  · exact (map_movedParts parts).symm

end Grammar

end BlockScript
