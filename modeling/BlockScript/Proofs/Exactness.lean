import BlockScript.Proofs.Nesting
import BlockScript.Proofs.ParserBlind

/-!
# Places that can be shown

Whatever the source, each place that comes from reading it can be shown in it. The nodes of the
program that is kept are seated among the tokens of the source (`seated_parseTokens`), and the
tokens stand one after the other in it, each of them with some characters. A fault of the parser has
the place of a token, since the parser never reports one anywhere else: a parser that reads the same
tokens at other places reports the same faults at those.

Without faults more can be said. The tokens are then a program of the grammar, and a node goes from
the first through the last of the tokens that its own rule derives it from. The grammar has no rule
for four nodes that a `for` loop stands for beside the block of the loop itself: the `while` loop,
the block in it, the step as a statement, and the condition when there is none.

## Main definitions

* `Span.Usable`, `Span.Inside` — a place in a source, and one in another
* `Grammar.Derived` — the words that a node was derived from
* `Grammar.ForLoop.added` — the nodes that a `for` loop has no words for
* `Grammar.Exact`, `Grammar.Introduced` — the two kinds of nodes

## Main results

* `Grammar.Expression.exact`, `Grammar.Statement.accounted` — the nodes of a derived tree
* `read_places` — the places of the nodes and of the faults of any source
-/

namespace BlockScript

/-! ## Nodes and their words -/

namespace Grammar

variable {attaches : Bool → Prop}

/-- The words are derived by a rule of the grammar, and the node is what they stand for. -/
def Derived (attaches : Bool → Prop) (words : List Token) : Node → Prop
  | .expr e => ∃ symbol, Expression symbol words e
  | .stmt s => ∃ symbol inside, Statement attaches symbol inside words s

theorem Derived.covers {words : List Token} {node : Node} (h : Derived attaches words node) :
    Covers words node.span := by
  cases node with
  | expr e =>
    obtain ⟨symbol, h⟩ := h
    exact h.laid.covers
  | stmt s =>
    obtain ⟨symbol, inside, h⟩ := h
    exact h.laid.covers

/-- The node goes from the first through the last of the words that it was derived from. -/
def Exact (attaches : Bool → Prop) (words : List Token) (node : Node) : Prop :=
  ∃ part, part <:+: words ∧ Derived attaches part node ∧ Covers part node.span

theorem Derived.exact {words : List Token} {node : Node} (h : Derived attaches words node) :
    Exact attaches words node := ⟨words, List.infix_rfl, h, h.covers⟩

theorem Exact.mono {words words' : List Token} {node : Node} (h : Exact attaches words node)
    (hwords : words <:+: words') : Exact attaches words' node := by
  obtain ⟨part, hpart, h⟩ := h
  exact ⟨part, hpart.trans hwords, h⟩

/-- A `for` loop as the grammar derives it. -/
structure ForLoop (attaches : Bool → Prop) where
  keyword : Token
  opening : Token
  initWords : List Token
  init : Option Stmt
  condWords : List Token
  cond : Option Expr
  semicolon : Token
  stepWords : List Token
  step : Option Expr
  closing : Token
  bodyWords : List Token
  body : Stmt
  inside : Bool
  isOpen : Bool
  hkeyword : keyword.kind = .keyword .forWord
  hopening : opening.kind = .symbol .leftParen
  hinit : ForInitial initWords init
  hcond : OptionalExpression condWords cond
  hsemicolon : semicolon.kind = .symbol .semicolon
  hstep : OptionalExpression stepWords step
  hclosing : closing.kind = .symbol .rightParen
  hbody : Statement attaches (.statement isOpen) inside bodyWords body

namespace ForLoop

variable (loop : ForLoop attaches)

/-- The words of the loop. -/
def words : List Token :=
  loop.keyword :: loop.opening :: loop.initWords ++ loop.condWords ++
    loop.semicolon :: loop.stepWords ++ loop.closing :: loop.bodyWords

/-- The place of the loop. -/
def span : Span := loop.keyword.span.through loop.body.span

/-- What the loop stands for. -/
def tree : Stmt := forTree loop.span loop.init loop.cond loop.semicolon loop.step loop.body

/-- The condition that is tested: `true` if there is none. -/
def test : Expr := loop.cond.getD (.literal loop.semicolon.span (.bool true))

/-- The body and the step after it. -/
def inner : Stmt :=
  .block loop.span (loop.body :: (loop.step.map fun e => Stmt.expr e.span e).toList)

/-- The nodes of the loop that the grammar has no words for. -/
def added : List Node :=
  .stmt (.whileDo loop.span loop.test loop.inner) :: .stmt loop.inner ::
    (loop.step.map fun e => .stmt (.expr e.span e)).toList ++
      if loop.cond.isNone then [.expr loop.test] else []

theorem statement :
    Statement attaches (.statement loop.isOpen) loop.inside loop.words loop.tree :=
  .forStmt loop.hkeyword loop.hopening loop.hinit loop.hcond loop.hsemicolon loop.hstep
    loop.hclosing loop.hbody

end ForLoop

/-- The node was added for one of the `for` loops among `nodes`, which is derived from some of the
words. -/
def Introduced (attaches : Bool → Prop) (nodes : List Node) (words : List Token) (node : Node) :
    Prop :=
  ∃ loop : ForLoop attaches, .stmt loop.tree ∈ nodes ∧ loop.words <:+: words ∧ node ∈ loop.added

/-- The node goes through its words, or it has none. -/
def Accounted (attaches : Bool → Prop) (nodes : List Node) (words : List Token) (node : Node) :
    Prop :=
  Introduced attaches nodes words node ∨ Exact attaches words node

theorem Accounted.mono {nodes : List Node} {words words' : List Token} {node : Node}
    (h : Accounted attaches nodes words node) (hwords : words <:+: words') :
    Accounted attaches nodes words' node := by
  rcases h with ⟨loop, htree, hloop, hnode⟩ | h
  · exact .inl ⟨loop, htree, hloop.trans hwords, hnode⟩
  · exact .inr (h.mono hwords)

end Grammar

/-! ## Derived expressions -/

namespace Grammar

variable {attaches : Bool → Prop}

/-- All nodes of the expression go through their words. -/
abbrev EachExact (attaches : Bool → Prop) (words : List Token) (e : Expr) : Prop :=
  e.Each (Exact attaches words)

theorem EachExact.mono {words words' : List Token} {e : Expr} (h : EachExact attaches words e)
    (hwords : words <:+: words') : EachExact attaches words' e :=
  h.imp fun _ hnode => hnode.mono hwords

theorem Expression.each_of_parts {symbol : ExprSymbol} {words : List Token} {e : Expr}
    (h : Expression symbol words e) (hparts : ∀ part ∈ e.parts, EachExact attaches words part) :
    EachExact attaches words e := by
  have hself : Derived attaches words (.expr e) := ⟨symbol, h⟩
  exact Expr.each_iff.mpr ⟨hself.exact, hparts⟩

/-- The trees inside of a chain are those of its first operations. -/
theorem Operation.each_foldl {level : Level} {tighter : List Level} {words : List Token}
    {first : Expr} {operations : List Operation} (hfirst : Expression (.binary tighter) words first)
    (hoperators : ∀ o ∈ operations, (o.operator.kind, o.joint) ∈ level)
    (hoperands : ∀ o ∈ operations, Expression (.binary tighter) o.words o.right)
    (heach : EachExact attaches words first)
    (heachs : ∀ o ∈ operations, EachExact attaches o.words o.right) :
    EachExact attaches (words ++ operations.flatMap Operation.all)
      (operations.foldl Operation.apply first) := by
  have hall := Expression.level hfirst hoperators hoperands
  -- the last operation is the outermost one
  induction operations using List.reverseRecOn with
  | nil => simpa using heach
  | append_singleton operations o ih =>
    simp only [List.forall_mem_append, List.forall_mem_singleton] at hoperators hoperands heachs
    have ih := ih hoperators.1 hoperands.1 heachs.1
      (.level hfirst hoperators.1 hoperands.1)
    have hleft : words ++ operations.flatMap Operation.all <:+:
        words ++ (operations ++ [o]).flatMap Operation.all :=
      ⟨[], o.all, by simp⟩
    have hright : o.words <:+: words ++ (operations ++ [o]).flatMap Operation.all :=
      ⟨words ++ operations.flatMap Operation.all ++ [o.operator], [], by simp [Operation.all]⟩
    refine hall.each_of_parts ?_
    have hparts : ∀ part ∈ [operations.foldl Operation.apply first, o.right],
        EachExact attaches (words ++ (operations ++ [o]).flatMap Operation.all) part :=
      List.forall_mem_cons.mpr ⟨ih.mono hleft, List.forall_mem_singleton.mpr (heachs.2.mono hright)⟩
    rw [List.foldl_append, List.foldl_cons, List.foldl_nil, Operation.apply]
    obtain ⟨operator, joint, others, right⟩ := o
    cases joint with
    | logical op => exact hparts
    | binary op => exact hparts

/-- The trees inside of a series of calls are those of its first calls. -/
theorem Arguments.each_foldl {words : List Token} {callee : Expr} {calls : List Arguments}
    (hcalls : ∀ front, front <+: calls → Expression .call (words ++ front.flatMap Arguments.all)
      (front.foldl Arguments.apply callee))
    (hwords : ∀ c ∈ calls, Separated (c.items.map Prod.fst) c.words)
    (heach : EachExact attaches words callee)
    (heachs : ∀ c ∈ calls, ∀ i ∈ c.items, EachExact attaches i.1 i.2) :
    EachExact attaches (words ++ calls.flatMap Arguments.all)
      (calls.foldl Arguments.apply callee) := by
  have hall := hcalls calls List.prefix_rfl
  induction calls using List.reverseRecOn with
  | nil => simpa using heach
  | append_singleton calls c ih =>
    simp only [List.forall_mem_append, List.forall_mem_singleton] at hwords heachs
    have hfront := List.prefix_append calls [c]
    have ih := ih (fun front h => hcalls front (h.trans hfront)) hwords.1 heachs.1
      (hcalls calls hfront)
    have hleft : words ++ calls.flatMap Arguments.all <:+:
        words ++ (calls ++ [c]).flatMap Arguments.all :=
      ⟨[], c.all, by simp⟩
    have hinner : c.words <:+: words ++ (calls ++ [c]).flatMap Arguments.all :=
      ⟨words ++ calls.flatMap Arguments.all ++ [c.opening], [c.closing], by simp [Arguments.all]⟩
    refine hall.each_of_parts ?_
    rw [List.foldl_append, List.foldl_cons, List.foldl_nil]
    refine List.forall_mem_cons.mpr ⟨ih.mono hleft, List.forall_mem_map.mpr fun i hi => ?_⟩
    have hitem : i.1 <:+: c.words := hwords.2.isInfix i.1 (List.mem_map_of_mem hi)
    exact (heachs.2 i hi).mono (hitem.trans hinner)

/-- **All nodes of a derived expression go through their words.** -/
theorem Expression.exact {symbol : ExprSymbol} {words : List Token} {tree : Expr}
    (h : Expression symbol words tree) : EachExact attaches words tree := by
  have hleaf {words : List Token} : ∀ part ∈ ([] : List Expr), EachExact attaches words part :=
    List.forall_mem_nil _
  induction h with
  | @assign target equals words value htarget hequals hvalue ih =>
    refine (Expression.assign htarget hequals hvalue).each_of_parts ?_
    exact List.forall_mem_singleton.mpr (ih.mono ⟨[target, equals], [], by simp⟩)
  | operand _ ih => exact ih
  | level hfirst hoperators hoperands ih ihs =>
    exact Operation.each_foldl hfirst hoperators hoperands ih ihs
  | tightest _ ih => exact ih
  | not hoperator hoperand ih =>
    refine (Expression.not hoperator hoperand).each_of_parts ?_
    exact List.forall_mem_singleton.mpr (ih.mono (List.suffix_cons _ _).isInfix)
  | negate hoperator hoperand ih =>
    refine (Expression.negate hoperator hoperand).each_of_parts ?_
    exact List.forall_mem_singleton.mpr (ih.mono (List.suffix_cons _ _).isInfix)
  | unaryCall _ ih => exact ih
  | call hcallee hopening hitems hwords hcount hclosing ih ihs =>
    refine Arguments.each_foldl (fun front hfront => ?_) hwords ih ihs
    have hmem {c : Arguments} (hc : c ∈ front) := hfront.subset hc
    exact .call hcallee (fun c hc => hopening c (hmem hc)) (fun c hc => hitems c (hmem hc))
      (fun c hc => hwords c (hmem hc)) (fun c hc => hcount c (hmem hc))
      (fun c hc => hclosing c (hmem hc))
  | true h => exact (Expression.true h).each_of_parts hleaf
  | false h => exact (Expression.false h).each_of_parts hleaf
  | nil h => exact (Expression.nil h).each_of_parts hleaf
  | literal h hliteral => exact (Expression.literal h hliteral).each_of_parts hleaf
  | ident h => exact (Expression.ident h).each_of_parts hleaf
  | group hopening hinner hclosing ih =>
    refine (Expression.group hopening hinner hclosing).each_of_parts ?_
    exact List.forall_mem_singleton.mpr (ih.mono (List.infix_append [_] _ [_]))

/-! ## Derived statements -/

/-- All nodes of the statement go through their words, or have none. -/
abbrev EachAccounted (attaches : Bool → Prop) (nodes : List Node) (words : List Token) (s : Stmt) :
    Prop :=
  s.Each (Accounted attaches nodes words)

variable {nodes : List Node}

theorem EachAccounted.mono {words words' : List Token} {s : Stmt}
    (h : EachAccounted attaches nodes words s) (hwords : words <:+: words') :
    EachAccounted attaches nodes words' s :=
  h.imp fun _ hnode => hnode.mono hwords

theorem EachExact.accounted {words : List Token} {e : Expr} (h : EachExact attaches words e) :
    e.Each (Accounted attaches nodes words) :=
  h.imp fun _ hnode => .inr hnode

theorem Statement.each_of_parts {symbol : StmtSymbol} {inside : Bool} {words : List Token}
    {s : Stmt} (h : Statement attaches symbol inside words s)
    (hexprs : ∀ e ∈ s.exprs, EachExact attaches words e)
    (hparts : ∀ part ∈ s.parts, EachAccounted attaches nodes words part) :
    EachAccounted attaches nodes words s := by
  have hself : Derived attaches words (.stmt s) := ⟨symbol, inside, h⟩
  exact Stmt.each_iff.mpr ⟨.inr hself.exact, fun e he => (hexprs e he).accounted, hparts⟩

theorem OptionalExpression.exact {words : List Token} {value : Option Expr}
    (h : OptionalExpression words value) : ∀ e ∈ value.toList, EachExact attaches words e := by
  cases h with
  | none => exact List.forall_mem_nil _
  | some h => exact List.forall_mem_singleton.mpr h.exact

theorem VarDecl.accounted {words : List Token} {tree : Stmt} (h : VarDecl words tree) :
    EachAccounted attaches nodes words tree := by
  have hself : Statement attaches .declaration true words tree := .varDecl h
  refine hself.each_of_parts ?_ ?_
  · cases h with
    | @mk keyword name semicolon words value _ _ hvalue _ =>
      intro e he
      cases hvalue with
      | none => exact absurd he List.not_mem_nil
      | @some equals words tree _ hvalue =>
        obtain rfl := List.mem_singleton.mp he
        exact hvalue.exact.mono ⟨[keyword, name, equals], [semicolon], by simp⟩
  · cases h with
    | mk => exact List.forall_mem_nil _

theorem ExprStmt.accounted {words : List Token} {tree : Stmt} (h : ExprStmt words tree) :
    EachAccounted attaches nodes words tree := by
  have hself : Statement attaches (.statement false) true words tree := .exprStmt h
  refine hself.each_of_parts ?_ ?_
  · cases h with
    | @mk words semicolon value hvalue _ =>
      exact List.forall_mem_singleton.mpr
        (hvalue.exact.mono (List.prefix_append words [semicolon]).isInfix)
  · cases h with
    | mk => exact List.forall_mem_nil _

theorem ForInitial.accounted {words : List Token} {init : Option Stmt}
    (h : ForInitial words init) : ∀ s ∈ init.toList, EachAccounted attaches nodes words s := by
  cases h with
  | none => exact List.forall_mem_nil _
  | var h => exact List.forall_mem_singleton.mpr h.accounted
  | expr h => exact List.forall_mem_singleton.mpr h.accounted

/-- The nodes of a `for` loop that have no words are those that were added. -/
theorem ForLoop.accounted (loop : ForLoop attaches) (hnodes : loop.tree.nodes ⊆ nodes)
    (hbody : EachAccounted attaches nodes loop.bodyWords loop.body) :
    EachAccounted attaches nodes loop.words loop.tree := by
  have hadded {node : Node} (h : node ∈ loop.added) :
      Accounted attaches nodes loop.words node :=
    .inl ⟨loop, hnodes (Stmt.mem_nodes.mpr (.inl rfl)), List.infix_rfl, h⟩
  have hnone : ∀ e ∈ ([] : List Expr), e.Each (Accounted attaches nodes loop.words) :=
    List.forall_mem_nil _
  have hinit : loop.initWords <:+: loop.words :=
    ⟨[loop.keyword, loop.opening], loop.condWords ++ loop.semicolon :: loop.stepWords ++
      loop.closing :: loop.bodyWords, by simp [words]⟩
  have hcond : loop.condWords <:+: loop.words :=
    ⟨loop.keyword :: loop.opening :: loop.initWords, loop.semicolon :: loop.stepWords ++
      loop.closing :: loop.bodyWords, by simp [words]⟩
  have hstep : loop.stepWords <:+: loop.words :=
    ⟨loop.keyword :: loop.opening :: loop.initWords ++ loop.condWords ++ [loop.semicolon],
      loop.closing :: loop.bodyWords, by simp [words]⟩
  have hbodyWords : loop.bodyWords <:+: loop.words :=
    ⟨loop.keyword :: loop.opening :: loop.initWords ++ loop.condWords ++
      loop.semicolon :: loop.stepWords ++ [loop.closing], [], by simp [words]⟩
  have htest : loop.test.Each (Accounted attaches nodes loop.words) := by
    have hexact : ∀ e ∈ loop.cond.toList, EachExact attaches loop.condWords e := loop.hcond.exact
    cases h : loop.cond with
    | none =>
      have hself : .expr loop.test ∈ loop.added := by simp [added, h]
      rw [test, h] at hself ⊢
      exact Expr.each_iff.mpr ⟨hadded hself, hnone⟩
    | some e =>
      rw [h] at hexact
      rw [test, h]
      exact ((hexact e (List.mem_singleton_self e)).mono hcond).accounted
  have hsteps : ∀ s ∈ (loop.step.map fun e => Stmt.expr e.span e).toList,
      EachAccounted attaches nodes loop.words s := by
    have hexact : ∀ e ∈ loop.step.toList, EachExact attaches loop.stepWords e := loop.hstep.exact
    cases h : loop.step with
    | none => exact List.forall_mem_nil _
    | some e =>
      have hself : .stmt (.expr e.span e) ∈ loop.added := by simp [added, h]
      rw [h] at hexact
      have heach : e.Each (Accounted attaches nodes loop.words) :=
        ((hexact e (List.mem_singleton_self e)).mono hstep).accounted
      exact List.forall_mem_singleton.mpr (Stmt.each_iff.mpr ⟨hadded hself,
        List.forall_mem_singleton.mpr heach, List.forall_mem_nil _⟩)
  have hinner : EachAccounted attaches nodes loop.words loop.inner :=
    Stmt.each_iff.mpr ⟨hadded (by simp [added]), hnone,
      List.forall_mem_cons.mpr ⟨hbody.mono hbodyWords, hsteps⟩⟩
  have hwhile : EachAccounted attaches nodes loop.words
      (.whileDo loop.span loop.test loop.inner) :=
    Stmt.each_iff.mpr ⟨hadded (by simp [added]), List.forall_mem_singleton.mpr htest,
      List.forall_mem_singleton.mpr hinner⟩
  refine loop.statement.each_of_parts (List.forall_mem_nil _)
    (List.forall_mem_append.mpr ⟨fun s hs => ?_, List.forall_mem_singleton.mpr hwhile⟩)
  exact (loop.hinit.accounted s hs).mono hinit

theorem accounted_parts {parts : List (List Token × Stmt)}
    (h : ∀ d ∈ parts, EachAccounted attaches nodes d.1 d.2) :
    ∀ s ∈ parts.map Prod.snd, EachAccounted attaches nodes (parts.flatMap Prod.fst) s := by
  refine List.forall_mem_map.mpr fun d hd => (h d hd).mono ?_
  rw [List.flatMap_def]
  exact List.infix_of_mem_flatten (List.mem_map_of_mem hd)

/-- **All nodes of a derived statement go through their words**, but for those that a `for` loop
adds. -/
theorem Statement.accounted {symbol : StmtSymbol} {inside : Bool} {words : List Token}
    {tree : Stmt} (h : Statement attaches symbol inside words tree)
    (hnodes : tree.nodes ⊆ nodes) : EachAccounted attaches nodes words tree := by
  have hpart {s part : Stmt} (hs : s.nodes ⊆ nodes) (hpart : part ∈ s.parts) :
      part.nodes ⊆ nodes :=
    fun node hnode => hs (Stmt.mem_nodes.mpr (.inr (.inr ⟨part, hpart, hnode⟩)))
  have hnone {words : List Token} : ∀ e ∈ ([] : List Expr), EachExact attaches words e :=
    List.forall_mem_nil _
  have hleaf {words : List Token} : ∀ s ∈ ([] : List Stmt), EachAccounted attaches nodes words s :=
    List.forall_mem_nil _
  induction h with
  | @funcDecl inside keyword name opening closing left right params words body hkeyword hname
      hopening hparams hwords hcount hclosing hleft hbody hright ih =>
    have hself : Statement attaches .declaration inside _ _ :=
      .funcDecl hkeyword hname hopening hparams hwords hcount hclosing hleft hbody hright
    refine hself.each_of_parts hnone fun s hs => ?_
    have hbodyWords : body.flatMap Prod.fst <:+: keyword :: name :: opening :: words ++
        closing :: left :: body.flatMap Prod.fst ++ [right] :=
      ⟨keyword :: name :: opening :: words ++ [closing, left], [right], by simp⟩
    refine (accounted_parts (fun d hd => ih d hd ?_) s hs).mono hbodyWords
    exact hpart hnodes (List.mem_map_of_mem hd)
  | varDecl h => exact h.accounted
  | statement _ ih => exact ih hnodes
  | exprStmt h => exact h.accounted
  | @forStmt inside isOpen keyword opening semicolon closing initWords condWords stepWords words
      init cond step body hkeyword hopening hinit hcond hsemicolon hstep hclosing hbody ih =>
    let loop : ForLoop attaches :=
      { keyword, opening, initWords, init, condWords, cond, semicolon, stepWords, step, closing,
        bodyWords := words, body, inside, isOpen, hkeyword, hopening, hinit, hcond, hsemicolon,
        hstep, hclosing, hbody }
    have hinner : loop.inner.nodes ⊆ nodes := by
      refine hpart (hpart hnodes (List.mem_append_right _ (List.mem_singleton_self _))) ?_
      exact List.mem_singleton_self _
    exact loop.accounted hnodes (ih (hpart hinner List.mem_cons_self))
  | @ifThen inside isOpen keyword opening closing condWords words cond yes hkeyword hopening hcond
      hclosing hyes ih =>
    refine (Statement.ifThen hkeyword hopening hcond hclosing hyes).each_of_parts
      (List.forall_mem_singleton.mpr ?_) (List.forall_mem_singleton.mpr ?_)
    · exact hcond.exact.mono ⟨[keyword, opening], closing :: words, by simp⟩
    · refine (ih (hpart hnodes (List.mem_singleton_self _))).mono ?_
      exact ⟨keyword :: opening :: condWords ++ [closing], [], by simp⟩
  | @ifElse inside isOpen isOpen' keyword opening closing other condWords words words' cond yes no
      hkeyword hopening hcond hclosing hyes hopen hother hno ih ih' =>
    refine (Statement.ifElse hkeyword hopening hcond hclosing hyes hopen hother hno).each_of_parts
      (List.forall_mem_singleton.mpr ?_)
      (List.forall_mem_cons.mpr ⟨?_, List.forall_mem_singleton.mpr ?_⟩)
    · exact hcond.exact.mono
        ⟨[keyword, opening], closing :: words ++ other :: words', by simp⟩
    · refine (ih (hpart hnodes List.mem_cons_self)).mono ?_
      exact ⟨keyword :: opening :: condWords ++ [closing], other :: words', by simp⟩
    · refine (ih' (hpart hnodes (List.mem_cons_of_mem _ (List.mem_singleton_self _)))).mono ?_
      exact ⟨keyword :: opening :: condWords ++ closing :: words ++ [other], [], by simp⟩
  | @printStmt inside keyword semicolon words value hkeyword hvalue hsemicolon =>
    have hself : Statement attaches (.statement false) inside _ _ :=
      .printStmt hkeyword hvalue hsemicolon
    refine hself.each_of_parts (List.forall_mem_singleton.mpr ?_) hleaf
    exact hvalue.exact.mono (List.infix_append [keyword] words [semicolon])
  | @returnStmt keyword semicolon words value hkeyword hvalue hsemicolon =>
    refine (Statement.returnStmt hkeyword hvalue hsemicolon).each_of_parts (fun e he => ?_) hleaf
    exact (hvalue.exact e he).mono (List.infix_append [keyword] words [semicolon])
  | @whileStmt inside isOpen keyword opening closing condWords words cond body hkeyword hopening
      hcond hclosing hbody ih =>
    refine (Statement.whileStmt hkeyword hopening hcond hclosing hbody).each_of_parts
      (List.forall_mem_singleton.mpr ?_) (List.forall_mem_singleton.mpr ?_)
    · exact hcond.exact.mono ⟨[keyword, opening], closing :: words, by simp⟩
    · refine (ih (hpart hnodes (List.mem_singleton_self _))).mono ?_
      exact ⟨keyword :: opening :: condWords ++ [closing], [], by simp⟩
  | @block inside left right body hleft hbody hright ih =>
    refine (Statement.block hleft hbody hright).each_of_parts hnone fun s hs => ?_
    refine (accounted_parts (fun d hd => ih d hd ?_) s hs).mono
      (List.infix_append [left] (body.flatMap Prod.fst) [right])
    exact hpart hnodes (List.mem_map_of_mem hd)

/-- **All nodes of a program go through their words**, but for those that a `for` loop adds. -/
theorem Program.accounted {words : List Token} {program : BlockScript.Program}
    (h : Program attaches words program) :
    ∀ node ∈ program.nodes, Accounted attaches program.nodes words node := by
  obtain ⟨parts, hparts, rfl, rfl⟩ := h
  intro node hnode
  obtain ⟨s, hs, hnode⟩ := Program.mem_nodes.mp hnode
  refine accounted_parts (fun d hd => (hparts d hd).accounted fun node hnode => ?_) s hs node hnode
  exact Program.mem_nodes.mpr ⟨d.2, List.mem_map_of_mem hd, hnode⟩

end Grammar

/-! ## Places in a source -/

/-- The place is a stretch of whole characters of the source, and not empty. -/
structure Span.Usable (source : String) (span : Span) : Prop where
  nonempty : span.start < span.stop
  bound : span.stop ≤ source.utf8ByteSize
  start : IsBoundary source span.start
  stop : IsBoundary source span.stop

/-- One place contains the other. -/
structure Span.Inside (inner outer : Span) : Prop where
  start : outer.start ≤ inner.start
  stop : inner.stop ≤ outer.stop

theorem usable_of_mem_words {source : String} {word : Token} (h : word ∈ words source) :
    word.span.Usable source := by
  have hbound := ((inOrder_words source).within word h).bound
  obtain ⟨placed, hplaced, hword⟩ := List.mem_filterMap.mp h
  obtain ⟨before, after, hsource, htext, hspan⟩ := Piece.exists_text_of_mem_ofSource hplaced
  obtain ⟨hstart, hstop⟩ := isBoundary_after hsource
  rw [Piece.Placed.span_of_token? hword, hspan] at hbound ⊢
  exact ⟨Nat.lt_add_of_pos_right (Text.byteLength_pos htext), hbound, hstart, hstop⟩

section

variable {length : Nat} {words : List Token} {inner outer : Span}
  (hwords : Token.InOrder length words) (h : Covers words outer)
include hwords h

theorem Covers.inside {word : Token} (hword : word ∈ words) : word.span.Inside outer := by
  obtain ⟨first, rest, hfirst, hstart⟩ := h.start
  obtain ⟨others, last, hlast, hstop⟩ := h.stop
  have hforward := (hwords.within word hword).forward
  constructor
  · have hsorted := hwords.sorted
    rw [hfirst, List.pairwise_cons] at hsorted
    rw [hfirst, List.mem_cons] at hword
    rw [hstart]
    rcases hword with rfl | hword
    · exact Nat.le_refl _
    · exact Nat.le_trans (hwords.within first (by simp [hfirst])).forward (hsorted.1 word hword)
  · have hsorted := hwords.sorted
    rw [hlast, List.pairwise_append] at hsorted
    rw [hlast, List.mem_append, List.mem_singleton] at hword
    rw [hstop]
    rcases hword with hword | rfl
    · have hbefore := hsorted.2.2 word hword last (List.mem_singleton_self last)
      exact Nat.le_trans hbefore (hwords.within last (by simp [hlast])).forward
    · exact Nat.le_refl _

theorem Lies.inside (hlies : Lies words inner) : inner.Inside outer := by
  obtain ⟨part, hpart, hcovers⟩ := hlies
  obtain ⟨first, rest, hfirst, hstart⟩ := hcovers.start
  obtain ⟨others, last, hlast, hstop⟩ := hcovers.stop
  have hfirstin := h.inside hwords (hpart.subset (by simp [hfirst] : first ∈ part))
  have hlastin := h.inside hwords (hpart.subset (by simp [hlast] : last ∈ part))
  exact ⟨hstart ▸ hfirstin.start, hstop ▸ hlastin.stop⟩

end

theorem Covers.usable {source : String} {part : List Token} {span : Span} (h : Covers part span)
    (hpart : part <:+: words source) : span.Usable source := by
  obtain ⟨first, rest, hfirst, hstart⟩ := h.start
  obtain ⟨others, last, hlast, hstop⟩ := h.stop
  have hmem : first ∈ part := by simp [hfirst]
  have hinside := h.inside ((inOrder_words source).mono hpart) hmem
  have hfirst := usable_of_mem_words (hpart.subset hmem)
  have hlast := usable_of_mem_words (hpart.subset (by simp [hlast] : last ∈ part))
  refine ⟨?_, hstop ▸ hlast.bound, hstart ▸ hfirst.start, hstop ▸ hlast.stop⟩
  calc span.start ≤ first.span.start := hinside.start
    _ < first.span.stop := hfirst.nonempty
    _ ≤ span.stop := hinside.stop

/-- A call ends with the parenthesis that closes it, which comes after what is called and the
arguments. -/
def Node.ClosedIn (source : String) : Node → Prop
  | .expr (.call span paren callee args) =>
    (∃ token ∈ (scan source).tokens, token.kind = .symbol .rightParen ∧ paren = token.span) ∧
      paren.Usable source ∧ paren.Inside span ∧ paren.stop = span.stop ∧
      ∀ e ∈ callee :: args, e.span.stop ≤ paren.start
  | _ => True

theorem Node.ClosedBy.closedIn {source : String} {part : List Token} {node : Node}
    (h : node.ClosedBy part) (hpart : part <:+: words source) (hcovers : Covers part node.span) :
    node.ClosedIn source := by
  match node, h with
  | .expr (.call span paren callee args), ⟨front, closing, hall, hkind, hparen, hlies⟩ =>
    subst hall hparen
    have hordered := (inOrder_words source).mono hpart
    have hmem : closing ∈ front ++ [closing] := by simp
    have hstop : closing.span.stop = span.stop := by
      obtain ⟨others, last, hlast, hstop⟩ := hcovers.stop
      obtain ⟨-, rfl⟩ : front = others ∧ closing = last := by simpa using hlast
      exact hstop.symm
    refine ⟨⟨closing, List.mem_append_left _ (hpart.subset hmem), hkind, rfl⟩,
      usable_of_mem_words (hpart.subset hmem), hcovers.inside hordered hmem, hstop, fun e he => ?_⟩
    obtain ⟨inner, hinner, he⟩ := hlies e he
    obtain ⟨others, last, rfl, hlast⟩ := he.stop
    have hfront : last ∈ front := hinner.subset (by simp)
    rw [hlast]
    exact (List.pairwise_append.mp hordered.sorted).2.2 last hfront closing (by simp)
  | .stmt _, _ | .expr (.literal ..), _ | .expr (.ident ..), _ | .expr (.unary ..), _
  | .expr (.binary ..), _ | .expr (.logical ..), _ | .expr (.assign ..), _ | .expr (.group ..), _ =>
    trivial

/-- The parser reports faults only at tokens. -/
theorem span_of_mem_faults {source : String} {fault : Located}
    (h : fault ∈ (parseTokens (scan source).tokens).faults) :
    ∃ token ∈ (scan source).tokens, fault.span = token.span := by
  let atToken (span _ : Span) : Prop := ∃ token ∈ (scan source).tokens, span = token.span
  have hclose := closes_words source
  have hwords : List.Forall₂ (Token.Alike atToken) (words source) (words source) :=
    List.forall₂_same.mpr fun word hword =>
      ⟨rfl, rfl, rfl, word, List.mem_append_left _ hword, rfl⟩
  have hlast : atToken (lastToken source).span (lastToken source).span :=
    ⟨lastToken source, List.mem_append_right _ (List.mem_singleton_self _), rfl⟩
  have halike := (parseTokens_alike hclose hclose hwords hlast).faults
  exact (List.forall₂_same.mp halike fault h).span

/-- **Every place that comes from reading a source can be shown in it**, with or without faults.
Each node that is kept has a stretch of whole characters, and its parts lie in it; a fault stands at
a token or where the scanner found it; and in a source without faults each node goes from the first
through the last of the tokens it was derived from, but for those that a `for` loop adds. -/
theorem read_places (source : String) :
    let nodes := (read source).parsed.program.nodes
    (∀ node ∈ nodes, node.span.Usable source ∧
        (∀ child ∈ node.children, child.span.Inside node.span) ∧ node.ClosedIn source) ∧
      (∀ fault ∈ (read source).faults,
        (∃ token ∈ (scan source).tokens, fault.span = token.span) ∨
          ∃ other ∈ (scan source).faults, fault.span = other.span) ∧
      ((read source).faults = [] → ∀ node ∈ nodes,
        ¬Grammar.Introduced Grammar.nearestIf nodes (words source) node →
          Grammar.Exact Grammar.nearestIf (words source) node) := by
  intro nodes
  refine ⟨fun node hnode => ?_, fun fault hfault => ?_, fun hfaults node hnode hadded => ?_⟩
  · have hseated : node.Seated (words source) := by
      have h := seated_parseTokens (scan source).tokens node hnode
      rwa [show (scan source).tokens = words source ++ [lastToken source] from rfl,
        (closes_words source).start_rest] at h
    obtain ⟨part, hpart, hcovers, hchildren, hclosed⟩ := hseated
    refine ⟨hcovers.usable hpart, fun child hchild => ?_, hclosed.closedIn hpart hcovers⟩
    exact (hchildren child hchild).inside ((inOrder_words source).mono hpart) hcovers
  · rw [Reading.faults, Located.inOrder, List.mem_mergeSort, List.mem_append] at hfault
    rcases hfault with hfault | hfault
    · exact .inr ⟨fault, hfault, rfl⟩
    · exact .inl (span_of_mem_faults hfault)
  · have hparse : parse source = .ok (read source).parsed.program := by
      rw [parse, hfaults]
      rfl
    have haccounted := (parse_eq_ok_iff.mp hparse).2.accounted node hnode
    exact haccounted.resolve_left hadded

end BlockScript
