import BlockScript.Proofs.Places
import BlockScript.Proofs.Source

/-!
# The extent of a tree

Every place in the tree of a source lies in the source. The tokens of a source stand one after the
other in it, and the place of a node goes from the first through the last of the words that the
node was read from, which are a consecutive part of all words. That the first of them does not come
after the last one is then a matter of order.

The places are first found among the words (`Lies`), for which the words need not come from a
source, and only then among the bytes (`Span.Within`).

## Main definitions

* `Span.Within` — a span of a text of some length
* `Covers`, `Lies` — a place goes from the first through the last of some words

## Main results

* `Grammar.Expression.laid`, `Grammar.Statement.laid` — the places in a tree lie among its words
* `within_of_parse` — the places in the program of a source lie in the source
-/

namespace BlockScript

/-- The span is one of a text of `length` bytes. -/
structure Span.Within (length : Nat) (span : Span) : Prop where
  forward : span.start ≤ span.stop
  bound : span.stop ≤ length

/-! ## Places among words -/

/-- The place goes from the first of the words through the last one. -/
structure Covers (words : List Token) (span : Span) : Prop where
  start : ∃ first rest, words = first :: rest ∧ span.start = first.span.start
  stop : ∃ others last, words = others ++ [last] ∧ span.stop = last.span.stop

theorem Covers.token (token : Token) : Covers [token] token.span :=
  ⟨⟨token, [], rfl, rfl⟩, ⟨[], token, rfl, rfl⟩⟩

theorem Covers.append {words words' : List Token} {span span' : Span} (h : Covers words span)
    (between : List Token) (h' : Covers words' span') :
    Covers (words ++ between ++ words') (span.through span') := by
  obtain ⟨first, rest, rfl, hstart⟩ := h.start
  obtain ⟨others, last, rfl, hstop⟩ := h'.stop
  refine ⟨⟨first, _, rfl, hstart⟩, ⟨first :: rest ++ between ++ others, last, ?_, hstop⟩⟩
  rw [List.append_assoc _ others]

/-- The place goes from one of the words through another one or the same. -/
def Lies (words : List Token) (span : Span) : Prop := ∃ part, part <:+: words ∧ Covers part span

theorem Covers.lies {words : List Token} {span : Span} (h : Covers words span) : Lies words span :=
  ⟨words, List.infix_rfl, h⟩

theorem lies_of_part {spans : List Span} {words words' : List Token}
    (h : ∀ span ∈ spans, Lies words span) (hwords : words <:+: words') :
    ∀ span ∈ spans, Lies words' span := by
  intro span hspan
  obtain ⟨part, hpart, hcovers⟩ := h span hspan
  exact ⟨part, hpart.trans hwords, hcovers⟩

/-! ## Expressions -/

/-- The places in the expression lie among the words, and its own is that of all of them. -/
structure Expr.Laid (words : List Token) (tree : Expr) : Prop where
  covers : Covers words tree.span
  lies : ∀ span ∈ tree.spans, Lies words span

theorem Expr.Laid.unary {words : List Token} {operand : Expr} (operator : Token) (op : UnaryOp)
    (h : operand.Laid words) :
    (Expr.unary (operator.span.through operand.span) op operand).Laid (operator :: words) := by
  have hcovers : Covers (operator :: words) (operator.span.through operand.span) :=
    (Covers.token operator).append [] h.covers
  refine ⟨hcovers, List.forall_mem_cons.mpr ⟨hcovers.lies, ?_⟩⟩
  exact lies_of_part h.lies (List.suffix_cons operator words).isInfix

namespace Grammar

theorem Operation.laid_apply {words : List Token} {left : Expr} {o : Operation}
    (h : left.Laid words) (ho : o.right.Laid o.words) :
    (o.apply left).Laid (words ++ o.all) := by
  have hcovers : Covers (words ++ o.all) (left.span.through o.right.span) := by
    have h := h.covers.append [o.operator] ho.covers
    rwa [List.append_assoc] at h
  have hlies : ∀ span ∈ left.span.through o.right.span :: (left.spans ++ o.right.spans),
      Lies (words ++ o.all) span := by
    refine List.forall_mem_cons.mpr ⟨hcovers.lies, List.forall_mem_append.mpr ⟨?_, ?_⟩⟩
    · exact lies_of_part h.lies (List.prefix_append words o.all).isInfix
    · exact lies_of_part ho.lies ⟨words ++ [o.operator], [], by simp [Operation.all]⟩
  obtain ⟨operator, joint, others, right⟩ := o
  cases joint with
  | logical op => exact ⟨hcovers, hlies⟩
  | binary op => exact ⟨hcovers, hlies⟩

theorem Operation.laid_foldl {words : List Token} {first : Expr} {operations : List Operation}
    (h : first.Laid words) (hoperands : ∀ o ∈ operations, o.right.Laid o.words) :
    (operations.foldl Operation.apply first).Laid (words ++ operations.flatMap Operation.all) := by
  induction operations generalizing words first with
  | nil => simpa using h
  | cons o operations ih =>
    obtain ⟨ho, hoperands⟩ := List.forall_mem_cons.mp hoperands
    rw [List.foldl_cons, List.flatMap_cons, ← List.append_assoc]
    exact ih (laid_apply h ho) hoperands

theorem Separated.isInfix {items : List (List Token)} {words : List Token}
    (h : Separated items words) : ∀ item ∈ items, item <:+: words := by
  induction h with
  | none => exact fun _ h => absurd h List.not_mem_nil
  | one words => exact List.forall_mem_singleton.mpr List.infix_rfl
  | @more comma words others items _ _ _ ih =>
    refine List.forall_mem_cons.mpr ⟨(List.prefix_append words _).isInfix, fun item hitem => ?_⟩
    exact (ih item hitem).trans ⟨words ++ [comma], [], by simp⟩

theorem Arguments.laid_apply {words : List Token} {callee : Expr} {a : Arguments}
    (h : callee.Laid words) (hitems : ∀ i ∈ a.items, i.2.Laid i.1)
    (hwords : Separated (a.items.map Prod.fst) a.words) :
    (a.apply callee).Laid (words ++ a.all) := by
  have hcovers : Covers (words ++ a.all) (callee.span.through a.closing.span) := by
    have h := h.covers.append (a.opening :: a.words) (.token a.closing)
    rwa [List.append_assoc] at h
  refine ⟨hcovers, ?_⟩
  rw [Arguments.apply, Expr.spans, Expr.listSpans_eq]
  refine List.forall_mem_cons.mpr ⟨hcovers.lies, List.forall_mem_cons.mpr ⟨?_, ?_⟩⟩
  · have hpart : [a.closing] <:+: words ++ a.all :=
      ⟨words ++ a.opening :: a.words, [], by simp [Arguments.all]⟩
    exact ⟨_, hpart, .token a.closing⟩
  · refine List.forall_mem_append.mpr ⟨?_, ?_⟩
    · exact lies_of_part h.lies (List.prefix_append words a.all).isInfix
    · refine List.forall_mem_flatMap.mpr (List.forall_mem_map.mpr fun i hi => ?_)
      have hitem : i.1 <:+: a.words := hwords.isInfix i.1 (List.mem_map_of_mem hi)
      refine lies_of_part (hitems i hi).lies (hitem.trans ?_)
      exact ⟨words ++ [a.opening], [a.closing], by simp [Arguments.all]⟩

theorem Arguments.laid_foldl {words : List Token} {callee : Expr} {calls : List Arguments}
    (h : callee.Laid words) (hitems : ∀ c ∈ calls, ∀ i ∈ c.items, i.2.Laid i.1)
    (hwords : ∀ c ∈ calls, Separated (c.items.map Prod.fst) c.words) :
    (calls.foldl Arguments.apply callee).Laid (words ++ calls.flatMap Arguments.all) := by
  induction calls generalizing words callee with
  | nil => simpa using h
  | cons a calls ih =>
    obtain ⟨ha, hitems⟩ := List.forall_mem_cons.mp hitems
    obtain ⟨hwords, hothers⟩ := List.forall_mem_cons.mp hwords
    rw [List.foldl_cons, List.flatMap_cons, ← List.append_assoc]
    exact ih (laid_apply h ha hwords) hitems hothers

theorem Expression.laid {symbol : ExprSymbol} {words : List Token} {tree : Expr}
    (h : Expression symbol words tree) : tree.Laid words := by
  have hleaf {token : Token} : ∀ span ∈ [token.span], Lies [token] span :=
    List.forall_mem_singleton.mpr (Covers.token token).lies
  induction h with
  | @assign target equals words value _ _ _ ih =>
    have hcovers : Covers (target :: equals :: words) (target.span.through value.span) :=
      (Covers.token target).append [equals] ih.covers
    refine ⟨hcovers, List.forall_mem_cons.mpr ⟨hcovers.lies, ?_⟩⟩
    exact lies_of_part ih.lies (List.suffix_append [target, equals] words).isInfix
  | operand _ ih => exact ih
  | level _ _ _ ih ihs => exact Operation.laid_foldl ih ihs
  | tightest _ ih => exact ih
  | not _ _ ih => exact .unary _ _ ih
  | negate _ _ ih => exact .unary _ _ ih
  | unaryCall _ ih => exact ih
  | call _ _ _ hwords _ _ ih ihs => exact Arguments.laid_foldl ih ihs hwords
  | true _ => exact ⟨.token _, hleaf⟩
  | false _ => exact ⟨.token _, hleaf⟩
  | nil _ => exact ⟨.token _, hleaf⟩
  | literal _ _ => exact ⟨.token _, hleaf⟩
  | ident _ => exact ⟨.token _, hleaf⟩
  | @group opening closing words inner _ _ _ ih =>
    have hcovers : Covers (opening :: words ++ [closing]) (opening.span.through closing.span) :=
      (Covers.token opening).append words (.token closing)
    refine ⟨hcovers, List.forall_mem_cons.mpr ⟨hcovers.lies, ?_⟩⟩
    exact lies_of_part ih.lies (List.infix_append [opening] words [closing])

/-! ## Statements -/

theorem OptionalExpression.lies {words : List Token} {value : Option Expr}
    (h : OptionalExpression words value) :
    ∀ span ∈ value.toList.flatMap Expr.spans, Lies words span := by
  cases h with
  | none => exact fun _ h => absurd h List.not_mem_nil
  | some h => simpa using h.laid.lies

theorem InitialValue.lies {words : List Token} {value : Option Expr}
    (h : InitialValue words value) :
    ∀ span ∈ value.toList.flatMap Expr.spans, Lies words span := by
  cases h with
  | none => exact fun _ h => absurd h List.not_mem_nil
  | @some equals words tree _ h =>
    have h := lies_of_part h.laid.lies (List.suffix_cons equals words).isInfix
    simpa using h

end Grammar

/-- The places in the statement lie among the words, and its own is that of all of them. -/
structure Stmt.Laid (words : List Token) (tree : Stmt) : Prop where
  covers : Covers words tree.span
  outer : ∀ span ∈ tree.outerSpans, Lies words span
  inner : ∀ span ∈ tree.innerSpans, Lies words span

theorem Expr.span_mem_spans (e : Expr) : e.span ∈ e.spans := by
  cases e <;> simp [Expr.span, Expr.spans]

namespace Grammar

theorem lies_parts {parts : List (List Token × Stmt)} (h : ∀ d ∈ parts, d.2.Laid d.1) :
    let words := parts.flatMap Prod.fst
    (∀ span ∈ (parts.map Prod.snd).flatMap Stmt.outerSpans, Lies words span) ∧
      ∀ span ∈ (parts.map Prod.snd).flatMap Stmt.innerSpans, Lies words span := by
  have hpart {d : List Token × Stmt} (hd : d ∈ parts) : d.1 <:+: parts.flatMap Prod.fst := by
    rw [List.flatMap_def]
    exact List.infix_of_mem_flatten (List.mem_map_of_mem hd)
  constructor
  · refine List.forall_mem_flatMap.mpr (List.forall_mem_map.mpr fun d hd => ?_)
    exact lies_of_part (h d hd).outer (hpart hd)
  · refine List.forall_mem_flatMap.mpr (List.forall_mem_map.mpr fun d hd => ?_)
    exact lies_of_part (h d hd).inner (hpart hd)

theorem VarDecl.laid {words : List Token} {tree : Stmt} (h : VarDecl words tree) :
    tree.Laid words := by
  cases h with
  | @mk keyword name semicolon words value _ _ hvalue _ =>
    have hcovers : Covers (keyword :: name :: words ++ [semicolon])
        (keyword.span.through semicolon.span) :=
      (Covers.token keyword).append (name :: words) (.token semicolon)
    refine ⟨hcovers, ?_, fun _ h => absurd h List.not_mem_nil⟩
    rw [Stmt.outerSpans, Expr.listSpans_eq]
    refine List.forall_mem_cons.mpr ⟨hcovers.lies, ?_⟩
    exact lies_of_part hvalue.lies (List.infix_append [keyword, name] words [semicolon])

theorem ExprStmt.laid {words : List Token} {tree : Stmt} (h : ExprStmt words tree) :
    tree.Laid words := by
  cases h with
  | @mk words semicolon value hvalue _ =>
    have hcovers : Covers (words ++ [semicolon]) (value.span.through semicolon.span) := by
      simpa using hvalue.laid.covers.append [] (.token semicolon)
    refine ⟨hcovers, List.forall_mem_cons.mpr ⟨hcovers.lies, ?_⟩,
      fun _ h => absurd h List.not_mem_nil⟩
    exact lies_of_part hvalue.laid.lies (List.prefix_append words [semicolon]).isInfix

theorem ForInitial.lies {words : List Token} {init : Option Stmt} (h : ForInitial words init) :
    (∀ span ∈ init.toList.flatMap Stmt.outerSpans, Lies words span) ∧
      ∀ span ∈ init.toList.flatMap Stmt.innerSpans, Lies words span := by
  cases h with
  | none => exact ⟨fun _ h => absurd h List.not_mem_nil, fun _ h => absurd h List.not_mem_nil⟩
  | var h => simpa using ⟨h.laid.outer, h.laid.inner⟩
  | expr h => simpa using ⟨h.laid.outer, h.laid.inner⟩

theorem forall_outerSpans_forTree {P : Span → Prop} {span : Span} {init : Option Stmt}
    {cond : Option Expr} {semicolon : Token} {step : Option Expr} {body : Stmt} (hspan : P span)
    (hinit : ∀ span ∈ init.toList.flatMap Stmt.outerSpans, P span)
    (hcond : ∀ span ∈ cond.toList.flatMap Expr.spans, P span) (hsemicolon : P semicolon.span)
    (hstep : ∀ span ∈ step.toList.flatMap Expr.spans, P span)
    (hbody : ∀ span ∈ body.outerSpans, P span) :
    ∀ place ∈ (forTree span init cond semicolon step body).outerSpans, P place := by
  have hcond : ∀ span ∈ (cond.getD (.literal semicolon.span (.bool true))).spans, P span := by
    cases cond with
    | none => exact List.forall_mem_singleton.mpr hsemicolon
    | some e => simpa using hcond
  have hstep : ∀ span ∈ (step.map fun e => Stmt.expr e.span e).toList.flatMap Stmt.outerSpans,
      P span := by
    cases step with
    | none => exact fun _ h => absurd h List.not_mem_nil
    | some e =>
      have hstep : ∀ span ∈ e.spans, P span := by simpa using hstep
      have h := List.forall_mem_cons.mpr ⟨hstep _ e.span_mem_spans, hstep⟩
      simpa [Stmt.outerSpans] using h
  have hloop := List.forall_mem_cons.mpr ⟨hspan, List.forall_mem_append.mpr ⟨hcond,
    List.forall_mem_cons.mpr ⟨hspan, List.forall_mem_append.mpr ⟨hbody, hstep⟩⟩⟩⟩
  have h := List.forall_mem_cons.mpr ⟨hspan, List.forall_mem_append.mpr ⟨hinit, hloop⟩⟩
  simpa [forTree, Stmt.outerSpans] using h

theorem innerSpans_forTree (span : Span) (init : Option Stmt) (cond : Option Expr)
    (semicolon : Token) (step : Option Expr) (body : Stmt) :
    (forTree span init cond semicolon step body).innerSpans =
      init.toList.flatMap Stmt.innerSpans ++ body.innerSpans := by
  cases step <;> simp [forTree, Stmt.innerSpans]

theorem laid_forTree {keyword opening semicolon closing : Token}
    {initWords condWords stepWords words : List Token} {init : Option Stmt}
    {cond step : Option Expr} {body : Stmt} (hinit : ForInitial initWords init)
    (hcond : OptionalExpression condWords cond) (hstep : OptionalExpression stepWords step)
    (hbody : body.Laid words) :
    (forTree (keyword.span.through body.span) init cond semicolon step body).Laid
      (keyword :: opening :: initWords ++ condWords ++ semicolon :: stepWords ++
        closing :: words) := by
  generalize hall : keyword :: opening :: initWords ++ condWords ++ semicolon :: stepWords ++
    closing :: words = all
  have hcovers : Covers all (keyword.span.through body.span) := by
    have h := (Covers.token keyword).append
      (opening :: initWords ++ condWords ++ semicolon :: stepWords ++ [closing]) hbody.covers
    simpa [← hall] using h
  have hinitWords : initWords <:+: all :=
    ⟨[keyword, opening], condWords ++ semicolon :: stepWords ++ closing :: words, by simp [← hall]⟩
  have hcondWords : condWords <:+: all :=
    ⟨keyword :: opening :: initWords, semicolon :: stepWords ++ closing :: words, by simp [← hall]⟩
  have hsemicolon : [semicolon] <:+: all :=
    ⟨keyword :: opening :: initWords ++ condWords, stepWords ++ closing :: words, by simp [← hall]⟩
  have hstepWords : stepWords <:+: all :=
    ⟨keyword :: opening :: initWords ++ condWords ++ [semicolon], closing :: words,
      by simp [← hall]⟩
  have hwords : words <:+: all :=
    ⟨keyword :: opening :: initWords ++ condWords ++ semicolon :: stepWords ++ [closing], [],
      by simp [← hall]⟩
  refine ⟨hcovers, forall_outerSpans_forTree hcovers.lies ?_ ?_ ?_ ?_ ?_, ?_⟩
  · exact lies_of_part hinit.lies.1 hinitWords
  · exact lies_of_part hcond.lies hcondWords
  · exact ⟨_, hsemicolon, .token semicolon⟩
  · exact lies_of_part hstep.lies hstepWords
  · exact lies_of_part hbody.outer hwords
  · rw [innerSpans_forTree]
    exact List.forall_mem_append.mpr
      ⟨lies_of_part hinit.lies.2 hinitWords, lies_of_part hbody.inner hwords⟩

/-- What `if` and `while` have in common: a condition in parentheses before a statement. -/
theorem lies_guarded {keyword opening closing : Token} {condWords words : List Token} {cond : Expr}
    {body : Stmt} (hcond : cond.Laid condWords) (hbody : body.Laid words) :
    let all := keyword :: opening :: condWords ++ closing :: words
    let span := keyword.span.through body.span
    Covers all span ∧ (∀ place ∈ span :: (cond.spans ++ body.outerSpans), Lies all place) ∧
      ∀ place ∈ body.innerSpans, Lies all place := by
  intro all span
  have hcovers : Covers all span := by
    have h := (Covers.token keyword).append (opening :: condWords ++ [closing]) hbody.covers
    simpa [all, span] using h
  have hcondWords : condWords <:+: all := ⟨[keyword, opening], closing :: words, by simp [all]⟩
  have hwords : words <:+: all := ⟨keyword :: opening :: condWords ++ [closing], [], by simp [all]⟩
  refine ⟨hcovers, List.forall_mem_cons.mpr ⟨hcovers.lies, List.forall_mem_append.mpr ⟨?_, ?_⟩⟩, ?_⟩
  · exact lies_of_part hcond.lies hcondWords
  · exact lies_of_part hbody.outer hwords
  · exact lies_of_part hbody.inner hwords

theorem Statement.laid {attaches : Bool → Prop} {symbol : StmtSymbol} {inside : Bool}
    {words : List Token} {tree : Stmt} (h : Statement attaches symbol inside words tree) :
    tree.Laid words := by
  have hnone {words : List Token} : ∀ span ∈ [], Lies words span :=
    fun _ h => absurd h List.not_mem_nil
  induction h with
  | @funcDecl inside keyword name opening closing left right params words body _ _ _ _ _ _ _ _ _ _
      ih =>
    have hcovers : Covers
        (keyword :: name :: opening :: words ++ closing :: left :: body.flatMap Prod.fst ++ [right])
        (keyword.span.through right.span) :=
      (Covers.token keyword).append
        (name :: opening :: words ++ closing :: left :: body.flatMap Prod.fst) (.token right)
    have hbody : body.flatMap Prod.fst <:+:
        keyword :: name :: opening :: words ++ closing :: left :: body.flatMap Prod.fst ++
          [right] :=
      ⟨keyword :: name :: opening :: words ++ [closing, left], [right], by simp⟩
    obtain ⟨houter, hinner⟩ := lies_parts ih
    refine ⟨hcovers, List.forall_mem_singleton.mpr hcovers.lies, ?_⟩
    rw [Stmt.innerSpans, Stmt.listOuterSpans_eq, Stmt.listInnerSpans_eq]
    exact List.forall_mem_append.mpr ⟨lies_of_part houter hbody, lies_of_part hinner hbody⟩
  | varDecl h => exact h.laid
  | statement _ ih => exact ih
  | exprStmt h => exact h.laid
  | forStmt _ _ hinit hcond _ hstep _ _ ih => exact laid_forTree hinit hcond hstep ih
  | ifThen _ _ hcond _ _ ih =>
    obtain ⟨hcovers, houter, hinner⟩ := lies_guarded hcond.laid ih
    exact ⟨hcovers, houter, hinner⟩
  | @ifElse inside isOpen isOpen' keyword opening closing other condWords words words' cond yes no
      _ _ hcond _ _ _ _ _ ih ih' =>
    have hcovers : Covers
        (keyword :: opening :: condWords ++ closing :: words ++ other :: words')
        (keyword.span.through no.span) := by
      have h := (Covers.token keyword).append
        (opening :: condWords ++ closing :: words ++ [other]) ih'.covers
      simpa using h
    obtain ⟨-, houter, hinner⟩ := lies_guarded hcond.laid ih
    have hyes := (List.prefix_append (keyword :: opening :: condWords ++ closing :: words)
      (other :: words')).isInfix
    have hno : words' <:+: keyword :: opening :: condWords ++ closing :: words ++ other :: words' :=
      ⟨keyword :: opening :: condWords ++ closing :: words ++ [other], [], by simp⟩
    refine ⟨hcovers, List.forall_mem_cons.mpr ⟨hcovers.lies, List.forall_mem_append.mpr ⟨?_, ?_⟩⟩,
      List.forall_mem_append.mpr ⟨?_, ?_⟩⟩
    · exact lies_of_part (List.forall_mem_cons.mp houter).2 hyes
    · exact lies_of_part ih'.outer hno
    · exact lies_of_part hinner hyes
    · exact lies_of_part ih'.inner hno
  | @printStmt inside keyword semicolon words value _ hvalue _ =>
    have hcovers : Covers (keyword :: words ++ [semicolon]) (keyword.span.through semicolon.span) :=
      (Covers.token keyword).append words (.token semicolon)
    refine ⟨hcovers, List.forall_mem_cons.mpr ⟨hcovers.lies, ?_⟩, hnone⟩
    exact lies_of_part hvalue.laid.lies (List.infix_append [keyword] words [semicolon])
  | @returnStmt keyword semicolon words value _ hvalue _ =>
    have hcovers : Covers (keyword :: words ++ [semicolon]) (keyword.span.through semicolon.span) :=
      (Covers.token keyword).append words (.token semicolon)
    refine ⟨hcovers, ?_, hnone⟩
    rw [Stmt.outerSpans, Expr.listSpans_eq]
    refine List.forall_mem_cons.mpr ⟨hcovers.lies, ?_⟩
    exact lies_of_part hvalue.lies (List.infix_append [keyword] words [semicolon])
  | whileStmt _ _ hcond _ _ ih =>
    obtain ⟨hcovers, houter, hinner⟩ := lies_guarded hcond.laid ih
    exact ⟨hcovers, houter, hinner⟩
  | @block inside left right body _ _ _ ih =>
    have hcovers : Covers (left :: body.flatMap Prod.fst ++ [right])
        (left.span.through right.span) :=
      (Covers.token left).append (body.flatMap Prod.fst) (.token right)
    have hbody := List.infix_append [left] (body.flatMap Prod.fst) [right]
    obtain ⟨houter, hinner⟩ := lies_parts ih
    refine ⟨hcovers, ?_, ?_⟩
    · rw [Stmt.outerSpans, Stmt.listOuterSpans_eq]
      exact List.forall_mem_cons.mpr ⟨hcovers.lies, lies_of_part houter hbody⟩
    · rw [Stmt.innerSpans, Stmt.listInnerSpans_eq]
      exact lies_of_part hinner hbody

end Grammar

/-! ## Words in their order -/

/-- The words stand one after the other in a text of `length` bytes. -/
structure Token.InOrder (length : Nat) (words : List Token) : Prop where
  within : ∀ word ∈ words, word.span.Within length
  sorted : words.Pairwise fun a b => a.span.stop ≤ b.span.start

theorem Token.InOrder.mono {length : Nat} {part words : List Token}
    (h : Token.InOrder length words) (hpart : part <:+: words) : Token.InOrder length part :=
  ⟨fun word hword => h.within word (hpart.subset hword), h.sorted.sublist hpart.sublist⟩

theorem Covers.within {words : List Token} {span : Span} {length : Nat} (h : Covers words span)
    (hwords : Token.InOrder length words) : span.Within length := by
  obtain ⟨first, rest, hfirst, hstart⟩ := h.start
  obtain ⟨others, last, hlast, hstop⟩ := h.stop
  have hlastin := hwords.within last (by simp [hlast])
  refine ⟨?_, hstop ▸ hlastin.bound⟩
  rw [hstart, hstop]
  cases others with
  | nil =>
    obtain ⟨rfl, -⟩ : first = last ∧ _ := List.cons.inj (hfirst.symm.trans hlast)
    exact hlastin.forward
  | cons word others =>
    obtain ⟨rfl, -⟩ : first = word ∧ _ := List.cons.inj (hfirst.symm.trans hlast)
    have hfirstin := hwords.within first (by simp [hfirst])
    have hsorted := hwords.sorted
    rw [hlast, List.cons_append, List.pairwise_cons] at hsorted
    have hbefore := hsorted.1 last (by simp)
    exact Nat.le_trans hfirstin.forward (Nat.le_trans hbefore hlastin.forward)

theorem Lies.within {words : List Token} {span : Span} {length : Nat} (h : Lies words span)
    (hwords : Token.InOrder length words) : span.Within length := by
  obtain ⟨part, hpart, hcovers⟩ := h
  exact hcovers.within (hwords.mono hpart)

namespace Piece

/-- The number of bytes of a sequence of pieces. -/
def totalLength (ps : List Piece) : Nat := Text.byteLength (ps.flatMap text)

theorem mem_place {start line : Nat} {ps : List Piece} {placed : Placed}
    (h : placed ∈ place start line ps) :
    start ≤ placed.start ∧ placed.span.stop ≤ start + totalLength ps := by
  induction ps generalizing start line with
  | nil => exact absurd h List.not_mem_nil
  | cons p ps ih =>
    have hlength : totalLength (p :: ps) = Text.byteLength p.text + totalLength ps := by
      simp [totalLength]
    rw [place, List.mem_cons] at h
    obtain rfl | h := h
    · simp only [Placed.span]
      omega
    · have := ih h
      omega

theorem pairwise_place (start line : Nat) (ps : List Piece) :
    (place start line ps).Pairwise fun p q => p.span.stop ≤ q.span.start := by
  induction ps generalizing start line with
  | nil => exact .nil
  | cons p ps ih =>
    rw [place, List.pairwise_cons]
    exact ⟨fun placed hplaced => (mem_place hplaced).1, ih _ _⟩

theorem Placed.span_of_token? {placed : Placed} {token : Token} (h : placed.token? = some token) :
    token.span = placed.span := by
  rw [Placed.token?] at h
  split at h
  · injection h with h
    rw [← h]
  · cases h

end Piece

theorem inOrder_words (source : String) : Token.InOrder source.utf8ByteSize (words source) := by
  constructor
  · intro word hword
    obtain ⟨placed, hplaced, hword⟩ := List.mem_filterMap.mp hword
    have hbound := (Piece.mem_place hplaced).2
    rw [Piece.totalLength, Piece.flatMap_split, ← Text.utf8ByteSize_eq_byteLength, Nat.zero_add]
      at hbound
    rw [Piece.Placed.span_of_token? hword]
    exact ⟨Nat.le_add_right _ _, hbound⟩
  · refine List.pairwise_filterMap.mpr ((Piece.pairwise_place _ _ _).imp ?_)
    intro p q hpq a ha b hb
    rw [Piece.Placed.span_of_token? ha, Piece.Placed.span_of_token? hb]
    exact hpq

/-- **Every place in the program of a source lies in the source.** -/
theorem within_of_parse {source : String} {program : Program} (h : parse source = .ok program) :
    (∀ span ∈ program.flatMap Stmt.outerSpans, span.Within source.utf8ByteSize) ∧
      ∀ span ∈ program.flatMap Stmt.innerSpans, span.Within source.utf8ByteSize := by
  obtain ⟨parts, hparts, hwords, rfl⟩ := (parse_eq_ok_iff.mp h).2
  obtain ⟨houter, hinner⟩ := Grammar.lies_parts fun d hd => (hparts d hd).laid
  rw [← hwords] at houter hinner
  exact ⟨fun span hspan => (houter span hspan).within (inOrder_words source),
    fun span hspan => (hinner span hspan).within (inOrder_words source)⟩

end BlockScript
