import Mathlib.Data.List.Forall2
import BlockScript.Tree

/-!
# Trees and their places

Every node of a tree has a place, the span of its text. What a program does should not depend on
where its text stands, and this file says what it means for two trees to differ in their places
only: they are *alike*. Which places may stand for which is left open, as a relation `R` between
spans.

The relation does two jobs. With a relation that always holds, alike trees are the same text in
different places. With a part of the identity relation, a tree that is alike to itself is one whose
places all belong to a certain set. So what is proved of alike trees once says both that places do
not matter and where the places of a fault can come from.

A function keeps its body after the statement that declared it is done, so a statement has two
relations: one for the places in bodies of functions, and one for all the others.

## Main definitions

* `Expr.mapSpans`, `Stmt.mapSpans` — a tree with its places moved
* `Expr.spans`, `Stmt.outerSpans`, `Stmt.innerSpans` — the places of a tree
* `Expr.Alike`, `Stmt.Alike` — trees that differ in their places only
* `AnyPlace` — the relation that always holds

## Main results

* `Expr.ind`, `Stmt.ind` — induction on trees, with a hypothesis for each member of a list
* `Stmt.alike_mapSpans` — when a tree that was moved is alike to what it was
* `Stmt.alike_self` — when a tree is alike to itself
-/

namespace BlockScript

/-! ## Induction on trees -/

section

variable {motive : Expr → Prop} (literal : ∀ span value, motive (.literal span value))
  (ident : ∀ span name, motive (.ident span name))
  (assign : ∀ span name value, motive value → motive (.assign span name value))
  (unary : ∀ span op operand, motive operand → motive (.unary span op operand))
  (binary : ∀ span op left right, motive left → motive right → motive (.binary span op left right))
  (logical : ∀ span op left right, motive left → motive right →
    motive (.logical span op left right))
  (group : ∀ span inner, motive inner → motive (.group span inner))
  (call : ∀ span paren callee args, motive callee → (∀ a ∈ args, motive a) →
    motive (.call span paren callee args))
include literal ident assign unary binary logical group call

/-- Induction on expressions. The arguments of a call are dealt with one by one. -/
@[elab_as_elim] theorem Expr.ind (e : Expr) : motive e :=
  @Expr.rec motive (fun args => ∀ a ∈ args, motive a) literal ident assign unary binary logical
    group call (fun _ h => absurd h List.not_mem_nil)
    (fun _ _ hhead htail => List.forall_mem_cons.mpr ⟨hhead, htail⟩) e

end

section

variable {motive : Stmt → Prop}
  (block : ∀ span body, (∀ b ∈ body, motive b) → motive (.block span body))
  (expr : ∀ span value, motive (.expr span value))
  (func : ∀ span name params body, (∀ b ∈ body, motive b) → motive (.func span name params body))
  (ifThen : ∀ span cond yes, motive yes → motive (.ifThen span cond yes))
  (ifElse : ∀ span cond yes no, motive yes → motive no → motive (.ifElse span cond yes no))
  (print : ∀ span value, motive (.print span value))
  (ret : ∀ span value, motive (.ret span value))
  (var : ∀ span name value, motive (.var span name value))
  (whileDo : ∀ span cond body, motive body → motive (.whileDo span cond body))
include block expr func ifThen ifElse print ret var whileDo

/-- Induction on statements. The statements of a block or a function are dealt with one by one. -/
@[elab_as_elim] theorem Stmt.ind (s : Stmt) : motive s :=
  @Stmt.rec motive (fun body => ∀ b ∈ body, motive b) block expr func ifThen ifElse print ret var
    whileDo (fun _ h => absurd h List.not_mem_nil)
    (fun _ _ hhead htail => List.forall_mem_cons.mpr ⟨hhead, htail⟩) s

end

/-! ## Moved trees -/

section

variable (f : Span → Span)

mutual

/-- An expression with its places moved. -/
def Expr.mapSpans : Expr → Expr
  | .literal span value => .literal (f span) value
  | .ident span name => .ident (f span) name
  | .assign span name value => .assign (f span) name value.mapSpans
  | .unary span op operand => .unary (f span) op operand.mapSpans
  | .binary span op left right => .binary (f span) op left.mapSpans right.mapSpans
  | .logical span op left right => .logical (f span) op left.mapSpans right.mapSpans
  | .group span inner => .group (f span) inner.mapSpans
  | .call span paren callee args =>
    .call (f span) (f paren) callee.mapSpans (Expr.listMapSpans args)

/-- Expressions with their places moved. -/
def Expr.listMapSpans : List Expr → List Expr
  | [] => []
  | e :: es => e.mapSpans :: Expr.listMapSpans es

end

mutual

/-- A statement with its places moved. -/
def Stmt.mapSpans : Stmt → Stmt
  | .block span body => .block (f span) (Stmt.listMapSpans body)
  | .expr span value => .expr (f span) (value.mapSpans f)
  | .func span name params body => .func (f span) name params (Stmt.listMapSpans body)
  | .ifThen span cond yes => .ifThen (f span) (cond.mapSpans f) yes.mapSpans
  | .ifElse span cond yes no => .ifElse (f span) (cond.mapSpans f) yes.mapSpans no.mapSpans
  | .print span value => .print (f span) (value.mapSpans f)
  | .ret span value => .ret (f span) (value.map (Expr.mapSpans f))
  | .var span name value => .var (f span) name (value.map (Expr.mapSpans f))
  | .whileDo span cond body => .whileDo (f span) (cond.mapSpans f) body.mapSpans

/-- Statements with their places moved. -/
def Stmt.listMapSpans : List Stmt → List Stmt
  | [] => []
  | s :: ss => s.mapSpans :: Stmt.listMapSpans ss

end

@[simp] theorem Expr.listMapSpans_eq (es : List Expr) :
    Expr.listMapSpans f es = es.map (Expr.mapSpans f) := by
  induction es with
  | nil => rfl
  | cons e es ih => rw [Expr.listMapSpans, ih, List.map_cons]

@[simp] theorem Stmt.listMapSpans_eq (ss : List Stmt) :
    Stmt.listMapSpans f ss = ss.map (Stmt.mapSpans f) := by
  induction ss with
  | nil => rfl
  | cons s ss ih => rw [Stmt.listMapSpans, ih, List.map_cons]

@[simp] theorem Expr.span_mapSpans (e : Expr) : (e.mapSpans f).span = f e.span := by
  cases e <;> rfl

@[simp] theorem Stmt.span_mapSpans (s : Stmt) : (s.mapSpans f).span = f s.span := by
  cases s <;> rfl

end

theorem Expr.mapSpans_id (e : Expr) : e.mapSpans id = e := by
  induction e using Expr.ind with
  | literal | ident => rfl
  | assign span name value ih => rw [Expr.mapSpans, ih, id]
  | unary span op operand ih => rw [Expr.mapSpans, ih, id]
  | binary span op left right ihl ihr => rw [Expr.mapSpans, ihl, ihr, id]
  | logical span op left right ihl ihr => rw [Expr.mapSpans, ihl, ihr, id]
  | group span inner ih => rw [Expr.mapSpans, ih, id]
  | call span paren callee args ih ihargs =>
    rw [Expr.mapSpans, Expr.listMapSpans_eq, ih, List.map_congr_left ihargs, List.map_id']
    rfl

theorem Stmt.mapSpans_id (s : Stmt) : s.mapSpans id = s := by
  induction s using Stmt.ind with
  | block span body ih =>
    rw [Stmt.mapSpans, Stmt.listMapSpans_eq, List.map_congr_left ih, List.map_id', id]
  | expr span value => rw [Stmt.mapSpans, Expr.mapSpans_id, id]
  | func span name params body ih =>
    rw [Stmt.mapSpans, Stmt.listMapSpans_eq, List.map_congr_left ih, List.map_id', id]
  | ifThen span cond yes ih => rw [Stmt.mapSpans, Expr.mapSpans_id, ih, id]
  | ifElse span cond yes no ih ih' => rw [Stmt.mapSpans, Expr.mapSpans_id, ih, ih', id]
  | print span value => rw [Stmt.mapSpans, Expr.mapSpans_id, id]
  | ret span value =>
    rw [Stmt.mapSpans, funext Expr.mapSpans_id, id]
    cases value <;> rfl
  | var span name value =>
    rw [Stmt.mapSpans, funext Expr.mapSpans_id, id]
    cases value <;> rfl
  | whileDo span cond body ih => rw [Stmt.mapSpans, Expr.mapSpans_id, ih, id]

/-! ## The places of a tree -/

mutual

/-- All places in an expression, those of the closing parentheses of calls among them. -/
def Expr.spans : Expr → List Span
  | .literal span _ | .ident span _ => [span]
  | .assign span _ value => span :: value.spans
  | .unary span _ operand => span :: operand.spans
  | .binary span _ left right => span :: (left.spans ++ right.spans)
  | .logical span _ left right => span :: (left.spans ++ right.spans)
  | .group span inner => span :: inner.spans
  | .call span paren callee args => span :: paren :: (callee.spans ++ Expr.listSpans args)

/-- All places in a sequence of expressions. -/
def Expr.listSpans : List Expr → List Span
  | [] => []
  | e :: es => e.spans ++ Expr.listSpans es

end

mutual

/-- The places in a statement that are not in the body of a function. -/
def Stmt.outerSpans : Stmt → List Span
  | .block span body => span :: Stmt.listOuterSpans body
  | .expr span value => span :: value.spans
  | .func span .. => [span]
  | .ifThen span cond yes => span :: (cond.spans ++ yes.outerSpans)
  | .ifElse span cond yes no => span :: (cond.spans ++ yes.outerSpans ++ no.outerSpans)
  | .print span value => span :: value.spans
  | .ret span value => span :: Expr.listSpans value.toList
  | .var span _ value => span :: Expr.listSpans value.toList
  | .whileDo span cond body => span :: (cond.spans ++ body.outerSpans)

/-- The places in a sequence of statements that are not in the body of a function. -/
def Stmt.listOuterSpans : List Stmt → List Span
  | [] => []
  | s :: ss => s.outerSpans ++ Stmt.listOuterSpans ss

end

mutual

/-- The places in the bodies of the functions that a statement declares. -/
def Stmt.innerSpans : Stmt → List Span
  | .block _ body => Stmt.listInnerSpans body
  | .func _ _ _ body => Stmt.listOuterSpans body ++ Stmt.listInnerSpans body
  | .ifThen _ _ yes => yes.innerSpans
  | .ifElse _ _ yes no => yes.innerSpans ++ no.innerSpans
  | .whileDo _ _ body => body.innerSpans
  | .expr .. | .print .. | .ret .. | .var .. => []

/-- The places in the bodies of the functions that a sequence of statements declares. -/
def Stmt.listInnerSpans : List Stmt → List Span
  | [] => []
  | s :: ss => s.innerSpans ++ Stmt.listInnerSpans ss

end

@[simp] theorem Expr.listSpans_eq (es : List Expr) : Expr.listSpans es = es.flatMap Expr.spans := by
  induction es with
  | nil => rfl
  | cons e es ih => rw [Expr.listSpans, ih, List.flatMap_cons]

@[simp] theorem Stmt.listOuterSpans_eq (ss : List Stmt) :
    Stmt.listOuterSpans ss = ss.flatMap Stmt.outerSpans := by
  induction ss with
  | nil => rfl
  | cons s ss ih => rw [Stmt.listOuterSpans, ih, List.flatMap_cons]

@[simp] theorem Stmt.listInnerSpans_eq (ss : List Stmt) :
    Stmt.listInnerSpans ss = ss.flatMap Stmt.innerSpans := by
  induction ss with
  | nil => rfl
  | cons s ss ih => rw [Stmt.listInnerSpans, ih, List.flatMap_cons]

/-! ## Alike trees -/

/-- The expressions are the same but for their places, which are related by `R`. -/
inductive Expr.Alike (R : Span → Span → Prop) : Expr → Expr → Prop where
  | literal {span span' : Span} {value : Constant} (h : R span span') :
      Alike R (.literal span value) (.literal span' value)
  | ident {span span' : Span} {name : String} (h : R span span') :
      Alike R (.ident span name) (.ident span' name)
  | assign {span span' : Span} {name : String} {value value' : Expr} (h : R span span')
      (hvalue : Alike R value value') :
      Alike R (.assign span name value) (.assign span' name value')
  | unary {span span' : Span} {op : UnaryOp} {operand operand' : Expr} (h : R span span')
      (hoperand : Alike R operand operand') :
      Alike R (.unary span op operand) (.unary span' op operand')
  | binary {span span' : Span} {op : BinaryOp} {left left' right right' : Expr} (h : R span span')
      (hleft : Alike R left left') (hright : Alike R right right') :
      Alike R (.binary span op left right) (.binary span' op left' right')
  | logical {span span' : Span} {op : LogicalOp} {left left' right right' : Expr}
      (h : R span span') (hleft : Alike R left left') (hright : Alike R right right') :
      Alike R (.logical span op left right) (.logical span' op left' right')
  | group {span span' : Span} {inner inner' : Expr} (h : R span span')
      (hinner : Alike R inner inner') : Alike R (.group span inner) (.group span' inner')
  | call {span span' paren paren' : Span} {callee callee' : Expr} {args : List (Expr × Expr)}
      (h : R span span') (hparen : R paren paren') (hcallee : Alike R callee callee')
      (hargs : ∀ a ∈ args, Alike R a.1 a.2) :
      Alike R (.call span paren callee (args.map Prod.fst))
        (.call span' paren' callee' (args.map Prod.snd))

/-- The statements are the same but for their places. Those in the bodies of functions are related
by `R`, and the others by the second relation. -/
inductive Stmt.Alike (R : Span → Span → Prop) : (Span → Span → Prop) → Stmt → Stmt → Prop where
  | block {Q : Span → Span → Prop} {span span' : Span} {body : List (Stmt × Stmt)}
      (h : Q span span') (hbody : ∀ b ∈ body, Alike R Q b.1 b.2) :
      Alike R Q (.block span (body.map Prod.fst)) (.block span' (body.map Prod.snd))
  | expr {Q : Span → Span → Prop} {span span' : Span} {value value' : Expr} (h : Q span span')
      (hvalue : Expr.Alike Q value value') : Alike R Q (.expr span value) (.expr span' value')
  | func {Q : Span → Span → Prop} {span span' : Span} {name : String} {params : List String}
      {body : List (Stmt × Stmt)} (h : Q span span') (hbody : ∀ b ∈ body, Alike R R b.1 b.2) :
      Alike R Q (.func span name params (body.map Prod.fst))
        (.func span' name params (body.map Prod.snd))
  | ifThen {Q : Span → Span → Prop} {span span' : Span} {cond cond' : Expr} {yes yes' : Stmt}
      (h : Q span span') (hcond : Expr.Alike Q cond cond') (hyes : Alike R Q yes yes') :
      Alike R Q (.ifThen span cond yes) (.ifThen span' cond' yes')
  | ifElse {Q : Span → Span → Prop} {span span' : Span} {cond cond' : Expr}
      {yes yes' no no' : Stmt} (h : Q span span') (hcond : Expr.Alike Q cond cond')
      (hyes : Alike R Q yes yes') (hno : Alike R Q no no') :
      Alike R Q (.ifElse span cond yes no) (.ifElse span' cond' yes' no')
  | print {Q : Span → Span → Prop} {span span' : Span} {value value' : Expr} (h : Q span span')
      (hvalue : Expr.Alike Q value value') : Alike R Q (.print span value) (.print span' value')
  | ret {Q : Span → Span → Prop} {span span' : Span} {value value' : Option Expr}
      (h : Q span span') (hvalue : Option.Rel (Expr.Alike Q) value value') :
      Alike R Q (.ret span value) (.ret span' value')
  | var {Q : Span → Span → Prop} {span span' : Span} {name : String} {value value' : Option Expr}
      (h : Q span span') (hvalue : Option.Rel (Expr.Alike Q) value value') :
      Alike R Q (.var span name value) (.var span' name value')
  | whileDo {Q : Span → Span → Prop} {span span' : Span} {cond cond' : Expr} {body body' : Stmt}
      (h : Q span span') (hcond : Expr.Alike Q cond cond') (hbody : Alike R Q body body') :
      Alike R Q (.whileDo span cond body) (.whileDo span' cond' body')

/-- Any place may stand for any other. -/
def AnyPlace (_ _ : Span) : Prop := True

/-! ### Lists of alike trees

The members of a list are kept in pairs in the definitions above, so that an induction reaches each
of them. Everywhere else `List.Forall₂` says the same. -/

theorem forall₂_of_pairs {α β : Type} {P : α → β → Prop} {pairs : List (α × β)}
    (h : ∀ p ∈ pairs, P p.1 p.2) : List.Forall₂ P (pairs.map Prod.fst) (pairs.map Prod.snd) := by
  induction pairs with
  | nil => exact .nil
  | cons p pairs ih =>
    obtain ⟨hp, hpairs⟩ := List.forall_mem_cons.mp h
    exact .cons hp (ih hpairs)

theorem exists_pairs {α β : Type} {P : α → β → Prop} {as : List α} {bs : List β}
    (h : List.Forall₂ P as bs) :
    ∃ pairs : List (α × β), as = pairs.map Prod.fst ∧ bs = pairs.map Prod.snd ∧
      ∀ p ∈ pairs, P p.1 p.2 := by
  induction h with
  | nil => exact ⟨[], rfl, rfl, fun _ h => absurd h List.not_mem_nil⟩
  | @cons a b as bs hab _ ih =>
    obtain ⟨pairs, rfl, rfl, hpairs⟩ := ih
    exact ⟨(a, b) :: pairs, rfl, rfl, List.forall_mem_cons.mpr ⟨hab, hpairs⟩⟩

/-- A list and its image under a function. -/
theorem forall₂_map {α : Type} {P : α → α → Prop} {g : α → α} {as : List α}
    (h : ∀ a ∈ as, P a (g a)) : List.Forall₂ P as (as.map g) := by
  rw [List.forall₂_map_right_iff]
  exact List.forall₂_same.mpr h

section

variable {R Q : Span → Span → Prop} {span span' : Span}

theorem Expr.Alike.call_of_forall₂ {paren paren' : Span} {callee callee' : Expr}
    {args args' : List Expr} (h : R span span') (hparen : R paren paren')
    (hcallee : Alike R callee callee') (hargs : List.Forall₂ (Alike R) args args') :
    Alike R (.call span paren callee args) (.call span' paren' callee' args') := by
  obtain ⟨pairs, rfl, rfl, hpairs⟩ := exists_pairs hargs
  exact .call h hparen hcallee hpairs

theorem Stmt.Alike.block_of_forall₂ {body body' : List Stmt} (h : Q span span')
    (hbody : List.Forall₂ (Alike R Q) body body') :
    Alike R Q (.block span body) (.block span' body') := by
  obtain ⟨pairs, rfl, rfl, hpairs⟩ := exists_pairs hbody
  exact .block h hpairs

theorem Stmt.Alike.func_of_forall₂ {name : String} {params : List String} {body body' : List Stmt}
    (h : Q span span') (hbody : List.Forall₂ (Alike R R) body body') :
    Alike R Q (.func span name params body) (.func span' name params body') := by
  obtain ⟨pairs, rfl, rfl, hpairs⟩ := exists_pairs hbody
  exact .func h hpairs

end

/-! ### Moved trees are alike -/

section

variable {f : Span → Span} {R Q : Span → Span → Prop}

theorem Expr.alike_mapSpans (e : Expr) (hf : ∀ span ∈ e.spans, R span (f span)) :
    Expr.Alike R e (e.mapSpans f) := by
  induction e using Expr.ind with
  | literal span value => exact .literal (hf span (by simp [Expr.spans]))
  | ident span name => exact .ident (hf span (by simp [Expr.spans]))
  | assign span name value ih =>
    obtain ⟨h, hvalue⟩ := List.forall_mem_cons.mp hf
    exact .assign h (ih hvalue)
  | unary span op operand ih =>
    obtain ⟨h, hoperand⟩ := List.forall_mem_cons.mp hf
    exact .unary h (ih hoperand)
  | binary span op left right ihl ihr =>
    obtain ⟨h, hboth⟩ := List.forall_mem_cons.mp hf
    obtain ⟨hleft, hright⟩ := List.forall_mem_append.mp hboth
    exact .binary h (ihl hleft) (ihr hright)
  | logical span op left right ihl ihr =>
    obtain ⟨h, hboth⟩ := List.forall_mem_cons.mp hf
    obtain ⟨hleft, hright⟩ := List.forall_mem_append.mp hboth
    exact .logical h (ihl hleft) (ihr hright)
  | group span inner ih =>
    obtain ⟨h, hinner⟩ := List.forall_mem_cons.mp hf
    exact .group h (ih hinner)
  | call span paren callee args ih ihargs =>
    rw [Expr.spans, Expr.listSpans_eq] at hf
    obtain ⟨h, hf⟩ := List.forall_mem_cons.mp hf
    obtain ⟨hparen, hf⟩ := List.forall_mem_cons.mp hf
    obtain ⟨hcallee, hargs⟩ := List.forall_mem_append.mp hf
    rw [Expr.mapSpans, Expr.listMapSpans_eq]
    refine .call_of_forall₂ h hparen (ih hcallee) (forall₂_map fun a ha => ihargs a ha ?_)
    exact fun span hspan => hargs span (List.mem_flatMap.mpr ⟨a, ha, hspan⟩)

theorem Expr.option_alike_mapSpans (value : Option Expr)
    (hf : ∀ span ∈ Expr.listSpans value.toList, R span (f span)) :
    Option.Rel (Expr.Alike R) value (value.map (Expr.mapSpans f)) := by
  cases value with
  | none => exact .none
  | some e => exact .some (e.alike_mapSpans fun span hspan => hf span (by simp [hspan]))

/-- A statement whose places are moved is alike. -/
theorem Stmt.alike_mapSpans (s : Stmt) (hQ : ∀ span ∈ s.outerSpans, Q span (f span))
    (hR : ∀ span ∈ s.innerSpans, R span (f span)) : Stmt.Alike R Q s (s.mapSpans f) := by
  induction s using Stmt.ind generalizing Q with
  | block span body ih =>
    rw [Stmt.outerSpans, Stmt.listOuterSpans_eq] at hQ
    rw [Stmt.innerSpans, Stmt.listInnerSpans_eq] at hR
    obtain ⟨h, hbody⟩ := List.forall_mem_cons.mp hQ
    rw [Stmt.mapSpans, Stmt.listMapSpans_eq]
    exact .block_of_forall₂ h (forall₂_map fun b hb => ih b hb
      (fun span hspan => hbody span (List.mem_flatMap.mpr ⟨b, hb, hspan⟩))
      fun span hspan => hR span (List.mem_flatMap.mpr ⟨b, hb, hspan⟩))
  | expr span value =>
    obtain ⟨h, hvalue⟩ := List.forall_mem_cons.mp hQ
    exact .expr h (value.alike_mapSpans hvalue)
  | func span name params body ih =>
    rw [Stmt.innerSpans, Stmt.listOuterSpans_eq, Stmt.listInnerSpans_eq] at hR
    obtain ⟨houter, hinner⟩ := List.forall_mem_append.mp hR
    rw [Stmt.mapSpans, Stmt.listMapSpans_eq]
    exact .func_of_forall₂ (hQ span (by simp [Stmt.outerSpans])) (forall₂_map fun b hb => ih b hb
      (fun span hspan => houter span (List.mem_flatMap.mpr ⟨b, hb, hspan⟩))
      fun span hspan => hinner span (List.mem_flatMap.mpr ⟨b, hb, hspan⟩))
  | ifThen span cond yes ih =>
    obtain ⟨h, hboth⟩ := List.forall_mem_cons.mp hQ
    obtain ⟨hcond, hyes⟩ := List.forall_mem_append.mp hboth
    exact .ifThen h (cond.alike_mapSpans hcond) (ih hyes hR)
  | ifElse span cond yes no ihyes ihno =>
    obtain ⟨h, hall⟩ := List.forall_mem_cons.mp hQ
    obtain ⟨hboth, hno⟩ := List.forall_mem_append.mp hall
    obtain ⟨hcond, hyes⟩ := List.forall_mem_append.mp hboth
    obtain ⟨hyes', hno'⟩ := List.forall_mem_append.mp hR
    exact .ifElse h (cond.alike_mapSpans hcond) (ihyes hyes hyes') (ihno hno hno')
  | print span value =>
    obtain ⟨h, hvalue⟩ := List.forall_mem_cons.mp hQ
    exact .print h (value.alike_mapSpans hvalue)
  | ret span value =>
    obtain ⟨h, hvalue⟩ := List.forall_mem_cons.mp hQ
    exact .ret h (Expr.option_alike_mapSpans value hvalue)
  | var span name value =>
    obtain ⟨h, hvalue⟩ := List.forall_mem_cons.mp hQ
    exact .var h (Expr.option_alike_mapSpans value hvalue)
  | whileDo span cond body ih =>
    obtain ⟨h, hboth⟩ := List.forall_mem_cons.mp hQ
    obtain ⟨hcond, hbody⟩ := List.forall_mem_append.mp hboth
    exact .whileDo h (cond.alike_mapSpans hcond) (ih hbody hR)

/-- An expression is alike to itself if its places are related to themselves. -/
theorem Expr.alike_self (e : Expr) (h : ∀ span ∈ e.spans, R span span) : Expr.Alike R e e := by
  have h := e.alike_mapSpans (f := id) h
  rwa [Expr.mapSpans_id] at h

/-- A statement is alike to itself if its places are related to themselves. -/
theorem Stmt.alike_self (s : Stmt) (hQ : ∀ span ∈ s.outerSpans, Q span span)
    (hR : ∀ span ∈ s.innerSpans, R span span) : Stmt.Alike R Q s s := by
  have h := s.alike_mapSpans (f := id) hQ hR
  rwa [Stmt.mapSpans_id] at h

end

/-! ### Alike trees with the same places -/

theorem Expr.eq_of_alike {R : Span → Span → Prop} (hR : ∀ span span', R span span' → span = span')
    {e e' : Expr} (h : Expr.Alike R e e') : e = e' := by
  induction h with
  | literal h | ident h => rw [hR _ _ h]
  | assign h _ ih | unary h _ ih | group h _ ih => rw [hR _ _ h, ih]
  | binary h _ _ ihl ihr | logical h _ _ ihl ihr => rw [hR _ _ h, ihl, ihr]
  | call h hparen _ _ ih ihargs => rw [hR _ _ h, hR _ _ hparen, ih, List.map_congr_left ihargs]

theorem Expr.option_eq_of_alike {R : Span → Span → Prop}
    (hR : ∀ span span', R span span' → span = span') {e e' : Option Expr}
    (h : Option.Rel (Expr.Alike R) e e') : e = e' := by
  cases h with
  | none => rfl
  | some h => rw [Expr.eq_of_alike hR h]

/-- Alike statements are equal if only equal places are related. -/
theorem Stmt.eq_of_alike {R Q : Span → Span → Prop}
    (hR : ∀ span span', R span span' → span = span') {s s' : Stmt} (h : Stmt.Alike R Q s s') :
    (∀ span span', Q span span' → span = span') → s = s' := by
  induction h with
  | block h _ ih =>
    intro hQ
    rw [hQ _ _ h, List.map_congr_left fun b hb => ih b hb hQ]
  | expr h hvalue =>
    intro hQ
    rw [hQ _ _ h, Expr.eq_of_alike hQ hvalue]
  | func h _ ih =>
    intro hQ
    rw [hQ _ _ h, List.map_congr_left fun b hb => ih b hb hR]
  | ifThen h hcond _ ih =>
    intro hQ
    rw [hQ _ _ h, Expr.eq_of_alike hQ hcond, ih hQ]
  | ifElse h hcond _ _ ihyes ihno =>
    intro hQ
    rw [hQ _ _ h, Expr.eq_of_alike hQ hcond, ihyes hQ, ihno hQ]
  | print h hvalue =>
    intro hQ
    rw [hQ _ _ h, Expr.eq_of_alike hQ hvalue]
  | ret h hvalue =>
    intro hQ
    rw [hQ _ _ h, Expr.option_eq_of_alike hQ hvalue]
  | var h hvalue =>
    intro hQ
    rw [hQ _ _ h, Expr.option_eq_of_alike hQ hvalue]
  | whileDo h hcond _ ih =>
    intro hQ
    rw [hQ _ _ h, Expr.eq_of_alike hQ hcond, ih hQ]

end BlockScript
