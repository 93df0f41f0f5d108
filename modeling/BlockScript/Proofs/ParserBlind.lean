import BlockScript.Proofs.Acceptance
import BlockScript.Proofs.Places

/-!
# Parsing is blind to places

Two lists of tokens that differ in their places only are parsed to trees that differ in their places
only, with the same faults at places that correspond. The parser decides by kinds, lexemes and
literals alone, and it takes every place of a fault from one token or from the end of the input, so
if the places of tokens are related by `P` then so are those of faults.

The places of trees are another matter: they are put together from several tokens, and nothing is
said of them here.

## Main definitions

* `Token.Alike`, `Located.Alike` — tokens and faults that differ in their places only
* `Parser.Blind` — actions of the parser that do the same on tokens that are alike

## Main results

* `Parser.Blind.expression`, `Parser.Blind.declaration` — the parser is blind to places
* `parseTokens_alike` — the same of lists of tokens
-/

namespace BlockScript

/-- The tokens are the same but for their lines and their places, which are related by `P`. -/
structure Token.Alike (P : Span → Span → Prop) (token token' : Token) : Prop where
  kind : token.kind = token'.kind
  lexeme : token.lexeme = token'.lexeme
  literal : token.literal = token'.literal
  span : P token.span token'.span

/-- The faults are the same but for their places, which are related by `P`. -/
structure Located.Alike (P : Span → Span → Prop) (a b : Located) : Prop where
  fault : a.fault = b.fault
  span : P a.span b.span

/-- The expressions are the same, wherever they stand. -/
abbrev Expr.Same : Expr → Expr → Prop := Expr.Alike AnyPlace

/-- The statements are the same, wherever they stand. -/
abbrev Stmt.Same : Stmt → Stmt → Prop := Stmt.Alike AnyPlace AnyPlace

theorem anyPlace (span span' : Span) : AnyPlace span span' := trivial

namespace Parser

variable {P : Span → Span → Prop}

/-! ## States -/

/-- The states are the same but for places. Where the last token stopped does not matter. -/
structure State.Alike (P : Span → Span → Prop) (s s' : State) : Prop where
  rest : List.Forall₂ (Token.Alike P) s.rest s'.rest
  finish : P s.finish s'.finish
  depth : s.depth = s'.depth
  faults : List.Forall₂ (Located.Alike P) s.faults s'.faults

namespace State.Alike

variable {s s' : State}

theorem here (h : State.Alike P s s') : P s.here s'.here := by
  have hrest := h.rest
  rw [State.here, State.here]
  generalize s.rest = rest, s'.rest = rest' at hrest
  cases hrest with
  | nil => exact h.finish
  | cons htoken _ => exact htoken.span

theorem advance (h : State.Alike P s s') : State.Alike P s.advance s'.advance := by
  obtain ⟨hrest, hfinish, hdepth, hfaults⟩ := h
  obtain ⟨rest, finish, stop, depth, faults⟩ := s
  obtain ⟨rest', finish', stop', depth', faults'⟩ := s'
  cases hrest with
  | nil => exact ⟨.nil, hfinish, hdepth, hfaults⟩
  | cons _ hrest => exact ⟨hrest, hfinish, hdepth, hfaults⟩

theorem record (h : State.Alike P s s') {fault fault' : Located} (hfault : fault.Alike P fault') :
    State.Alike P (s.record fault) (s'.record fault') :=
  ⟨h.rest, h.finish, h.depth, List.rel_append h.faults (.cons hfault .nil)⟩

theorem nextIs (h : State.Alike P s s') (kind : Token.Kind) : s.nextIs kind = s'.nextIs kind := by
  have hrest := h.rest
  rw [State.nextIs, State.nextIs]
  generalize s.rest = rest, s'.rest = rest' at hrest
  cases hrest with
  | nil => rfl
  | cons htoken _ => simp only [htoken.kind]

theorem isEmpty_rest (h : State.Alike P s s') : s.rest.isEmpty = s'.rest.isEmpty := by
  have hrest := h.rest
  generalize s.rest = rest, s'.rest = rest' at hrest
  cases hrest <;> rfl

end State.Alike

theorem skipFrom_alike {skipped skipped' : Token} (h : skipped.Alike P skipped')
    {tokens tokens' : List Token} (htokens : List.Forall₂ (Token.Alike P) tokens tokens') :
    List.Forall₂ (Token.Alike P) (skipFrom skipped tokens).2 (skipFrom skipped' tokens').2 := by
  induction htokens generalizing skipped skipped' with
  | nil => exact .nil
  | cons htoken hrest ih =>
    rw [skipFrom, skipFrom, h.kind, htoken.kind]
    split
    · exact .cons htoken hrest
    · exact ih htoken

theorem State.Alike.synchronize {s s' : State} (h : State.Alike P s s') :
    State.Alike P s.synchronize s'.synchronize := by
  obtain ⟨hrest, hfinish, hdepth, hfaults⟩ := h
  obtain ⟨rest, finish, stop, depth, faults⟩ := s
  obtain ⟨rest', finish', stop', depth', faults'⟩ := s'
  cases hrest with
  | nil => exact ⟨.nil, hfinish, hdepth, hfaults⟩
  | cons htoken hrest => exact ⟨skipFrom_alike htoken hrest, hfinish, hdepth, hfaults⟩

/-! ## Actions -/

/-- Both actions gave values, related by `V`, or both broke off with the same fault, and the states
are alike. -/
inductive Agree (P : Span → Span → Prop) {α : Type} (V : α → α → Prop) :
    EStateM.Result Located State α → EStateM.Result Located State α → Prop where
  | ok {a a' : α} {s s' : State} (ha : V a a') (hs : s.Alike P s') :
      Agree P V (.ok a s) (.ok a' s')
  | error {fault fault' : Located} {s s' : State} (hfault : fault.Alike P fault')
      (hs : s.Alike P s') : Agree P V (.error fault s) (.error fault' s')

/-- The actions agree on any two states that are alike. -/
def Blind (P : Span → Span → Prop) {α : Type} (V : α → α → Prop) (p p' : Parser α) : Prop :=
  ∀ s s' : State, s.Alike P s' → Agree P V (p s) (p' s')

namespace Blind

variable {α β : Type} {V : α → α → Prop} {W : β → β → Prop}

protected theorem pure {a a' : α} (h : V a a') : Blind P V (pure a : Parser α) (pure a') :=
  fun _ _ hs => .ok h hs

/-- **Sequencing.** -/
theorem bind {p p' : Parser α} {f f' : α → Parser β} (hp : Blind P V p p')
    (hf : ∀ a a', V a a' → Blind P W (f a) (f' a')) : Blind P W (p >>= f) (p' >>= f') := by
  intro s s' hs
  change Agree P W ((p >>= f).run s) ((p' >>= f').run s')
  rw [EStateM.run_bind, EStateM.run_bind]
  have h : Agree P V (p.run s) (p'.run s') := hp s s' hs
  generalize p.run s = r, p'.run s' = r' at h
  cases h with
  | ok ha hs => exact hf _ _ ha _ _ hs
  | error hfault hs => exact .error hfault hs

theorem map {p p' : Parser α} (hp : Blind P V p p') :
    Blind P (Option.Rel V) (some <$> p) (some <$> p') := by
  rw [map_eq_pure_bind, map_eq_pure_bind]
  exact hp.bind fun a a' ha => .pure (.some ha)

theorem failHere (fault : Fault) : Blind P V (failHere fault : Parser α) (failHere fault) :=
  fun _ _ hs => .error ⟨rfl, hs.here⟩ hs

theorem report (fault : Fault) {span span' : Span} (h : P span span') :
    Blind P (· = ·) (report fault span) (report fault span') :=
  fun _ _ hs => .ok rfl (hs.record ⟨rfl, h⟩)

theorem here : Blind P P here here := fun _ _ hs => .ok hs.here hs

theorem nextIs (kind : Token.Kind) : Blind P (· = ·) (nextIs kind) (nextIs kind) :=
  fun _ _ hs => .ok (hs.nextIs kind) hs

theorem accept? (select : Token.Kind → Option α) :
    Blind P (Option.Rel fun a b => a.1 = b.1 ∧ a.2.Alike P b.2) (accept? select)
      (accept? select) := by
  intro s s' hs
  have hrest := hs.rest
  rw [Parser.accept?, Parser.accept?]
  generalize s.rest = rest, s'.rest = rest' at hrest
  cases hrest with
  | nil => exact .ok .none hs
  | cons htoken _ =>
    simp only [htoken.kind]
    split
    · exact .ok (.some ⟨rfl, htoken⟩) hs.advance
    · exact .ok .none hs

theorem acceptKind? (kind : Token.Kind) :
    Blind P (Option.Rel (Token.Alike P)) (acceptKind? kind) (acceptKind? kind) := by
  intro s s' hs
  have hrest := hs.rest
  rw [Parser.acceptKind?, Parser.acceptKind?]
  generalize s.rest = rest, s'.rest = rest' at hrest
  cases hrest with
  | nil => exact .ok .none hs
  | cons htoken _ =>
    simp only [htoken.kind]
    split
    · exact .ok (.some htoken) hs.advance
    · exact .ok .none hs

theorem expect (kind : Token.Kind) (what : String) :
    Blind P (Token.Alike P) (expect kind what) (expect kind what) := by
  intro s s' hs
  have hrest := hs.rest
  rw [Parser.expect, Parser.expect]
  generalize s.rest = rest, s'.rest = rest' at hrest
  cases hrest with
  | nil => exact failHere _ _ _ hs
  | cons htoken _ =>
    simp only [htoken.kind]
    split
    · exact .ok htoken hs.advance
    · exact failHere _ _ _ hs

theorem unlessNext (kind : Token.Kind) {body body' : Parser α} (h : Blind P V body body') :
    Blind P (Option.Rel V) (unlessNext kind body) (unlessNext kind body') := by
  rw [Parser.unlessNext, Parser.unlessNext]
  refine (nextIs kind).bind fun b b' hb => ?_
  subst hb
  split
  · exact .pure .none
  · exact h.map

theorem spanFrom (start start' : Nat) : Blind P AnyPlace (spanFrom start) (spanFrom start') :=
  fun _ _ hs => .ok (anyPlace _ _) hs

theorem insideFunction {body body' : Parser α} (h : Blind P V body body') :
    Blind P V (insideFunction body) (insideFunction body') := by
  intro s s' hs
  have hinside : State.Alike P { s with depth := s.depth + 1 } { s' with depth := s'.depth + 1 } :=
    ⟨hs.rest, hs.finish, congrArg (· + 1) hs.depth, hs.faults⟩
  have hbody := h _ _ hinside
  rw [Parser.insideFunction, Parser.insideFunction]
  generalize body _ = r, body' _ = r' at hbody
  cases hbody with
  | ok ha hs' => exact .ok ha ⟨hs'.rest, hs'.finish, hs.depth, hs'.faults⟩
  | error hfault hs' => exact .error hfault ⟨hs'.rest, hs'.finish, hs.depth, hs'.faults⟩

theorem recover {body body' : Parser α} (h : Blind P V body body') :
    Blind P (Option.Rel V) (recover body) (recover body') := by
  intro s s' hs
  have hbody := h s s' hs
  rw [Parser.recover, Parser.recover]
  generalize body s = r, body' s' = r' at hbody
  cases hbody with
  | ok ha hs => exact .ok (.some ha) hs
  | error hfault hs => exact .ok .none (hs.record hfault).synchronize

/-! ## Expressions -/

theorem checkCount (tooMany : Nat → Fault) (count : Nat) :
    Blind P (· = ·) (checkCount tooMany count) (checkCount tooMany count) := by
  rw [Parser.checkCount]
  split
  · exact here.bind fun span span' hspan => .report _ hspan
  · exact .pure rfl

theorem commaSeparated (tooMany : Nat → Fault) {item item' : Parser α} (h : Blind P V item item')
    (steps count : Nat) :
    Blind P (List.Forall₂ V) (commaSeparated tooMany item steps count)
      (commaSeparated tooMany item' steps count) := by
  induction steps generalizing count with
  | zero => exact .pure .nil
  | succ steps ih =>
    rw [Parser.commaSeparated, Parser.commaSeparated]
    refine (checkCount tooMany count).bind fun _ _ _ => h.bind fun a a' ha => ?_
    refine (acceptKind? _).bind fun comma comma' hcomma => ?_
    cases hcomma with
    | none => exact .pure (.cons ha .nil)
    | some _ => exact (ih (count + 1)).bind fun as as' has => .pure (.cons ha has)

theorem itemList (steps : Nat) (tooMany : Nat → Fault) {item item' : Parser α}
    (h : Blind P V item item') :
    Blind P (List.Forall₂ V) (itemList steps tooMany item) (itemList steps tooMany item') := by
  rw [Parser.itemList, Parser.itemList]
  refine (nextIs _).bind fun b b' hb => ?_
  subst hb
  split
  · exact .pure .nil
  · exact h.commaSeparated tooMany steps 0

variable {nested nested' : Parser Expr}

theorem grouping (h : Blind P Expr.Same nested nested') (opening opening' : Token) :
    Blind P Expr.Same (grouping nested opening) (grouping nested' opening') :=
  h.bind fun _ _ hinner => (expect _ _).bind fun _ _ _ => .pure (.group (anyPlace _ _) hinner)

theorem primary (h : Blind P Expr.Same nested nested') :
    Blind P Expr.Same (primary nested) (primary nested') := by
  intro s s' hs
  have hrest := hs.rest
  rw [Parser.primary, Parser.primary]
  generalize s.rest = rest, s'.rest = rest' at hrest
  cases hrest with
  | nil => exact failHere _ _ _ hs
  | @cons token token' _ _ htoken _ =>
    simp only [htoken.kind, htoken.literal, htoken.lexeme]
    split
    case h_8 => exact .ok (.ident (anyPlace _ _)) hs.advance
    case h_9 => exact h.grouping token token' _ _ hs.advance
    case h_10 => exact failHere _ _ _ hs
    all_goals exact .ok (.literal (anyPlace _ _)) hs.advance

theorem finishCall (steps : Nat) (h : Blind P Expr.Same nested nested') {callee callee' : Expr}
    (hcallee : callee.Same callee') :
    Blind P Expr.Same (finishCall steps nested callee) (finishCall steps nested' callee') :=
  (h.itemList steps _).bind fun _ _ hargs => (expect _ _).bind fun _ _ _ =>
    .pure (.call_of_forall₂ (anyPlace _ _) (anyPlace _ _) hcallee hargs)

theorem callsOf (width : Nat) (h : Blind P Expr.Same nested nested') (steps : Nat)
    {callee callee' : Expr} (hcallee : callee.Same callee') :
    Blind P Expr.Same (callsOf width nested steps callee)
      (callsOf width nested' steps callee') := by
  induction steps generalizing callee callee' with
  | zero => exact .pure hcallee
  | succ steps ih =>
    rw [Parser.callsOf, Parser.callsOf]
    refine (acceptKind? _).bind fun opening opening' hopening => ?_
    cases hopening with
    | none => exact .pure hcallee
    | some _ => exact (h.finishCall width hcallee).bind fun _ _ hcall => ih hcall

theorem call (steps : Nat) (h : Blind P Expr.Same nested nested') :
    Blind P Expr.Same (call steps nested) (call steps nested') :=
  h.primary.bind fun _ _ hcallee => h.callsOf steps steps hcallee

variable {operand operand' : Parser Expr}

theorem unary (h : Blind P Expr.Same operand operand') (steps : Nat) :
    Blind P Expr.Same (unary operand steps) (unary operand' steps) := by
  induction steps with
  | zero => exact h
  | succ steps ih =>
    rw [Parser.unary, Parser.unary]
    refine (accept? _).bind fun op op' hop => ?_
    cases hop with
    | none => exact h
    | @some a b hop =>
      obtain ⟨op, token⟩ := a
      obtain ⟨op', token'⟩ := b
      obtain ⟨rfl, -⟩ : op = op' ∧ _ := hop
      exact ih.bind fun _ _ hinner => .pure (.unary (anyPlace _ _) hinner)

theorem join_same (joint : Joint) {left left' right right' : Expr} (hleft : left.Same left')
    (hright : right.Same right') : (joint.join left right).Same (joint.join left' right') := by
  cases joint with
  | binary op => exact .binary (anyPlace _ _) hleft hright
  | logical op => exact .logical (anyPlace _ _) hleft hright

theorem chain (level : Level) (h : Blind P Expr.Same operand operand') (steps : Nat)
    {left left' : Expr} (hleft : left.Same left') :
    Blind P Expr.Same (chain level operand steps left) (chain level operand' steps left') := by
  induction steps generalizing left left' with
  | zero => exact .pure hleft
  | succ steps ih =>
    rw [Parser.chain, Parser.chain]
    refine (accept? level).bind fun joint joint' hjoint => ?_
    cases hjoint with
    | none => exact .pure hleft
    | @some a b hjoint =>
      obtain ⟨joint, token⟩ := a
      obtain ⟨joint', token'⟩ := b
      obtain ⟨rfl, -⟩ : joint = joint' ∧ _ := hjoint
      exact h.bind fun _ _ hright => ih (join_same joint hleft hright)

theorem binary (steps : Nat) (h : Blind P Expr.Same operand operand') (levels : List Level) :
    Blind P Expr.Same (binary steps operand levels) (binary steps operand' levels) := by
  induction levels with
  | nil => exact h
  | cons level tighter ih => exact ih.bind fun _ _ hleft => ih.chain level steps hleft

theorem assignment (steps : Nat) (h : Blind P Expr.Same nested nested') :
    Blind P Expr.Same (assignment steps nested) (assignment steps nested') := by
  rw [Parser.assignment, Parser.assignment]
  have htarget := ((h.call steps).unary steps).binary steps levels
  refine htarget.bind fun target target' htarget => ?_
  refine (acceptKind? _).bind fun equals equals' hequals => ?_
  cases hequals with
  | none => exact .pure htarget
  | some hequals =>
    refine h.bind fun value value' hvalue => ?_
    have hinvalid : ∀ {other other' : Expr}, other.Same other' →
        Blind P Expr.Same (do Parser.report .invalidTarget _; return other)
          (do Parser.report .invalidTarget _; return other') :=
      fun hother => (Blind.report _ hequals.span).bind fun _ _ _ => .pure hother
    cases htarget with
    | ident _ => exact .pure (.assign (anyPlace _ _) hvalue)
    | literal h => exact hinvalid (.literal h)
    | assign h hvalue => exact hinvalid (.assign h hvalue)
    | unary h hoperand => exact hinvalid (.unary h hoperand)
    | binary h hleft hright => exact hinvalid (.binary h hleft hright)
    | logical h hleft hright => exact hinvalid (.logical h hleft hright)
    | group h hinner => exact hinvalid (.group h hinner)
    | call h hparen hcallee hargs => exact hinvalid (.call h hparen hcallee hargs)

/-- **Expressions are parsed the same, wherever they stand.** -/
theorem expression (n : Nat) : Blind P Expr.Same (expression n) (expression n) := by
  induction n with
  | zero => exact failHere _
  | succ n ih => exact ih.assignment (n + 1)

/-! ## Statements -/

variable {expr expr' : Parser Expr} {statement statement' : Parser Stmt}
  {declaration declaration' : Parser (Option Stmt)}

theorem toList_same {kept kept' : Option Stmt} (h : Option.Rel Stmt.Same kept kept') :
    List.Forall₂ Stmt.Same kept.toList kept'.toList := by
  cases h with
  | none => exact .nil
  | some h => exact .cons h .nil

theorem declarations {closed : State → Bool}
    (hclosed : ∀ s s', State.Alike P s s' → closed s = closed s')
    (h : Blind P (Option.Rel Stmt.Same) declaration declaration') (steps : Nat) :
    Blind P (List.Forall₂ Stmt.Same) (declarations declaration closed steps)
      (declarations declaration' closed steps) := by
  induction steps with
  | zero => exact fun _ _ hs => .ok .nil hs
  | succ steps ih =>
    intro s s' hs
    rw [Parser.declarations, Parser.declarations, hclosed s s' hs]
    split
    · exact .ok .nil hs
    · refine (h.bind fun _ _ hkept => ih.bind fun _ _ hothers => ?_) s s' hs
      exact .pure (List.rel_append (toList_same hkept) hothers)

theorem block (steps : Nat) (h : Blind P (Option.Rel Stmt.Same) declaration declaration') :
    Blind P (List.Forall₂ Stmt.Same) (block steps declaration) (block steps declaration') := by
  have hclosed : ∀ s s', State.Alike P s s' →
      (s.rest.isEmpty || s.nextIs (.symbol .rightBrace)) =
        (s'.rest.isEmpty || s'.nextIs (.symbol .rightBrace)) := by
    intro s s' hs
    rw [hs.isEmpty_rest, hs.nextIs]
  exact (h.declarations hclosed steps).bind fun _ _ hbody => (expect _ _).bind fun _ _ _ =>
    .pure hbody

theorem funcDeclaration (steps : Nat) (h : Blind P (Option.Rel Stmt.Same) declaration declaration')
    (start start' : Nat) :
    Blind P Stmt.Same (funcDeclaration steps declaration start)
      (funcDeclaration steps declaration' start') := by
  rw [Parser.funcDeclaration, Parser.funcDeclaration]
  refine (expect _ _).bind fun name name' hname => (expect _ _).bind fun _ _ _ => ?_
  refine ((expect _ _).itemList steps _).bind fun params params' hparams => ?_
  refine (expect _ _).bind fun _ _ _ => (expect _ _).bind fun _ _ _ => ?_
  refine (h.block steps).insideFunction.bind fun body body' hbody => ?_
  have hnames : params.map Token.lexeme = params'.map Token.lexeme := by
    induction hparams with
    | nil => rfl
    | cons hparam _ ih => rw [List.map_cons, List.map_cons, hparam.lexeme, ih]
  rw [hname.lexeme, hnames]
  exact (spanFrom start start').bind fun _ _ hspan => .pure (.func_of_forall₂ hspan hbody)

theorem initialValue (h : Blind P Expr.Same expr expr') :
    Blind P (Option.Rel Expr.Same) (initialValue expr) (initialValue expr') := by
  rw [Parser.initialValue, Parser.initialValue]
  refine (acceptKind? _).bind fun equals equals' hequals => ?_
  cases hequals with
  | none => exact .pure .none
  | some _ => exact h.map

theorem varDeclaration (h : Blind P Expr.Same expr expr') (start start' : Nat) :
    Blind P Stmt.Same (varDeclaration expr start) (varDeclaration expr' start') := by
  rw [Parser.varDeclaration, Parser.varDeclaration]
  refine (expect _ _).bind fun name name' hname => h.initialValue.bind fun _ _ hvalue => ?_
  rw [hname.lexeme]
  exact (expect _ _).bind fun _ _ _ => (spanFrom start start').bind fun _ _ hspan =>
    .pure (.var hspan hvalue)

theorem exprStatement (h : Blind P Expr.Same expr expr') :
    Blind P Stmt.Same (exprStatement expr) (exprStatement expr') :=
  h.bind fun _ _ hvalue => (expect _ _).bind fun _ _ _ => (spanFrom _ _).bind fun _ _ hspan =>
    .pure (.expr hspan hvalue)

theorem forLoop_same {span span' : Span} {init init' : Option Stmt}
    (hinit : Option.Rel Stmt.Same init init') {cond cond' : Expr} (hcond : cond.Same cond')
    {step step' : Option Expr} (hstep : Option.Rel Expr.Same step step') {body body' : Stmt}
    (hbody : body.Same body') :
    (forLoop span init cond step body).Same (forLoop span' init' cond' step' body') := by
  have hsteps : Option.Rel Stmt.Same (step.map fun e => Stmt.expr e.span e)
      (step'.map fun e => Stmt.expr e.span e) := by
    cases hstep with
    | none => exact .none
    | some hstep => exact .some (.expr (anyPlace _ _) hstep)
  have hloop := Stmt.Alike.whileDo (anyPlace span span') hcond
    (.block_of_forall₂ (anyPlace span span') (.cons hbody (toList_same hsteps)))
  exact .block_of_forall₂ (anyPlace _ _)
    (List.rel_append (toList_same hinit) (.cons hloop .nil))

theorem forInitial (h : Blind P Expr.Same expr expr') :
    Blind P (Option.Rel Stmt.Same) (forInitial expr) (forInitial expr') := by
  rw [Parser.forInitial, Parser.forInitial]
  refine (acceptKind? _).bind fun semicolon semicolon' hsemicolon => ?_
  cases hsemicolon with
  | some _ => exact .pure .none
  | none =>
    refine (acceptKind? _).bind fun keyword keyword' hkeyword => ?_
    cases hkeyword with
    | none => exact h.exprStatement.map
    | some _ => exact (h.varDeclaration _ _).map

theorem forCondition (h : Blind P Expr.Same expr expr') :
    Blind P Expr.Same (forCondition expr) (forCondition expr') := by
  rw [Parser.forCondition, Parser.forCondition]
  refine (nextIs _).bind fun b b' hb => ?_
  subst hb
  split
  · exact here.bind fun _ _ _ => .pure (.literal (anyPlace _ _))
  · exact h

theorem forStatement (h : Blind P Expr.Same expr expr')
    (hstatement : Blind P Stmt.Same statement statement') (start start' : Nat) :
    Blind P Stmt.Same (forStatement expr statement start)
      (forStatement expr' statement' start') := by
  rw [Parser.forStatement, Parser.forStatement]
  refine (expect _ _).bind fun _ _ _ => h.forInitial.bind fun _ _ hinit => ?_
  refine h.forCondition.bind fun _ _ hcond => (expect _ _).bind fun _ _ _ => ?_
  refine (h.unlessNext _).bind fun _ _ hstep => (expect _ _).bind fun _ _ _ => ?_
  exact hstatement.bind fun _ _ hbody => (spanFrom start start').bind fun _ _ _ =>
    .pure (forLoop_same hinit hcond hstep hbody)

theorem ifStatement (h : Blind P Expr.Same expr expr')
    (hstatement : Blind P Stmt.Same statement statement') (start start' : Nat) :
    Blind P Stmt.Same (ifStatement expr statement start) (ifStatement expr' statement' start') := by
  rw [Parser.ifStatement, Parser.ifStatement]
  refine (expect _ _).bind fun _ _ _ => h.bind fun _ _ hcond => ?_
  refine (expect _ _).bind fun _ _ _ => hstatement.bind fun _ _ hyes => ?_
  refine (acceptKind? _).bind fun keyword keyword' hkeyword => ?_
  cases hkeyword with
  | none => exact (spanFrom _ _).bind fun _ _ hspan => .pure (.ifThen hspan hcond hyes)
  | some _ =>
    exact hstatement.bind fun _ _ hno => (spanFrom _ _).bind fun _ _ hspan =>
      .pure (.ifElse hspan hcond hyes hno)

theorem printStatement (h : Blind P Expr.Same expr expr') (start start' : Nat) :
    Blind P Stmt.Same (printStatement expr start) (printStatement expr' start') :=
  h.bind fun _ _ hvalue => (expect _ _).bind fun _ _ _ => (spanFrom _ _).bind fun _ _ hspan =>
    .pure (.print hspan hvalue)

theorem checkReturn {keyword keyword' : Span} (h : P keyword keyword') :
    Blind P (· = ·) (checkReturn keyword) (checkReturn keyword') := by
  intro s s' hs
  rw [Parser.checkReturn, Parser.checkReturn, hs.depth]
  split
  · exact Blind.report _ h s s' hs
  · exact .ok rfl hs

theorem returnStatement (h : Blind P Expr.Same expr expr') {keyword keyword' : Span}
    (hkeyword : P keyword keyword') :
    Blind P Stmt.Same (returnStatement expr keyword) (returnStatement expr' keyword') :=
  (checkReturn hkeyword).bind fun _ _ _ => (h.unlessNext _).bind fun _ _ hvalue =>
    (expect _ _).bind fun _ _ _ => (spanFrom _ _).bind fun _ _ hspan => .pure (.ret hspan hvalue)

theorem whileStatement (h : Blind P Expr.Same expr expr')
    (hstatement : Blind P Stmt.Same statement statement') (start start' : Nat) :
    Blind P Stmt.Same (whileStatement expr statement start)
      (whileStatement expr' statement' start') :=
  (expect _ _).bind fun _ _ _ => h.bind fun _ _ hcond => (expect _ _).bind fun _ _ _ =>
    hstatement.bind fun _ _ hbody => (spanFrom _ _).bind fun _ _ hspan =>
      .pure (.whileDo hspan hcond hbody)

theorem blockStatement (steps : Nat) (h : Blind P (Option.Rel Stmt.Same) declaration declaration')
    (start start' : Nat) :
    Blind P Stmt.Same (blockStatement steps declaration start)
      (blockStatement steps declaration' start') :=
  (h.block steps).bind fun _ _ hbody => (spanFrom _ _).bind fun _ _ hspan =>
    .pure (.block_of_forall₂ hspan hbody)

theorem statementOf (steps : Nat) (h : Blind P Expr.Same expr expr')
    (hstatement : Blind P Stmt.Same statement statement')
    (hdeclaration : Blind P (Option.Rel Stmt.Same) declaration declaration') :
    Blind P Stmt.Same (statementOf steps expr statement declaration)
      (statementOf steps expr' statement' declaration') := by
  intro s s' hs
  have hrest := hs.rest
  rw [Parser.statementOf, Parser.statementOf]
  generalize s.rest = rest, s'.rest = rest' at hrest
  cases hrest with
  | nil => exact h.exprStatement s s' hs
  | cons htoken _ =>
    simp only [htoken.kind]
    split
    · exact h.forStatement hstatement _ _ _ _ hs.advance
    · exact h.ifStatement hstatement _ _ _ _ hs.advance
    · exact h.printStatement _ _ _ _ hs.advance
    · exact h.returnStatement htoken.span _ _ hs.advance
    · exact h.whileStatement hstatement _ _ _ _ hs.advance
    · exact hdeclaration.blockStatement steps _ _ _ _ hs.advance
    · exact h.exprStatement s s' hs

theorem declarationOf (steps : Nat) (h : Blind P Expr.Same expr expr')
    (hstatement : Blind P Stmt.Same statement statement')
    (hdeclaration : Blind P (Option.Rel Stmt.Same) declaration declaration') :
    Blind P (Option.Rel Stmt.Same) (declarationOf steps expr statement declaration)
      (declarationOf steps expr' statement' declaration') := by
  refine recover fun s s' hs => ?_
  have hrest := hs.rest
  generalize s.rest = rest, s'.rest = rest' at hrest
  cases hrest with
  | nil => exact h.statementOf steps hstatement hdeclaration s s' hs
  | cons htoken _ =>
    simp only [htoken.kind]
    split
    · exact hdeclaration.funcDeclaration steps _ _ _ _ hs.advance
    · exact h.varDeclaration _ _ _ _ hs.advance
    · exact h.statementOf steps hstatement hdeclaration s s' hs

/-- **Statements and declarations are parsed the same, wherever they stand.** -/
theorem statement_and_declaration (n : Nat) :
    Blind P Stmt.Same (Parser.statement n) (Parser.statement n) ∧
      Blind P (Option.Rel Stmt.Same) (Parser.declaration n) (Parser.declaration n) := by
  induction n with
  | zero => exact ⟨failHere _, fun _ _ hs => .ok .none hs⟩
  | succ n ih =>
    obtain ⟨hstatement, hdeclaration⟩ := ih
    exact ⟨(expression (n + 1)).statementOf (n + 1) hstatement hdeclaration,
      (expression (n + 1)).declarationOf (n + 1) hstatement hdeclaration⟩

theorem program (steps : Nat) :
    Blind P (List.Forall₂ Stmt.Same) (program steps) (program steps) :=
  (statement_and_declaration steps).2.declarations (fun _ _ hs => hs.isEmpty_rest) steps

end Blind

end Parser

/-! ## Lists of tokens -/

/-- The programs are the same, and so are the faults, at places related by `P`. -/
structure Parsed.Alike (P : Span → Span → Prop) (a b : Parsed) : Prop where
  program : List.Forall₂ Stmt.Same a.program b.program
  faults : List.Forall₂ (Located.Alike P) a.faults b.faults

/-- **Tokens that are alike are parsed the same.** -/
theorem parseTokens_alike {P : Span → Span → Prop} {words words' : List Token} {last last' : Token}
    (hclose : Closes words last) (hclose' : Closes words' last')
    (hwords : List.Forall₂ (Token.Alike P) words words') (hlast : P last.span last'.span) :
    (parseTokens (words ++ [last])).Alike P (parseTokens (words' ++ [last'])) := by
  have hstart : Parser.State.Alike P (.start (words ++ [last])) (.start (words' ++ [last'])) := by
    refine ⟨?_, ?_, rfl, .nil⟩
    · rwa [hclose.start_rest, hclose'.start_rest]
    · rwa [hclose.start_finish, hclose'.start_finish]
  have hprogram := Parser.Blind.program (words'.length + 1) _ _ hstart
  simp only [parseTokens, hclose.start_rest, hclose'.start_rest, hwords.length_eq]
  generalize Parser.program _ _ = r, Parser.program _ (.start (words' ++ [last'])) = r' at hprogram
  cases hprogram with
  | ok hprogram hs => exact ⟨hprogram, hs.faults⟩
  | error hfault hs => exact ⟨.nil, List.rel_append hs.faults (.cons hfault .nil)⟩

end BlockScript
