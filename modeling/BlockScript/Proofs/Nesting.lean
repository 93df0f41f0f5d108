import BlockScript.Proofs.Coverage
import BlockScript.Proofs.Resuming
import BlockScript.Proofs.Subtrees

/-!
# Places nest

The place of a node is put together from those of tokens and of other nodes: where the first word of
the node starts, where its last word stops. In a program that was accepted the words of a node are
those that the grammar derives it from (`Proofs/Extent`). In a program that was kept in spite of
faults there is no derivation, and some words belong to no node: those of a declaration that broke
off, and those of a value that could not be assigned. But the parser still goes from left to right,
and each node is made when its last word was just read. So the places of its parts lie inside of its
own, whatever else there is between them.

As for accepted programs, places are found among the words first. A node is *seated* among some
words if its place goes from the first through the last of consecutive ones, and the places of its
parts lie among these.

## Main definitions

* `Parser.Lays` — which words a parser takes, and what it makes of them
* `Node.Seated` — a node has its place among words, and its parts have theirs inside of it
* `Expr.Spans`, `Expr.Heads`, `Stmt.Spans` — trees that go through all words, or through the first

## Main results

* `Parser.Lays.bind` — sequencing
* `Parser.lays_expression`, `Parser.lays_statement_declaration` — the parser makes seated trees
* `seated_parseTokens` — so every node of a program that is kept is seated among its tokens
-/

namespace BlockScript

/-! ## Words taken -/

namespace Parser

variable {α β γ : Type}

/-- On the way to a result the words were taken, and the value has `P` with them. -/
structure LaysAt (P : List Token → α → Prop) (s : State) (r : EStateM.Result Located State α)
    (words : List Token) : Prop where
  rest : s.rest = words ++ (stateAfter r).rest
  stop : (stateAfter r).lastStop = stopAfter s.lastStop words
  value : ∀ a s', r = .ok a s' → P words a

/-- After a token that stops at `stop`, the parser takes words, and whatever value it gives has `P`
with them. -/
def Lays (stop : Nat) (P : List Token → α → Prop) (p : Parser α) : Prop :=
  ∀ s, s.lastStop = stop → ∃ words, LaysAt P s (p s) words

namespace LaysAt

variable {P : List Token → α → Prop} {s : State}

/-- Nothing was taken. -/
theorem same {a : α} (h : P [] a) : LaysAt P s (.ok a s) [] where
  rest := rfl
  stop := rfl
  value _ _ hr := by
    injection hr with ha _
    exact ha ▸ h

theorem error (fault : Located) : LaysAt P s (.error fault s) [] :=
  ⟨rfl, rfl, fun _ _ hr => nomatch hr⟩

/-- Words were taken before. -/
theorem prepend (words : List Token) {s' : State} {words' : List Token}
    {r : EStateM.Result Located State α} (hrest : s.rest = words ++ s'.rest)
    (hstop : s'.lastStop = stopAfter s.lastStop words)
    (h : LaysAt (fun words' => P (words ++ words')) s' r words') :
    LaysAt P s r (words ++ words') where
  rest := by rw [hrest, h.rest, List.append_assoc]
  stop := by rw [h.stop, hstop, stopAfter_append]
  value := h.value

end LaysAt

namespace Lays

variable {stop : Nat} {P : List Token → α → Prop} {Q : List Token → β → Prop} {p : Parser α}
  {f : α → Parser β}

theorem imp {P' : List Token → α → Prop} (h : Lays stop P p)
    (himp : ∀ words a, P words a → P' words a) : Lays stop P' p := fun s hs => by
  obtain ⟨words, hwords⟩ := h s hs
  exact ⟨words, hwords.rest, hwords.stop, fun a s' hr => himp words a (hwords.value a s' hr)⟩

protected theorem pure {a : α} (h : P [] a) : Lays stop P (pure a : Parser α) :=
  fun _ _ => ⟨[], .same h⟩

theorem failHere (fault : Fault) : Lays stop P (failHere fault : Parser α) :=
  fun _ _ => ⟨[], .error _⟩

/-- **Sequencing.** The words of both parsers are taken one after the other. -/
theorem bind (hp : Lays stop P p) (hf : ∀ words a, P words a →
    Lays (stopAfter stop words) (fun words' => Q (words ++ words')) (f a)) :
    Lays stop Q (p >>= f) := by
  intro s hs
  obtain ⟨words, hrest, hstop, hvalue⟩ := hp s hs
  rw [bind_apply]
  cases hr : p s with
  | error fault s' =>
    rw [hr] at hrest hstop
    exact ⟨words, hrest, hstop, fun _ _ h => nomatch h⟩
  | ok a s' =>
    rw [hr] at hrest hstop
    have hstop' : s'.lastStop = stopAfter stop words := hs ▸ hstop
    obtain ⟨words', hwords'⟩ := hf words a (hvalue a s' hr) s' hstop'
    exact ⟨words ++ words', hwords'.prepend words hrest hstop⟩

theorem map {P' : List Token → Option α → Prop} (hp : Lays stop P p)
    (himp : ∀ words a, P words a → P' words (some a)) : Lays stop P' (some <$> p) := by
  rw [map_eq_bind]
  refine hp.bind fun words a ha => .pure ?_
  rw [List.append_nil]
  exact himp words a ha

/-- What takes no word can be passed over. -/
theorem still_bind (hp : ∀ s, ∃ a s', p s = .ok a s' ∧ s'.rest = s.rest ∧ s'.lastStop = s.lastStop)
    (hf : ∀ a, Lays stop Q (f a)) : Lays stop Q (p >>= f) := by
  intro s hs
  obtain ⟨a, s', hr, hrest, hstop⟩ := hp s
  obtain ⟨words, hwords⟩ := hf a s' (hstop.trans hs)
  rw [bind_apply, hr]
  exact ⟨words, hwords.prepend [] hrest.symm hstop⟩

theorem nextIs_bind {kind : Token.Kind} {f : Bool → Parser β} (hf : ∀ b, Lays stop Q (f b)) :
    Lays stop Q (nextIs kind >>= f) :=
  still_bind (fun s => ⟨_, s, rfl, rfl, rfl⟩) hf

theorem here_bind {f : Span → Parser β} (hf : ∀ span, Lays stop Q (f span)) :
    Lays stop Q (here >>= f) :=
  still_bind (fun s => ⟨_, s, rfl, rfl, rfl⟩) hf

theorem report_bind {fault : Fault} {span : Span} {f : Unit → Parser β}
    (hf : Lays stop Q (f ())) : Lays stop Q (report fault span >>= f) :=
  still_bind (fun s => ⟨_, s.record ⟨fault, span⟩, rfl, rfl, rfl⟩) fun _ => hf

theorem spanFrom_bind {start : Nat} {f : Span → Parser β} (hf : Lays stop Q (f ⟨start, stop⟩)) :
    Lays stop Q (spanFrom start >>= f) := fun s hs => by
  have hspan : (spanFrom start >>= f) s = f ⟨start, stop⟩ s := hs ▸ rfl
  rw [hspan]
  exact hf s hs

/-- The next token was taken. -/
theorem cons {s : State} {token : Token} {rest : List Token}
    (hp : Lays token.span.stop (fun words => P (token :: words)) p) (hs : s.rest = token :: rest) :
    ∃ words, LaysAt P s (p (s.after [token] rest)) words := by
  obtain ⟨words, hwords⟩ := hp (s.after [token] rest) rfl
  have hrest : s.rest = [token] ++ (s.after [token] rest).rest := hs
  exact ⟨token :: words, hwords.prepend [token] hrest rfl⟩

theorem accept?_bind {select : Token.Kind → Option γ} {f : Option (γ × Token) → Parser β}
    (hnone : Lays stop Q (f none)) (hsome : ∀ c token, select token.kind = some c →
      Lays token.span.stop (fun words => Q (token :: words)) (f (some (c, token)))) :
    Lays stop Q (accept? select >>= f) := by
  intro s hs
  rw [bind_apply]
  cases hrest : s.rest with
  | nil => rw [accept?_of_end hrest]; exact hnone s hs
  | cons token rest =>
    rw [accept?_of_rest hrest]
    cases hselect : select token.kind with
    | none => exact hnone s hs
    | some c => exact (hsome c token hselect).cons hrest

theorem acceptKind?_bind {kind : Token.Kind} {f : Option Token → Parser β}
    (hnone : Lays stop Q (f none)) (hsome : ∀ token, token.kind = kind →
      Lays token.span.stop (fun words => Q (token :: words)) (f (some token))) :
    Lays stop Q (acceptKind? kind >>= f) := by
  rw [acceptKind?_eq, map_eq_bind, bind_assoc]
  refine accept?_bind ?_ fun _ token htoken => ?_
  · rw [pure_bind]
    exact hnone
  · rw [pure_bind]
    refine hsome token ?_
    by_contra hne
    rw [if_neg hne] at htoken
    nomatch htoken

theorem expect_bind {kind : Token.Kind} {what : String} {f : Token → Parser β}
    (hf : ∀ token, token.kind = kind →
      Lays token.span.stop (fun words => Q (token :: words)) (f token)) :
    Lays stop Q (expect kind what >>= f) := by
  rw [expect_eq, bind_assoc]
  refine acceptKind?_bind ?_ fun token htoken => ?_
  · rw [failHere_bind]
    exact failHere _
  · rw [pure_bind]
    exact hf token htoken

theorem byHead {branch : Token → Option (Parser α)} {otherwise : Parser α}
    (h : Lays stop P otherwise) (hbranch : ∀ token p, branch token = some p →
      Lays token.span.stop (fun words => P (token :: words)) p) :
    Lays stop P (byHead branch otherwise) := by
  intro s hs
  cases hrest : s.rest with
  | nil => rw [byHead_of_end hrest]; exact h s hs
  | cons token rest =>
    cases hb : branch token with
    | none => rw [byHead_of_none hrest hb]; exact h s hs
    | some p => rw [byHead_of_some hrest hb]; exact (hbranch token p hb).cons hrest

theorem unlessNext {P' : List Token → Option α → Prop} {kind : Token.Kind} (hp : Lays stop P p)
    (hnone : P' [] none) (himp : ∀ words a, P words a → P' words (some a)) :
    Lays stop P' (unlessNext kind p) := by
  refine nextIs_bind fun b => ?_
  split
  · exact .pure hnone
  · exact hp.map himp

theorem insideFunction (hp : Lays stop P p) : Lays stop P (insideFunction p) := by
  intro s hs
  obtain ⟨words, hrest, hstop, hvalue⟩ := hp { s with depth := s.depth + 1 } hs
  refine ⟨words, ?_⟩
  rw [Parser.insideFunction]
  cases hr : p { s with depth := s.depth + 1 } with
  | error fault s' =>
    rw [hr] at hrest hstop
    exact ⟨hrest, hstop, fun _ _ h => by cases h⟩
  | ok a s' =>
    rw [hr] at hrest hstop
    refine ⟨hrest, hstop, fun b s'' h => ?_⟩
    injection h with hb _
    exact hb ▸ hvalue a s' hr

end Lays

/-! ### Words skipped -/

theorem stopAfter_skipFrom (stop : Nat) (skipped : Token) (tokens : List Token) :
    ∃ words, skipped :: tokens = words ++ (skipFrom skipped tokens).2 ∧
      stopAfter stop words = (skipFrom skipped tokens).1.span.stop := by
  induction tokens generalizing stop skipped with
  | nil => exact ⟨[skipped], rfl, rfl⟩
  | cons token rest ih =>
    rw [skipFrom]
    split
    · exact ⟨[skipped], rfl, rfl⟩
    · obtain ⟨words, hwords, hstop⟩ := ih skipped.span.stop token
      exact ⟨skipped :: words, by rw [List.cons_append, ← hwords], hstop⟩

/-- Recovery takes the words up to where parsing resumes, and makes nothing of them. -/
theorem Lays.recover {stop : Nat} {P : List Token → α → Prop} {P' : List Token → Option α → Prop}
    {p : Parser α} (hp : Lays stop P p) (hnone : ∀ words, P' words none)
    (hsome : ∀ words a, P words a → P' words (some a)) : Lays stop P' (recover p) := by
  intro s hs
  obtain ⟨words, hrest, hstop, hvalue⟩ := hp s hs
  rw [Parser.recover]
  cases hr : p s with
  | ok a s' =>
    rw [hr] at hrest hstop
    refine ⟨words, hrest, hstop, fun b s'' h => ?_⟩
    injection h with hb _
    exact hb ▸ hsome words a (hvalue a s' hr)
  | error fault s' =>
    rw [hr] at hrest hstop
    have hskip : ∃ skipped, s'.rest = skipped ++ (s'.record fault).synchronize.rest ∧
        (s'.record fault).synchronize.lastStop = stopAfter s'.lastStop skipped := by
      cases hrest' : s'.rest with
      | nil =>
        rw [State.synchronize_of_end (s := s'.record fault) hrest']
        exact ⟨[], hrest'.symm, rfl⟩
      | cons token rest =>
        obtain ⟨skipped, hskipped, hstop'⟩ := stopAfter_skipFrom s'.lastStop token rest
        refine ⟨skipped, hskipped.trans ?_, ?_⟩
        · simp only [State.synchronize, State.record, hrest']
        · simp only [State.synchronize, State.record, hrest', hstop']
    obtain ⟨skipped, hskipped, hstop'⟩ := hskip
    refine ⟨words ++ skipped, .prepend words hrest hstop ⟨hskipped, hstop', fun b s'' h => ?_⟩⟩
    injection h with hb _
    exact hb ▸ hnone _

end Parser

/-! ## Seats -/

theorem Lies.mono {words words' : List Token} {span : Span} (h : Lies words span)
    (hwords : words <:+: words') : Lies words' span := by
  obtain ⟨part, hpart, hcovers⟩ := h
  exact ⟨part, hpart.trans hwords, hcovers⟩

/-- The place from the start of a word through the last one. -/
theorem covers_from (first : Token) (words : List Token) :
    Covers (first :: words) ⟨first.span.start, Parser.stopAfter first.span.stop words⟩ := by
  refine ⟨⟨first, words, rfl, rfl⟩, ?_⟩
  rcases List.eq_nil_or_concat words with rfl | ⟨others, last, rfl⟩
  · exact ⟨[], first, rfl, rfl⟩
  · exact ⟨first :: others, last, by simp, by simp⟩

/-- The last of the words closes a call, and what is called and the arguments come before it. -/
def Node.ClosedBy (words : List Token) : Node → Prop
  | .expr (.call _ paren callee args) => ∃ front closing, words = front ++ [closing] ∧
      closing.kind = .symbol .rightParen ∧ paren = closing.span ∧
      ∀ e ∈ callee :: args, Lies front e.span
  | _ => True

/-- The place of the node goes from the first through the last of consecutive words, and the places
of its parts lie among these. -/
def Node.Seated (words : List Token) (node : Node) : Prop :=
  ∃ part, part <:+: words ∧ Covers part node.span ∧
    (∀ child ∈ node.children, Lies part child.span) ∧ node.ClosedBy part

theorem Node.Seated.mono {words words' : List Token} {node : Node} (h : node.Seated words)
    (hwords : words <:+: words') : node.Seated words' := by
  obtain ⟨part, hpart, h⟩ := h
  exact ⟨part, hpart.trans hwords, h⟩

/-- The expression lies among the words, and all of its nodes are seated. -/
structure Expr.Sits (words : List Token) (e : Expr) : Prop where
  lies : Lies words e.span
  each : e.Each (Node.Seated words)

/-- The expression goes through the first of the words, from the very first on. -/
structure Expr.Heads (words : List Token) (e : Expr) : Prop where
  covers : ∃ part, part <+: words ∧ Covers part e.span
  each : e.Each (Node.Seated words)

/-- The expression goes through all of the words. -/
structure Expr.Spans (words : List Token) (e : Expr) : Prop where
  covers : Covers words e.span
  each : e.Each (Node.Seated words)

/-- The statement lies among the words, and all of its nodes are seated. -/
structure Stmt.Sits (words : List Token) (s : Stmt) : Prop where
  lies : Lies words s.span
  each : s.Each (Node.Seated words)

/-- The statement goes through all of the words. -/
structure Stmt.Spans (words : List Token) (s : Stmt) : Prop where
  covers : Covers words s.span
  each : s.Each (Node.Seated words)

namespace Expr

variable {words words' : List Token} {e : Expr}

theorem Sits.mono (h : e.Sits words) (hwords : words <:+: words') : e.Sits words' :=
  ⟨h.lies.mono hwords, h.each.imp fun _ hnode => hnode.mono hwords⟩

theorem Heads.sits (h : e.Heads words) : e.Sits words := by
  obtain ⟨part, hpart, hcovers⟩ := h.covers
  exact ⟨⟨part, hpart.isInfix, hcovers⟩, h.each⟩

theorem Spans.heads (h : e.Spans words) : e.Heads words :=
  ⟨⟨words, List.prefix_rfl, h.covers⟩, h.each⟩

/-- It starts where the first word does. -/
theorem Heads.start (h : e.Heads words) :
    ∃ first rest, words = first :: rest ∧ e.span.start = first.span.start := by
  obtain ⟨part, ⟨more, rfl⟩, hcovers⟩ := h.covers
  obtain ⟨first, rest, rfl, hstart⟩ := hcovers.start
  exact ⟨first, rest ++ more, rfl, hstart⟩

theorem Spans.of_parts (hcovers : Covers words e.span) (hclosed : (Node.expr e).ClosedBy words)
    (hparts : ∀ part ∈ e.parts, part.Sits words) : e.Spans words := by
  refine ⟨hcovers, each_iff.mpr ⟨⟨words, List.infix_rfl, hcovers, ?_, hclosed⟩, ?_⟩⟩
  · exact List.forall_mem_map.mpr fun part hpart => (hparts part hpart).lies
  · exact fun part hpart => (hparts part hpart).each

theorem Spans.literal (token : Token) (value : Constant) :
    (Expr.literal token.span value).Spans [token] :=
  .of_parts (.token token) trivial (List.forall_mem_nil _)

theorem Spans.ident (token : Token) (name : String) : (Expr.ident token.span name).Spans [token] :=
  .of_parts (.token token) trivial (List.forall_mem_nil _)

theorem Spans.group (h : e.Heads words) (opening closing : Token) :
    (Expr.group (opening.span.through closing.span) e).Spans
      (opening :: (words ++ [closing])) := by
  refine .of_parts ((Covers.token opening).append words (.token closing)) trivial ?_
  exact List.forall_mem_singleton.mpr (h.sits.mono (List.infix_append [opening] words [closing]))

theorem Spans.unary (h : e.Spans words) (operator : Token) (op : UnaryOp) :
    (Expr.unary (operator.span.through e.span) op e).Spans (operator :: words) := by
  refine .of_parts ((Covers.token operator).append [] h.covers) trivial ?_
  exact List.forall_mem_singleton.mpr (h.heads.sits.mono (List.suffix_cons operator words).isInfix)

theorem Spans.join {left right : Expr} (hleft : left.Spans words) (hright : right.Spans words')
    (operator : Token) (joint : Parser.Joint) :
    (joint.join left right).Spans (words ++ operator :: words') := by
  have hcovers : Covers (words ++ operator :: words') (left.span.through right.span) := by
    simpa using hleft.covers.append [operator] hright.covers
  have hparts : ∀ part ∈ [left, right], part.Sits (words ++ operator :: words') := by
    refine List.forall_mem_cons.mpr ⟨?_, List.forall_mem_singleton.mpr ?_⟩
    · exact hleft.heads.sits.mono (List.prefix_append words _).isInfix
    · exact hright.heads.sits.mono ⟨words ++ [operator], [], by simp⟩
  cases joint with
  | binary op => exact .of_parts hcovers trivial hparts
  | logical op => exact .of_parts hcovers trivial hparts

theorem Spans.call {callee : Expr} {args : List Expr} (hcallee : callee.Spans words)
    (hargs : ∀ arg ∈ args, arg.Sits words') (opening : Token) {closing : Token}
    (hclosing : closing.kind = .symbol .rightParen) :
    (Expr.call (callee.span.through closing.span) closing.span callee args).Spans
      (words ++ opening :: (words' ++ [closing])) := by
  have hwords : words ++ opening :: (words' ++ [closing]) =
      (words ++ opening :: words') ++ [closing] := by simp
  have hfront : ∀ e ∈ callee :: args, e.Sits (words ++ opening :: words') := by
    refine List.forall_mem_cons.mpr ⟨?_, fun arg harg => ?_⟩
    · exact hcallee.heads.sits.mono (List.prefix_append words _).isInfix
    · exact (hargs arg harg).mono ⟨words ++ [opening], [], by simp⟩
  rw [hwords]
  refine .of_parts (hcallee.covers.append (opening :: words') (.token closing))
    ⟨_, closing, rfl, hclosing, rfl, fun e he => (hfront e he).lies⟩ fun e he => ?_
  exact (hfront e he).mono (List.prefix_append _ [closing]).isInfix

/-- The value may have words left over after it, if they could not be assigned. -/
theorem Heads.assign {span : Span} {value : Expr} (htarget : Covers words span)
    (hvalue : value.Heads words') (equals : Token) (name : String) :
    (Expr.assign (span.through value.span) name value).Heads (words ++ equals :: words') := by
  obtain ⟨part, ⟨more, rfl⟩, hcovers⟩ := hvalue.covers
  have hall : Covers (words ++ equals :: part) (span.through value.span) := by
    simpa using htarget.append [equals] hcovers
  have hpart : words ++ equals :: part <+: words ++ equals :: (part ++ more) := ⟨more, by simp⟩
  have hlies : Lies (words ++ equals :: part) value.span :=
    ⟨part, ⟨words ++ [equals], [], by simp⟩, hcovers⟩
  refine ⟨⟨_, hpart, hall⟩, each_iff.mpr ⟨⟨_, hpart.isInfix, hall, ?_, trivial⟩, ?_⟩⟩
  · exact List.forall_mem_map.mpr (List.forall_mem_singleton.mpr hlies)
  · exact List.forall_mem_singleton.mpr
      (hvalue.sits.mono ⟨words ++ [equals], [], by simp⟩).each

end Expr

namespace Stmt

variable {words words' : List Token} {s : Stmt}

theorem Sits.mono (h : s.Sits words) (hwords : words <:+: words') : s.Sits words' :=
  ⟨h.lies.mono hwords, h.each.imp fun _ hnode => hnode.mono hwords⟩

theorem Spans.sits (h : s.Spans words) : s.Sits words := ⟨h.covers.lies, h.each⟩

theorem Spans.of_parts (hcovers : Covers words s.span) (hexprs : ∀ e ∈ s.exprs, e.Sits words)
    (hparts : ∀ part ∈ s.parts, part.Sits words) : s.Spans words := by
  refine ⟨hcovers, each_iff.mpr ⟨⟨words, List.infix_rfl, hcovers, ?_, trivial⟩, ?_, ?_⟩⟩
  · refine List.forall_mem_append.mpr ⟨?_, ?_⟩
    · exact List.forall_mem_map.mpr fun e he => (hexprs e he).lies
    · exact List.forall_mem_map.mpr fun part hpart => (hparts part hpart).lies
  · exact fun e he => (hexprs e he).each
  · exact fun part hpart => (hparts part hpart).each

/-- The step of a `for` loop is a statement of its own, in the place of the expression. -/
theorem Sits.step {e : Expr} (h : e.Sits words) : (Stmt.expr e.span e).Sits words := by
  obtain ⟨part, hpart, hcovers⟩ := h.lies
  refine ⟨h.lies, each_iff.mpr ⟨⟨part, hpart, hcovers, ?_, trivial⟩, ?_, ?_⟩⟩
  · exact List.forall_mem_singleton.mpr hcovers.lies
  · exact List.forall_mem_singleton.mpr h.each
  · exact List.forall_mem_nil _

/-- All three statements that a `for` loop is put together from have the place of the loop. -/
theorem Spans.forLoop {span : Span} {init : Option Stmt} {cond : Expr} {step : Option Expr}
    {body : Stmt} (hcovers : Covers words span) (hinit : ∀ s ∈ init, s.Sits words)
    (hcond : cond.Sits words) (hstep : ∀ e ∈ step, e.Sits words) (hbody : body.Sits words) :
    (Parser.forLoop span init cond step body).Spans words := by
  have hnone : ∀ e ∈ ([] : List Expr), e.Sits words := List.forall_mem_nil _
  have hsteps : ∀ s ∈ (step.map fun e => Stmt.expr e.span e).toList, s.Sits words := by
    cases step with
    | none => exact List.forall_mem_nil _
    | some e => exact List.forall_mem_singleton.mpr (.step (hstep e rfl))
  have hinner := (Spans.of_parts (s := .block span (body :: _)) hcovers hnone
    (List.forall_mem_cons.mpr ⟨hbody, hsteps⟩)).sits
  have hloop := (Spans.of_parts (s := .whileDo span cond _) hcovers
    (List.forall_mem_singleton.mpr hcond) (List.forall_mem_singleton.mpr hinner)).sits
  refine .of_parts hcovers hnone (List.forall_mem_append.mpr ⟨fun s hs => ?_, ?_⟩)
  · exact hinit s (Option.mem_toList.mp hs)
  · exact List.forall_mem_singleton.mpr hloop

end Stmt

/-! ## Expressions that are read -/

namespace Parser

variable {α β : Type} {stop : Nat} {nested operand expr : Parser Expr}

theorem lays_checkCount_bind {Q : List Token → β → Prop} {f : Unit → Parser β}
    (tooMany : Nat → Fault) (count : Nat) (hf : Lays stop Q (f ())) :
    Lays stop Q (checkCount tooMany count >>= f) := by
  unfold checkCount
  split
  · rw [bind_assoc]
    exact .here_bind fun span => .report_bind hf
  · exact hf

section

variable {R : List Token → α → Prop} {item : Parser α}
  (hmono : ∀ words words' a, words <:+: words' → R words a → R words' a)
  (hitem : ∀ stop, Lays stop R item)
include hmono hitem

theorem lays_commaSeparated (tooMany : Nat → Fault) (steps count : Nat) :
    Lays stop (fun words items => ∀ a ∈ items, R words a)
      (commaSeparated tooMany item steps count) := by
  induction steps generalizing stop count with
  | zero => exact .pure (List.forall_mem_nil _)
  | succ steps ih =>
    refine lays_checkCount_bind tooMany count ?_
    refine (hitem stop).bind fun words first hfirst => .acceptKind?_bind ?_ fun comma _ => ?_
    · exact .pure (List.forall_mem_singleton.mpr (by rwa [List.append_nil]))
    · refine (ih (count + 1)).bind fun words' others hothers => .pure ?_
      rw [List.append_nil]
      refine List.forall_mem_cons.mpr ⟨?_, fun a ha => ?_⟩
      · exact hmono _ _ _ (List.prefix_append words _).isInfix hfirst
      · exact hmono _ _ _ ⟨words ++ [comma], [], by simp⟩ (hothers a ha)

theorem lays_itemList (steps : Nat) (tooMany : Nat → Fault) :
    Lays stop (fun words items => ∀ a ∈ items, R words a) (itemList steps tooMany item) := by
  refine .nextIs_bind fun closed => ?_
  split
  · exact .pure (List.forall_mem_nil _)
  · exact lays_commaSeparated hmono hitem tooMany steps 0

end

/-- The parser reads whole expressions, with perhaps some words left over after them. -/
abbrev LaysWholes (p : Parser Expr) : Prop := ∀ stop, Lays stop (fun words e => e.Heads words) p

/-- The parser reads operands, which go through all their words. -/
abbrev LaysOperands (p : Parser Expr) : Prop := ∀ stop, Lays stop (fun words e => e.Spans words) p

theorem lays_primary (h : LaysWholes nested) : LaysOperands (primary nested) := by
  intro stop
  rw [primary_eq]
  refine .byHead (.failHere _) fun token p hp => ?_
  unfold unitBranch at hp
  split at hp
  · rename_i tree htree
    cases hp
    rcases unit?_cases htree with ⟨value, rfl⟩ | ⟨name, rfl⟩
    · exact .pure (.literal token value)
    · exact .pure (.ident token name)
  · split at hp
    · cases hp
      exact (h _).bind fun words inner hinner => .expect_bind fun closing _ =>
        .pure (.group hinner token closing)
    · cases hp

theorem lays_callsOf (h : LaysWholes nested) (width steps : Nat) {callee : Expr}
    {words : List Token} (hcallee : callee.Spans words) :
    Lays stop (fun words' e => e.Spans (words ++ words')) (callsOf width nested steps callee) := by
  induction steps generalizing stop callee words with
  | zero => exact .pure (by rwa [List.append_nil])
  | succ steps ih =>
    refine .acceptKind?_bind (.pure (by rwa [List.append_nil])) fun opening _ => ?_
    have hargs (stop : Nat) : Lays stop (fun words e => e.Sits words) nested :=
      (h stop).imp fun _ _ he => he.sits
    have hcall : Lays opening.span.stop
        (fun words' e => e.Spans (words ++ opening :: words')) (finishCall width nested callee) :=
      (lays_itemList (fun _ _ _ hwords he => he.mono hwords) hargs width _).bind
        fun words' args hargs => .expect_bind fun closing hclosing =>
          .pure (hcallee.call hargs opening hclosing)
    exact hcall.bind fun words' next hnext => (ih hnext).imp fun words'' e he => by
      simpa using he

theorem lays_call (h : LaysWholes nested) (steps : Nat) : LaysOperands (call steps nested) :=
  fun stop => (lays_primary h stop).bind fun _ _ hcallee => lays_callsOf h steps steps hcallee

theorem lays_unary (h : LaysOperands operand) (steps : Nat) :
    LaysOperands (unary operand steps) := by
  induction steps with
  | zero => exact h
  | succ steps ih =>
    intro stop
    refine .accept?_bind (h stop) fun op token _ => (ih _).bind fun words inner hinner => .pure ?_
    rw [List.append_nil]
    exact hinner.unary token op

theorem lays_chain (h : LaysOperands operand) (level : Level) (steps : Nat) {left : Expr}
    {words : List Token} (hleft : left.Spans words) :
    Lays stop (fun words' e => e.Spans (words ++ words')) (chain level operand steps left) := by
  induction steps generalizing stop left words with
  | zero => exact .pure (by rwa [List.append_nil])
  | succ steps ih =>
    refine .accept?_bind (.pure (by rwa [List.append_nil])) fun joint token _ => ?_
    refine (h _).bind fun words' right hright => ?_
    exact (ih (hleft.join hright token joint)).imp fun words'' e he => by simpa using he

theorem lays_binary (h : LaysOperands operand) (steps : Nat) (levels : List Level) :
    LaysOperands (binary steps operand levels) := by
  induction levels with
  | nil => exact h
  | cons level tighter ih =>
    exact fun stop => (ih stop).bind fun _ _ hleft => lays_chain ih level steps hleft

theorem lays_assignment (h : LaysWholes nested) (steps : Nat) :
    LaysWholes (assignment steps nested) := by
  intro stop
  have hbinary := lays_binary (lays_unary (lays_call h steps) steps) steps levels stop
  refine hbinary.bind fun words target htarget => .acceptKind?_bind ?_ fun equals _ => ?_
  · exact .pure (by rw [List.append_nil]; exact htarget.heads)
  · refine (h _).bind fun words' value hvalue => ?_
    split
    · exact .pure (by rw [List.append_nil]; exact .assign htarget.covers hvalue equals _)
    · refine .report_bind (.pure ?_)
      rw [List.append_nil]
      refine ⟨⟨words, List.prefix_append words _, htarget.covers⟩, ?_⟩
      exact htarget.each.imp fun _ hnode => hnode.mono (List.prefix_append words _).isInfix

/-- **The parser of expressions makes seated trees.** -/
theorem lays_expression (n : Nat) : LaysWholes (expression n) := by
  induction n with
  | zero => exact fun _ => .failHere _
  | succ n ih => exact lays_assignment ih (n + 1)

/-! ## Statements that are read -/

/-- The parser reads statements, which go through all their words. -/
abbrev LaysStatements (p : Parser Stmt) : Prop := ∀ stop, Lays stop (fun words s => s.Spans words) p

/-- What the parser keeps is seated among its words. -/
abbrev LaysKept (p : Parser (Option Stmt)) : Prop :=
  ∀ stop, Lays stop (fun words kept => ∀ s ∈ kept, s.Sits words) p

variable {statement : Parser Stmt} {declaration : Parser (Option Stmt)}

theorem LaysWholes.sits (h : LaysWholes expr) (stop : Nat) :
    Lays stop (fun words e => e.Sits words) expr :=
  (h stop).imp fun _ _ he => he.sits

/-- An expression that can be absent. -/
theorem LaysWholes.unlessNext (h : LaysWholes expr) (kind : Token.Kind) (stop : Nat) :
    Lays stop (fun words value => ∀ e ∈ value, e.Sits words) (unlessNext kind expr) :=
  (h.sits stop).unlessNext (fun _ h => nomatch h) fun _ _ he _ h => by cases h; exact he

theorem lays_declarations (h : LaysKept declaration) (closed : State → Bool) (steps : Nat) :
    Lays stop (fun words body => ∀ s ∈ body, s.Sits words)
      (declarations declaration closed steps) := by
  induction steps generalizing stop with
  | zero => exact .pure (List.forall_mem_nil _)
  | succ steps ih =>
    intro s hs
    rw [declarations]
    split
    · exact ⟨[], .same (List.forall_mem_nil _)⟩
    · refine (h stop).bind (fun words kept hkept => ih.bind fun words' others hothers => .pure ?_)
        s hs
      rw [List.append_nil]
      refine List.forall_mem_append.mpr ⟨fun t ht => ?_, fun t ht => ?_⟩
      · exact (hkept t (Option.mem_toList.mp ht)).mono (List.prefix_append words _).isInfix
      · exact (hothers t ht).mono (List.suffix_append words _).isInfix

theorem lays_block (h : LaysKept declaration) (steps : Nat) :
    Lays stop (fun words body => ∀ s ∈ body, s.Sits words) (block steps declaration) :=
  (lays_declarations h _ steps).bind fun words _ hbody => .expect_bind fun brace _ => .pure
    fun t ht => (hbody t ht).mono (List.prefix_append words [brace]).isInfix

/-- The keyword comes before the words of the rest of the statement. -/
abbrev LaysAfter (keyword : Token) (p : Parser Stmt) : Prop :=
  Lays keyword.span.stop (fun words s => s.Spans (keyword :: words)) p

theorem lays_blockStatement (h : LaysKept declaration) (steps : Nat) (brace : Token) :
    LaysAfter brace (blockStatement steps declaration brace.span.start) := by
  refine (lays_block h steps).bind fun words body hbody => .spanFrom_bind (.pure ?_)
  rw [List.append_nil]
  refine .of_parts (covers_from brace words) (List.forall_mem_nil _) fun t ht => ?_
  exact (hbody t ht).mono (List.suffix_cons brace words).isInfix

theorem lays_funcDeclaration (h : LaysKept declaration) (steps : Nat) (keyword : Token) :
    LaysAfter keyword (funcDeclaration steps declaration keyword.span.start) := by
  refine .expect_bind fun name _ => .expect_bind fun opening _ => ?_
  have hparam (stop : Nat) : Lays stop (fun _ _ => True) (expect .identifier "parameter name") := by
    rw [← bind_pure (expect .identifier "parameter name")]
    exact .expect_bind fun _ _ => .pure trivial
  refine (lays_itemList (fun _ _ _ _ _ => trivial) hparam steps _).bind fun words params _ => ?_
  refine .expect_bind fun closing _ => .expect_bind fun brace _ => ?_
  refine (lays_block h steps).insideFunction.bind fun words' body hbody =>
    .spanFrom_bind (.pure ?_)
  refine .of_parts ?_ (List.forall_mem_nil _) fun t ht => ?_
  · simpa [Stmt.span] using covers_from keyword
      (name :: opening :: (words ++ closing :: brace :: words'))
  · exact (hbody t ht).mono
      ⟨keyword :: name :: opening :: (words ++ [closing, brace]), [], by simp⟩

theorem lays_varDeclaration (h : LaysWholes expr) (keyword : Token) :
    LaysAfter keyword (varDeclaration expr keyword.span.start) := by
  have hvalue (stop : Nat) :
      Lays stop (fun words value => ∀ e ∈ value, e.Sits words) (initialValue expr) := by
    refine .acceptKind?_bind (.pure fun _ h => nomatch h) fun equals _ => ?_
    refine (h.sits _).map fun words e he _ h => ?_
    cases h
    exact he.mono (List.suffix_cons equals words).isInfix
  refine .expect_bind fun name _ => (hvalue _).bind fun words value hvalue => ?_
  refine .expect_bind fun semicolon _ => .spanFrom_bind (.pure ?_)
  refine .of_parts ?_ (fun e he => ?_) (List.forall_mem_nil _)
  · simpa [Stmt.span] using covers_from keyword (name :: (words ++ [semicolon]))
  · exact (hvalue e (Option.mem_toList.mp he)).mono ⟨[keyword, name], [semicolon], by simp⟩

theorem lays_exprStatement (h : LaysWholes expr) : LaysStatements (exprStatement expr) := by
  refine fun stop => (h stop).bind fun words value hvalue => .expect_bind fun semicolon _ =>
    .spanFrom_bind (.pure ?_)
  obtain ⟨first, rest, rfl, hstart⟩ := hvalue.start
  refine .of_parts ?_ (List.forall_mem_singleton.mpr ?_) (List.forall_mem_nil _)
  · rw [hstart]
    simpa [Stmt.span] using covers_from first (rest ++ [semicolon])
  · exact hvalue.sits.mono (List.prefix_append _ [semicolon]).isInfix

theorem lays_forInitial (h : LaysWholes expr) : LaysKept (forInitial expr) := by
  intro stop
  refine .acceptKind?_bind ?_ fun _ _ => .pure fun _ h => nomatch h
  refine .acceptKind?_bind ?_ fun keyword _ => ?_
  · exact (lays_exprStatement h stop).map fun _ _ hs _ h => by cases h; exact hs.sits
  · exact (lays_varDeclaration h keyword).map fun _ _ hs _ h => by cases h; exact hs.sits

theorem forCondition_of_next {s : State} (h : s.nextIs (.symbol .semicolon) = true) :
    forCondition expr s = .ok (.literal s.here (.bool true)) s := by
  rw [forCondition, bind_apply]
  simp only [nextIs, h]
  rfl

theorem forCondition_of_not {s : State} (h : ¬s.nextIs (.symbol .semicolon) = true) :
    forCondition expr s = expr s := by
  rw [forCondition, bind_apply]
  simp only [nextIs, h]
  rfl

/-- A condition that is absent has the place of the semicolon after it, so both are taken
together. -/
theorem lays_forCondition_bind (h : LaysWholes expr) {what : String} {f : Expr → Parser α}
    {Q : List Token → α → Prop} (hf : ∀ words cond semicolon, cond.Sits (words ++ [semicolon]) →
      Lays semicolon.span.stop (fun words' => Q (words ++ semicolon :: words')) (f cond)) :
    Lays stop Q (forCondition expr >>= fun cond =>
      expect (.symbol .semicolon) what >>= fun _ => f cond) := by
  have hpresent : Lays stop Q (expr >>= fun cond =>
      expect (.symbol .semicolon) what >>= fun _ => f cond) := by
    refine (h stop).bind fun words cond hcond => .expect_bind fun semicolon _ => ?_
    exact hf words cond semicolon (hcond.sits.mono (List.prefix_append words _).isInfix)
  intro s hs
  rw [bind_apply]
  by_cases hnext : s.nextIs (.symbol .semicolon) = true
  -- the place of the condition is that of the token which is taken next
  · obtain ⟨semicolon, rest, hrest, hkind⟩ := exists_of_nextIs hnext
    have hcond : (Expr.literal semicolon.span (.bool true)).Sits ([] ++ [semicolon]) :=
      (Expr.Spans.literal semicolon _).heads.sits
    have hhere : s.here = semicolon.span := by rw [State.here, hrest]
    rw [forCondition_of_next hnext, hhere]
    dsimp only
    rw [bind_apply, expect_of_rest hrest hkind]
    exact (hf [] _ semicolon hcond).cons hrest
  · rw [forCondition_of_not hnext]
    have := hpresent s hs
    rwa [bind_apply] at this

theorem lays_forStatement (h : LaysWholes expr) (hstatement : LaysStatements statement)
    (keyword : Token) :
    LaysAfter keyword (forStatement expr statement keyword.span.start) := by
  refine .expect_bind fun opening _ => (lays_forInitial h _).bind fun before init hinit => ?_
  refine lays_forCondition_bind h fun words cond semicolon hcond => ?_
  refine (h.unlessNext _ _).bind fun after step hstep => .expect_bind fun closing _ => ?_
  refine (hstatement _).bind fun words' body hbody => .spanFrom_bind (.pure ?_)
  refine .forLoop ?_ (fun t ht => (hinit t ht).mono ?_) (hcond.mono ?_)
    (fun e he => (hstep e he).mono ?_) (hbody.sits.mono ?_)
  · simpa [Stmt.span] using covers_from keyword
      (opening :: (before ++ (words ++ semicolon :: (after ++ closing :: words'))))
  · exact ⟨[keyword, opening], words ++ semicolon :: (after ++ closing :: words'), by simp⟩
  · exact ⟨keyword :: opening :: before, after ++ closing :: words', by simp⟩
  · exact ⟨keyword :: opening :: (before ++ (words ++ [semicolon])), closing :: words', by simp⟩
  · exact ⟨keyword :: opening :: (before ++ (words ++ semicolon :: (after ++ [closing]))), [],
      by simp⟩

theorem lays_ifStatement (h : LaysWholes expr) (hstatement : LaysStatements statement)
    (keyword : Token) :
    LaysAfter keyword (ifStatement expr statement keyword.span.start) := by
  refine .expect_bind fun opening _ => (h.sits _).bind fun words cond hcond => ?_
  refine .expect_bind fun closing _ => (hstatement _).bind fun words' yes hyes => ?_
  refine .acceptKind?_bind (.spanFrom_bind (.pure ?_)) fun other _ =>
    (hstatement _).bind fun words'' no hno => .spanFrom_bind (.pure ?_)
  · refine .of_parts ?_ (List.forall_mem_singleton.mpr (hcond.mono ?_))
      (List.forall_mem_singleton.mpr (hyes.sits.mono ?_))
    · simpa [Stmt.span] using covers_from keyword (opening :: (words ++ closing :: words'))
    · exact ⟨[keyword, opening], closing :: words', by simp⟩
    · exact ⟨keyword :: opening :: (words ++ [closing]), [], by simp⟩
  · refine .of_parts ?_ (List.forall_mem_singleton.mpr (hcond.mono ?_))
      (List.forall_mem_cons.mpr ⟨hyes.sits.mono ?_, List.forall_mem_singleton.mpr
        (hno.sits.mono ?_)⟩)
    · simpa [Stmt.span] using covers_from keyword
        (opening :: (words ++ closing :: (words' ++ other :: words'')))
    · exact ⟨[keyword, opening], closing :: (words' ++ other :: words''), by simp⟩
    · exact ⟨keyword :: opening :: (words ++ [closing]), other :: words'', by simp⟩
    · exact ⟨keyword :: opening :: (words ++ closing :: (words' ++ [other])), [], by simp⟩

theorem lays_printStatement (h : LaysWholes expr) (keyword : Token) :
    LaysAfter keyword (printStatement expr keyword.span.start) := by
  refine (h.sits _).bind fun words value hvalue => .expect_bind fun semicolon _ =>
    .spanFrom_bind (.pure ?_)
  refine .of_parts ?_ (List.forall_mem_singleton.mpr ?_) (List.forall_mem_nil _)
  · simpa [Stmt.span] using covers_from keyword (words ++ [semicolon])
  · exact hvalue.mono ⟨[keyword], [semicolon], by simp⟩

theorem lays_returnStatement (h : LaysWholes expr) (keyword : Token) :
    LaysAfter keyword (returnStatement expr keyword.span) := by
  have hcheck (s : State) : ∃ a s', checkReturn keyword.span s = .ok a s' ∧ s'.rest = s.rest ∧
      s'.lastStop = s.lastStop := by
    rw [checkReturn]
    split
    · exact ⟨_, _, rfl, rfl, rfl⟩
    · exact ⟨_, _, rfl, rfl, rfl⟩
  refine .still_bind hcheck fun _ => (h.unlessNext _ _).bind fun words value hvalue => ?_
  refine .expect_bind fun semicolon _ => .spanFrom_bind (.pure ?_)
  refine .of_parts ?_ (fun e he => ?_) (List.forall_mem_nil _)
  · simpa [Stmt.span] using covers_from keyword (words ++ [semicolon])
  · exact (hvalue e (Option.mem_toList.mp he)).mono ⟨[keyword], [semicolon], by simp⟩

theorem lays_whileStatement (h : LaysWholes expr) (hstatement : LaysStatements statement)
    (keyword : Token) :
    LaysAfter keyword (whileStatement expr statement keyword.span.start) := by
  refine .expect_bind fun opening _ => (h.sits _).bind fun words cond hcond => ?_
  refine .expect_bind fun closing _ => (hstatement _).bind fun words' body hbody =>
    .spanFrom_bind (.pure ?_)
  refine .of_parts ?_ (List.forall_mem_singleton.mpr (hcond.mono ?_))
    (List.forall_mem_singleton.mpr (hbody.sits.mono ?_))
  · simpa [Stmt.span] using covers_from keyword (opening :: (words ++ closing :: words'))
  · exact ⟨[keyword, opening], closing :: words', by simp⟩
  · exact ⟨keyword :: opening :: (words ++ [closing]), [], by simp⟩

theorem lays_statementBranch (h : LaysWholes expr) (hstatement : LaysStatements statement)
    (hdeclaration : LaysKept declaration) (steps : Nat) {token : Token} {p : Parser Stmt}
    (hp : statementBranch steps expr statement declaration token = some p) : LaysAfter token p := by
  unfold statementBranch at hp
  split at hp <;> cases hp
  · exact lays_forStatement h hstatement token
  · exact lays_ifStatement h hstatement token
  · exact lays_printStatement h token
  · exact lays_returnStatement h token
  · exact lays_whileStatement h hstatement token
  · exact lays_blockStatement hdeclaration steps token

theorem lays_declarationBranch (h : LaysWholes expr) (hstatement : LaysStatements statement)
    (hdeclaration : LaysKept declaration) (steps : Nat) {token : Token} {p : Parser Stmt}
    (hp : declarationBranch steps expr statement declaration token = some p) :
    LaysAfter token p := by
  unfold declarationBranch at hp
  split at hp
  · cases hp
    exact lays_funcDeclaration hdeclaration steps token
  · cases hp
    exact lays_varDeclaration h token
  · exact lays_statementBranch h hstatement hdeclaration steps hp

/-- **The parser makes seated trees**, also where declarations break off. -/
theorem lays_statement_declaration (n : Nat) :
    LaysStatements (Parser.statement n) ∧ LaysKept (Parser.declaration n) := by
  induction n with
  | zero => exact ⟨fun _ => .failHere _, fun _ => .pure fun _ h => nomatch h⟩
  | succ n ih =>
    obtain ⟨hstatement, hdeclaration⟩ := ih
    have hexpr := lays_expression (n + 1)
    refine ⟨fun stop => ?_, fun stop => ?_⟩
    · rw [statement_succ]
      exact .byHead (lays_exprStatement hexpr stop) fun token p hp =>
        lays_statementBranch hexpr hstatement hdeclaration (n + 1) hp
    · rw [declaration_succ, declarationBody]
      refine .recover (.byHead (lays_exprStatement hexpr stop) fun token p hp =>
        lays_declarationBranch hexpr hstatement hdeclaration (n + 1) hp) ?_ ?_
      · exact fun _ _ h => nomatch h
      · exact fun _ _ hs _ h => by cases h; exact hs.sits

end Parser

/-- **All nodes of a program are seated** among the tokens that it was read from, with their parts
inside them, whatever the tokens are. -/
theorem seated_parseTokens (tokens : List Token) :
    ∀ node ∈ (parseTokens tokens).program.nodes,
      node.Seated (Parser.State.start tokens).rest := by
  intro node hnode
  rw [parseTokens] at hnode
  cases hr : Parser.program _ (Parser.State.start tokens) with
  | error fault s =>
    rw [hr] at hnode
    exact absurd hnode List.not_mem_nil
  | ok program s =>
    rw [hr] at hnode
    obtain ⟨t, ht, hnode⟩ := Program.mem_nodes.mp hnode
    have hdeclaration :=
      (Parser.lays_statement_declaration ((Parser.State.start tokens).rest.length + 1)).2
    obtain ⟨words, hrest, -, hvalue⟩ :=
      Parser.lays_declarations hdeclaration _ _ (Parser.State.start tokens) rfl
    have hwords : words <:+: (Parser.State.start tokens).rest := by
      rw [hrest]
      exact (List.prefix_append words _).isInfix
    exact ((hvalue program s hr t ht).each node hnode).mono hwords

end BlockScript
