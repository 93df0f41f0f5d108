import Mathlib.Data.List.Forall2
import BlockScript.Proofs.Grammar
import BlockScript.Proofs.Reads

/-!
# What the grammar derives, the parser reads

The parser gives every word of the grammar the tree that the grammar gives it, as long as what
comes after the word cannot belong to it. What could belong to a word is said by the kinds of
tokens that may *not* follow: an operator of the word's own levels, an opening parenthesis after an
operand, an equals sign after a variable, and an `else` after an open statement.

Only derivations in which each `else` belongs to the nearest `if` are read as they stand, since that
is how the parser decides. The others are a matter of the grammar alone.

## Main results

* `Parser.readsExpr_of_derives` — an expression is read as its tree
* `Parser.readsStmt_of_derives` — a declaration or a statement is read as its tree
* `Parser.reads_program` — a program is read as its tree
-/

namespace BlockScript

namespace Parser

open Grammar (precedence)

variable {α : Type}

/-! ## At the end of the input -/

theorem atEnd_primary {nested : Parser Expr} : AtEnd (primary nested) := by
  intro s h
  rw [primary, h]
  exact AtEnd.failHere _ s h

theorem atEnd_checkCount {tooMany : Nat → Fault} {count : Nat} :
    AtEnd (checkCount tooMany count) := by
  unfold checkCount
  split
  · intro s h
    exact (EndsAt.refl h).record (State.here_of_end h)
  · exact .pure ()

theorem atEnd_commaSeparated {item : Parser α} (hitem : AtEnd item) {tooMany : Nat → Fault}
    {steps count : Nat} : AtEnd (commaSeparated tooMany item steps count) := by
  cases steps with
  | zero => exact .pure []
  | succ steps =>
    exact atEnd_checkCount.bind fun _ => hitem.bind fun a => .acceptKind?_bind (.pure [a])

theorem atEnd_itemList {item : Parser α} (hitem : AtEnd item) {steps : Nat}
    {tooMany : Nat → Fault} : AtEnd (itemList steps tooMany item) :=
  .nextIs_bind (atEnd_commaSeparated hitem)

theorem atEnd_callsOf {width : Nat} {nested : Parser Expr} {steps : Nat} {callee : Expr} :
    AtEnd (callsOf width nested steps callee) := by
  cases steps with
  | zero => exact .pure callee
  | succ steps => exact .acceptKind?_bind (.pure callee)

theorem atEnd_call {steps : Nat} {nested : Parser Expr} : AtEnd (call steps nested) :=
  atEnd_primary.bind fun _ => atEnd_callsOf

theorem atEnd_unary {operand : Parser Expr} (h : AtEnd operand) {steps : Nat} :
    AtEnd (unary operand steps) := by
  cases steps with
  | zero => exact h
  | succ steps => exact .accept?_bind h

theorem atEnd_chain {level : Level} {operand : Parser Expr} {steps : Nat} {left : Expr} :
    AtEnd (chain level operand steps left) := by
  cases steps with
  | zero => exact .pure left
  | succ steps => exact .accept?_bind (.pure left)

theorem atEnd_binary {operand : Parser Expr} (h : AtEnd operand) {steps : Nat}
    {levels : List Level} : AtEnd (binary steps operand levels) := by
  induction levels with
  | nil => exact h
  | cons level tighter ih => exact ih.bind fun _ => atEnd_chain

theorem atEnd_expression {n : Nat} : AtEnd (expression n) := by
  cases n with
  | zero => exact .failHere _
  | succ n =>
    exact (atEnd_binary (atEnd_unary atEnd_call)).bind fun target =>
      .acceptKind?_bind (.pure target)

/-! ## What may follow -/

/-- What may follow an operand and operators of the given levels. -/
def endsBinary (levels : List Grammar.Level) (kind : Token.Kind) : Prop :=
  kind ≠ .symbol .leftParen ∧ ∀ level ∈ levels, ∀ entry ∈ level, entry.1 ≠ kind

/-- What may follow an expression. -/
def endsExpression (kind : Token.Kind) : Prop :=
  endsBinary precedence kind ∧ kind ≠ .symbol .equal

/-- The parser's table of a level is that of the grammar. -/
def Matches (level : Level) (entries : Grammar.Level) : Prop :=
  ∀ kind joint, level kind = some joint ↔ (kind, joint) ∈ entries

theorem matches_levels : List.Forall₂ Matches levels precedence := by
  unfold levels precedence
  refine .cons ?_ (.cons ?_ (.cons ?_ (.cons ?_ (.cons ?_ (.cons ?_ .nil))))) <;> intro kind joint
  all_goals
    dsimp only
    split <;> simp_all [eq_comm]

/-- An operator of a level may follow an operand made of the tighter levels. -/
def Layered : List Grammar.Level → Prop
  | [] => True
  | level :: tighter => (∀ entry ∈ level, endsBinary tighter entry.1) ∧ Layered tighter

theorem layered_precedence : Layered precedence := by
  unfold precedence Layered endsBinary
  simp only [Layered, endsBinary]
  decide

/-! ## Expressions -/

section

variable {n m : Nat} {inside : Bool} {stop : Nat} {words : List Token}

theorem reads_commaSeparated {item : Parser α} {ok ok' : Token.Kind → Prop}
    {tooMany : Nat → Fault} (hok : ∀ kind, ok' kind → ok kind)
    (hcomma : ok (.symbol .comma)) (hcomma' : ¬ok' (.symbol .comma)) :
    ∀ {items : List (List Token × α)} {words : List Token} {m steps count stop : Nat},
      items ≠ [] → Grammar.Separated (items.map Prod.fst) words → m ≤ steps →
      count + items.length ≤ maxItems →
      (∀ i ∈ items, ∀ stop, Reads m item ok inside stop i.1 i.2) →
      Reads m (commaSeparated tooMany item steps count) ok' inside stop words
        (items.map Prod.snd) := by
  intro items
  induction items with
  | nil => intro _ _ _ _ _ h; exact absurd rfl h
  | cons i items ih =>
    intro words m steps count stop _ hwords hm hcount hitems
    cases steps with
    | zero =>
      rw [Nat.le_zero.mp hm]
      exact .zero
    | succ steps =>
      have hcheck : Reads m (checkCount tooMany count) (fun _ => True) inside stop [] () := by
        rw [checkCount, if_neg (by simp at hcount; omega)]
        exact .pure ()
      refine hcheck.nil_bind ?_ fun _ _ _ _ => trivial
      have hi := hitems i List.mem_cons_self stop
      rcases hwords.cons_cases with ⟨hnil, rfl⟩ | ⟨comma, others, hkind, hne, hothers, rfl⟩
      · have hnil : items = [] := List.map_eq_nil_iff.mp hnil
        subst hnil
        refine hi.bind_nil (Reads.acceptKind?_none.nil_bind (.pure _) ?_) hok
          fun a => .acceptKind?_bind (.pure [a])
        intro rest hrest
        exact hrest.imp fun kind hkind hc => hcomma' (hc ▸ hkind)
      · have hne : items ≠ [] := fun h => hne (by rw [h]; rfl)
        have hrest : ∀ j ∈ items, ∀ stop, Reads (m - 1) item ok inside stop j.1 j.2 :=
          fun j hj stop => (hitems j (List.mem_cons_of_mem _ hj) stop).mono (Nat.sub_le m 1)
        refine hi.bind (.acceptKind?_bind hkind ?_ (.pure _) (Nat.le_refl (m - 1 + 1))) ?_
          (fun _ a => .acceptKind?_bind (.pure [a])) (by omega)
        · exact (ih hne hothers (by omega) (by simp at hcount; omega) hrest).bind_nil (.pure _)
            (fun _ h => h) fun as => .pure _
        · intro rest hrest
          simpa [hkind] using hcomma

/-- A list of items, possibly empty, before a closing parenthesis. -/
theorem reads_itemList_bind {β : Type} {item : Parser α} {ok ok' : Token.Kind → Prop}
    {tooMany : Nat → Fault} {steps : Nat} {items : List (List Token × α)} {closing : Token}
    {more : List Token} {f : List α → Parser β} {b : β} (hend : AtEnd item)
    (hcomma : ok (.symbol .comma)) (hparen : ok (.symbol .rightParen))
    (hwords : Grammar.Separated (items.map Prod.fst) words) (hsteps : m ≤ steps)
    (hcount : items.length ≤ maxItems)
    (hstarts : ∀ i ∈ items, Grammar.StartsWith (· ≠ .symbol .rightParen) i.1)
    (hitems : ∀ i ∈ items, ∀ stop, Reads m item ok inside stop i.1 i.2)
    (hclosing : closing.kind = .symbol .rightParen) (hendf : ∀ as, AtEnd (f as))
    (hf : Reads m (f (items.map Prod.snd)) ok' inside (stopAfter stop words) (closing :: more) b) :
    Reads m (itemList steps tooMany item >>= f) ok' inside stop (words ++ closing :: more) b := by
  cases items with
  | nil =>
    cases hwords
    refine .head (fun s rest hs => ?_) ((atEnd_itemList hend).bind hendf) hf
    have hnext : s.nextIs (.symbol .rightParen) = true := by
      simp [State.nextIs_of_rest hs, hclosing]
    have hnone : itemList steps tooMany item s = .ok [] s := by
      rw [itemList, bind_apply, nextIs, hnext]
      rfl
    rw [bind_apply, hnone]
    rfl
  | cons i items =>
    have hfirst : Grammar.StartsWith (· ≠ .symbol .rightParen) words := by
      have hi := hstarts i List.mem_cons_self
      rcases hwords.cons_cases with ⟨-, rfl⟩ | ⟨_, _, -, -, -, rfl⟩
      · exact hi
      · exact hi.append _
    obtain ⟨token, words, rfl, htoken⟩ := hfirst
    have hread : Reads m (commaSeparated tooMany item steps 0) (· = .symbol .rightParen) inside stop
        (token :: words) ((i :: items).map Prod.snd) :=
      reads_commaSeparated (fun kind hkind => hkind ▸ hparen) hcomma (by decide)
        (List.cons_ne_nil i items) hwords hsteps (by omega) hitems
    have hlist : Reads m (itemList steps tooMany item) (· = .symbol .rightParen) inside stop
        (token :: words) ((i :: items).map Prod.snd) := by
      refine .head (fun s rest hs => ?_) (atEnd_itemList hend) hread
      have hnext : s.nextIs (.symbol .rightParen) = false := by
        simpa [State.nextIs_of_rest hs] using htoken
      rw [itemList, bind_apply, nextIs, hnext]
      rfl
    exact hlist.bind hf (fun rest _ => by simp [hclosing]) (fun _ => hendf) (Nat.le_add_right m _)

theorem startsWith_ne_rightParen {symbol : Grammar.ExprSymbol} {tree : Expr}
    (h : Grammar.Expression symbol words tree) :
    Grammar.StartsWith (· ≠ .symbol .rightParen) words :=
  h.starts.imp fun kind hkind => by
    rw [decide_eq_true_iff]
    rintro rfl
    exact absurd hkind (by decide)

theorem endsExpression_comma : endsExpression (.symbol .comma) := by
  unfold endsExpression endsBinary
  decide

theorem endsExpression_rightParen : endsExpression (.symbol .rightParen) := by
  unfold endsExpression endsBinary
  decide

theorem endsExpression_semicolon : endsExpression (.symbol .semicolon) := by
  unfold endsExpression endsBinary
  decide

theorem reads_finishCall {call : Grammar.Arguments} {callee : Expr}
    (hitems : ∀ i ∈ call.items, ∀ stop, Reads n (expression n) endsExpression inside stop i.1 i.2)
    (hderives : ∀ i ∈ call.items, Grammar.Expression .assignment i.1 i.2)
    (hwords : Grammar.Separated (call.items.map Prod.fst) call.words)
    (hcount : call.items.length ≤ maxItems) (hclosing : call.closing.kind = .symbol .rightParen) :
    Reads n (finishCall (n + 1) (expression n) callee) (fun _ => True) inside stop
      (call.words ++ [call.closing]) (call.apply callee) :=
  reads_itemList_bind atEnd_expression endsExpression_comma endsExpression_rightParen hwords
    (Nat.le_succ n) hcount (fun i hi => startsWith_ne_rightParen (hderives i hi)) hitems hclosing
    (fun _ => .expect_bind) (.expect_bind hclosing (.pure _) (Nat.le_succ n))

theorem reads_callsOf (calls : List Grammar.Arguments) :
    ∀ {m steps stop : Nat} {callee : Expr}, m ≤ steps → m ≤ n + 1 →
      (∀ c ∈ calls, c.opening.kind = .symbol .leftParen) →
      (∀ c ∈ calls, ∀ stop callee, Reads n (finishCall (n + 1) (expression n) callee)
        (fun _ => True) inside stop (c.words ++ [c.closing]) (c.apply callee)) →
      Reads m (callsOf (n + 1) (expression n) steps callee) (endsBinary []) inside stop
        (calls.flatMap Grammar.Arguments.all) (calls.foldl Grammar.Arguments.apply callee) := by
  induction calls with
  | nil =>
    intro m steps stop callee hsteps _ _ _
    cases steps with
    | zero => rw [Nat.le_zero.mp hsteps]; exact .zero
    | succ steps =>
      exact Reads.acceptKind?_none.nil_bind (.pure callee) fun rest h => h.imp fun _ h => h.1
  | cons c calls ih =>
    intro m steps stop callee hsteps hm hopening hcalls
    cases steps with
    | zero => rw [Nat.le_zero.mp hsteps]; exact .zero
    | succ steps =>
      have hc := (hcalls c List.mem_cons_self c.opening.span.stop callee).mono
        (show m - 1 ≤ n by omega)
      have hrest : Reads (m - 1) (callsOf (n + 1) (expression n) steps (c.apply callee))
          (endsBinary []) inside (stopAfter c.opening.span.stop (c.words ++ [c.closing]))
          (calls.flatMap Grammar.Arguments.all)
          (calls.foldl Grammar.Arguments.apply (c.apply callee)) :=
        ih (by omega) (by omega) (fun c hc => hopening c (List.mem_cons_of_mem _ hc))
          fun c hc => hcalls c (List.mem_cons_of_mem _ hc)
      refine .acceptKind?_bind (hopening c List.mem_cons_self) (m := m - 1) ?_ (.pure _) (by omega)
      exact hc.bind hrest (fun _ _ _ _ => trivial) (fun _ _ => atEnd_callsOf) (by simp)

/-- An operator on one operand. -/
theorem reads_unary_op {operand : Parser Expr} {ok : Token.Kind → Prop} {steps : Nat}
    {operator : Token} {op : UnaryOp} {inner : Expr} (hend : AtEnd operand)
    (hop : unaryOp? operator.kind = some op)
    (h : Reads n (unary operand steps) ok inside operator.span.stop words inner) :
    Reads (n + 1) (unary operand (steps + 1)) ok inside stop (operator :: words)
      (.unary (operator.span.through inner.span) op inner) :=
  .accept?_bind hop (h.bind_nil (.pure _) (fun _ h => h) fun _ => .pure _) hend (Nat.le_refl _)

/-- An operand without an operator before it. -/
theorem reads_unary_operand {operand : Parser Expr} {ok : Token.Kind → Prop} {steps : Nat}
    {token : Token} {tree : Expr} (hend : AtEnd operand) (htoken : unaryOp? token.kind = none)
    (h : Reads n operand ok inside stop (token :: words) tree) :
    Reads n (unary operand steps) ok inside stop (token :: words) tree := by
  cases steps with
  | zero => exact h
  | succ steps =>
    refine .head (fun s rest hs => ?_) (atEnd_unary hend) h
    rw [unary, bind_apply, accept?, hs]
    simp [htoken]

theorem clear_operations {ok ok' : Token.Kind → Prop} {operations : List Grammar.Operation}
    (hoks : ∀ o ∈ operations, ok o.operator.kind) (hok : ∀ kind, ok' kind → ok kind)
    {rest : List Token} (hrest : Clear ok' rest) :
    Clear ok (operations.flatMap Grammar.Operation.all ++ rest) := by
  cases operations with
  | nil => exact hrest.imp hok
  | cons o operations => exact (clear_cons ..).mpr (hoks o List.mem_cons_self)

/-- Operators of one level, each with its operand. Before the next operator an operand ends. -/
theorem reads_chain {level : Level} {operand : Parser Expr} {ok ok' : Token.Kind → Prop}
    (hok : ∀ kind, ok' kind → ok kind)
    (hlevel : ∀ kind, ok' kind → level kind = none) (operations : List Grammar.Operation) :
    ∀ {m steps stop : Nat} {left : Expr}, m ≤ steps →
      (∀ o ∈ operations, level o.operator.kind = some o.joint) →
      (∀ o ∈ operations, ok o.operator.kind) →
      (∀ o ∈ operations, ∀ stop, Reads m operand ok inside stop o.words o.right) →
      Reads m (chain level operand steps left) ok' inside stop
        (operations.flatMap Grammar.Operation.all)
        (operations.foldl Grammar.Operation.apply left) := by
  induction operations with
  | nil =>
    intro m steps stop left hsteps _ _ _
    cases steps with
    | zero => rw [Nat.le_zero.mp hsteps]; exact .zero
    | succ steps =>
      exact Reads.accept?_none.nil_bind (.pure left) fun rest h => h.imp hlevel
  | cons o operations ih =>
    intro m steps stop left hsteps hops hoks hreads
    cases steps with
    | zero => rw [Nat.le_zero.mp hsteps]; exact .zero
    | succ steps =>
      have hmem : ∀ o' ∈ operations, o' ∈ o :: operations := fun o' ho' =>
        List.mem_cons_of_mem _ ho'
      have ho : Reads (m - 1) operand ok inside o.operator.span.stop o.words o.right :=
        (hreads o List.mem_cons_self _).mono (Nat.sub_le m 1)
      have hrest : Reads (m - 1) (chain level operand steps (o.joint.join left o.right)) ok' inside
          (stopAfter o.operator.span.stop o.words) (operations.flatMap Grammar.Operation.all)
          (operations.foldl Grammar.Operation.apply (o.apply left)) := by
        rw [← Grammar.Operation.apply_eq_join]
        exact ih (by omega) (fun o' h => hops o' (hmem o' h)) (fun o' h => hoks o' (hmem o' h))
          fun o' h stop => (hreads o' (hmem o' h) stop).mono (Nat.sub_le m 1)
      refine .accept?_bind (m := m - 1) (hops o List.mem_cons_self) ?_ (.pure _) (by omega)
      exact ho.bind hrest (fun _ => clear_operations (fun o' h => hoks o' (hmem o' h)) hok)
        (fun _ _ => atEnd_chain) (Nat.le_add_right ..)

/-- A token that is an expression by itself. -/
theorem reads_primary_token {nested : Parser Expr} {token : Token} {tree : Expr}
    (h : ∀ (s : State) rest, s.rest = token :: rest → primary nested s = .ok tree s.advance) :
    Reads n (primary nested) (fun _ => True) inside stop [token] tree :=
  .advance h atEnd_primary (.pure tree) (Nat.le_succ n)

theorem reads_grouping {nested : Parser Expr} {opening closing : Token} {inner : Expr}
    (h : Reads n nested endsExpression inside stop words inner)
    (hclosing : closing.kind = .symbol .rightParen) :
    Reads n (grouping nested opening) (fun _ => True) inside stop (words ++ [closing])
      (.group (opening.span.through closing.span) inner) :=
  h.bind (.expect_bind hclosing (.pure _) (Nat.le_succ n))
    (fun _ _ => by simpa [hclosing] using endsExpression_rightParen) (fun _ _ => .expect_bind)
    (Nat.le_add_right n _)

/-- An expression without an assignment at its top. -/
theorem reads_expression_operand {tree : Expr}
    (h : Reads (n + 1) (binary (n + 1) (unary (call (n + 1) (expression n)) (n + 1)) levels)
      (endsBinary precedence) inside stop words tree) :
    Reads (n + 1) (expression (n + 1)) endsExpression inside stop words tree :=
  h.bind_nil
    (Reads.acceptKind?_none.nil_bind (.pure tree) fun _ hrest => hrest.imp fun _ h => h.2)
    (fun _ h => h.1) fun tree => .acceptKind?_bind (.pure tree)

/-- An assignment: the target is read as an operand that ends before the equals sign. -/
theorem reads_expression_assign {target equals : Token} {value : Expr}
    (htarget : Reads (n + 1) (binary (n + 1) (unary (call (n + 1) (expression n)) (n + 1)) levels)
      (endsBinary precedence) inside stop [target] (.ident target.span target.lexeme))
    (hequals : equals.kind = .symbol .equal)
    (hvalue : Reads n (expression n) endsExpression inside equals.span.stop words value) :
    Reads (n + 1) (expression (n + 1)) endsExpression inside stop (target :: equals :: words)
      (.assign (target.span.through value.span) target.lexeme value) := by
  refine htarget.bind (.acceptKind?_bind hequals ?_ (.pure _) (Nat.le_refl (n + 1))) ?_
    (fun _ tree => .acceptKind?_bind (.pure tree)) (Nat.le_add_right ..)
  · exact hvalue.bind_nil (.pure _) (fun _ h => h) fun _ => .pure _
  · intro rest _
    rw [List.cons_append, clear_cons, hequals]
    unfold endsBinary
    decide

/-- How the parser reads the words of a symbol. For the levels of operators it does so with any
tables that agree with those of the grammar. -/
def ReadsExpr (inside : Bool) (words : List Token) (tree : Expr) : Grammar.ExprSymbol → Prop
  | .assignment => ∀ n stop, Reads n (expression n) endsExpression inside stop words tree
  | .binary entries => ∀ n stop levels, List.Forall₂ Matches levels entries → Layered entries →
    Reads (n + 1) (binary (n + 1) (unary (call (n + 1) (expression n)) (n + 1)) levels)
      (endsBinary entries) inside stop words tree
  | .unary => ∀ n steps stop, steps ≤ n + 1 →
    Reads steps (unary (call (n + 1) (expression n)) steps) (endsBinary []) inside stop words tree
  | .call => Grammar.StartsWith (unaryOp? · = none) words ∧ ∀ n stop,
    Reads (n + 1) (call (n + 1) (expression n)) (endsBinary []) inside stop words tree
  | .primary => Grammar.StartsWith (unaryOp? · = none) words ∧ ∀ n stop,
    Reads (n + 1) (primary (expression n)) (fun _ => True) inside stop words tree

theorem endsBinary_tail {level : Grammar.Level} {tighter : List Grammar.Level} {kind : Token.Kind}
    (h : endsBinary (level :: tighter) kind) : endsBinary tighter kind :=
  ⟨h.1, fun l hl => h.2 l (List.mem_cons_of_mem _ hl)⟩

theorem Matches.eq_none {level : Level} {entries : Grammar.Level} (hlevel : Matches level entries)
    {tighter : List Grammar.Level} {kind : Token.Kind} (h : endsBinary (entries :: tighter) kind) :
    level kind = none := by
  cases hkind : level kind with
  | none => rfl
  | some joint =>
    exact absurd rfl (h.2 entries List.mem_cons_self _ ((hlevel kind joint).mp hkind))

/-- A variable is an operand of every level. -/
theorem reads_ident {entries : List Grammar.Level} {levels : List Level}
    (hlevels : List.Forall₂ Matches levels entries) {token : Token}
    (h : token.kind = .identifier) :
    Reads (n + 1) (binary (n + 1) (unary (call (n + 1) (expression n)) (n + 1)) levels)
      (endsBinary entries) inside stop [token] (.ident token.span token.lexeme) := by
  induction hlevels with
  | nil =>
    refine reads_unary_operand atEnd_call (by rw [h]; rfl) ?_
    have hcalls : Reads (n + 1) (callsOf (n + 1) (expression n) (n + 1)
        (.ident token.span token.lexeme)) (endsBinary []) inside token.span.stop [] _ :=
      reads_callsOf [] (Nat.le_refl _) (Nat.le_refl _) (fun _ h => absurd h List.not_mem_nil)
        fun _ h => absurd h List.not_mem_nil
    refine (reads_primary_token fun s rest hs => ?_).bind_nil hcalls (fun _ _ => trivial)
      fun _ => atEnd_callsOf
    rw [primary, hs]
    simp [h]
  | cons hlevel _ ih =>
    refine ih.bind_nil ?_ (fun _ => endsBinary_tail) fun _ => atEnd_chain
    exact reads_chain (fun _ => endsBinary_tail) (fun _ => hlevel.eq_none) [] (Nat.le_refl _)
      (fun _ h => absurd h List.not_mem_nil) (fun _ h => absurd h List.not_mem_nil)
      fun _ h => absurd h List.not_mem_nil

theorem readsExpr_of_derives {symbol : Grammar.ExprSymbol} {tree : Expr}
    (h : Grammar.Expression symbol words tree) : ReadsExpr inside words tree symbol := by
  induction h with
  | @assign target equals words value htarget hequals hvalue ih =>
    exact .of_succ fun n stop =>
      reads_expression_assign (reads_ident matches_levels htarget) hequals (ih n _)
  | operand h ih =>
    exact .of_succ fun n stop =>
      reads_expression_operand (ih n stop levels matches_levels layered_precedence)
  | level hfirst hoperators hoperands ihfirst ihoperands =>
    rintro n stop _ (_ | ⟨hlevel, htighter⟩) hlayered
    have hoks := fun o ho => hlayered.1 _ (hoperators o ho)
    refine (ihfirst n stop _ htighter hlayered.2).bind ?_
      (fun _ => clear_operations hoks fun _ => endsBinary_tail) (fun _ _ => atEnd_chain)
      (Nat.le_add_right ..)
    exact reads_chain (fun _ => endsBinary_tail) (fun _ => hlevel.eq_none) _ (Nat.le_refl _)
      (fun o ho => (hlevel _ _).mpr (hoperators o ho)) hoks
      fun o ho stop => ihoperands o ho n stop _ htighter hlayered.2
  | tightest h ih =>
    rintro n stop _ (_ | _) _
    exact ih n (n + 1) stop (Nat.le_refl _)
  | not hoperator hoperand ih =>
    intro n steps stop hsteps
    cases steps with
    | zero => exact .zero
    | succ steps =>
      exact reads_unary_op atEnd_call (by rw [hoperator]; rfl) (ih n steps _ (by omega))
  | negate hoperator hoperand ih =>
    intro n steps stop hsteps
    cases steps with
    | zero => exact .zero
    | succ steps =>
      exact reads_unary_op atEnd_call (by rw [hoperator]; rfl) (ih n steps _ (by omega))
  | unaryCall h ih =>
    intro n steps stop hsteps
    obtain ⟨⟨token, rest, rfl, htoken⟩, hread⟩ := ih
    exact reads_unary_operand atEnd_call (of_decide_eq_true htoken) ((hread n stop).mono hsteps)
  | @call words callee calls hcallee hopening hitems hwords hcount hclosing ihcallee ihitems =>
    refine ⟨ihcallee.1.append _, fun n stop => ?_⟩
    refine (ihcallee.2 n stop).bind ?_ (fun _ _ _ _ => trivial) (fun _ _ => atEnd_callsOf)
      (Nat.le_add_right ..)
    refine reads_callsOf calls (Nat.le_refl _) (Nat.le_refl _) hopening fun c hc stop callee => ?_
    exact reads_finishCall (fun i hi stop => ihitems c hc i hi n stop) (hitems c hc) (hwords c hc)
      (hcount c hc) (hclosing c hc)
  | true h =>
    refine ⟨.cons (by rw [h]; rfl) _, fun n stop => reads_primary_token fun s rest hs => ?_⟩
    rw [primary, hs]
    simp [h]
  | false h =>
    refine ⟨.cons (by rw [h]; rfl) _, fun n stop => reads_primary_token fun s rest hs => ?_⟩
    rw [primary, hs]
    simp [h]
  | nil h =>
    refine ⟨.cons (by rw [h]; rfl) _, fun n stop => reads_primary_token fun s rest hs => ?_⟩
    rw [primary, hs]
    simp [h]
  | literal h hliteral =>
    refine ⟨.cons (by rcases h with h | h <;> rw [h] <;> rfl) _, fun n stop =>
      reads_primary_token fun s rest hs => ?_⟩
    rw [primary, hs]
    rename_i literal
    rcases h with h | h <;> cases literal <;> simp [h, hliteral, Grammar.constant]
  | ident h =>
    refine ⟨.cons (by rw [h]; rfl) _, fun n stop => reads_primary_token fun s rest hs => ?_⟩
    rw [primary, hs]
    simp [h]
  | group hopening hinner hclosing ih =>
    refine ⟨.cons (by rw [hopening]; rfl) _, fun n stop => ?_⟩
    refine .advance (fun s rest hs => ?_) atEnd_primary (reads_grouping (ih n _) hclosing)
      (Nat.le_refl _)
    rw [primary, hs]
    simp [hopening]

theorem reads_expression {tree : Expr} (h : Grammar.Expression .assignment words tree) {k : Nat}
    (hk : m ≤ k) : Reads m (expression k) endsExpression inside stop words tree :=
  (readsExpr_of_derives h k stop).mono hk

end

/-! ## At the end of the input, statements -/

theorem atEnd_exprStatement {k : Nat} : AtEnd (exprStatement (expression k)) :=
  atEnd_expression.bind fun _ => .expect_bind

theorem atEnd_statementOf {steps k : Nat} {statement : Parser Stmt}
    {declaration : Parser (Option Stmt)} :
    AtEnd (statementOf steps (expression k) statement declaration) := by
  intro s h
  rw [statementOf, h]
  exact atEnd_exprStatement s h

theorem atEnd_statement {n : Nat} : AtEnd (statement n) := by
  cases n with
  | zero => exact .failHere _
  | succ n => exact atEnd_statementOf

theorem atEnd_declarations {declaration : Parser (Option Stmt)} {closed : State → Bool}
    (hclosed : ∀ s, s.rest = [] → closed s = true) {steps : Nat} :
    AtEnd (declarations declaration closed steps) := by
  intro s h
  cases steps with
  | zero => exact EndsAt.refl h
  | succ steps =>
    rw [declarations, if_pos (hclosed s h)]
    exact EndsAt.refl h

/-! ## Statements -/

section

variable {n m k : Nat} {inside : Bool} {stop : Nat} {words : List Token}

theorem reads_exprStatement {tree : Stmt} (h : Grammar.ExprStmt words tree) (hk : m ≤ k) :
    Reads m (exprStatement (expression k)) (fun _ => True) inside stop words tree := by
  cases h with
  | mk hvalue hsemicolon =>
    refine (reads_expression hvalue hk).bind ?_ ?_ (fun _ _ => .expect_bind) (Nat.le_add_right ..)
    · exact .expect_bind hsemicolon (.spanFrom_bind (.pure _)) (Nat.le_succ m)
    · exact fun _ _ => by simpa [hsemicolon] using endsExpression_semicolon

theorem reads_initialValue {value : Option Expr} (h : Grammar.InitialValue words value)
    (hk : m ≤ k) :
    Reads m (initialValue (expression k)) endsExpression inside stop words value := by
  cases h with
  | none => exact Reads.acceptKind?_none.nil_bind (.pure _) fun _ h => h.imp fun _ h => h.2
  | some hequals h =>
    exact .acceptKind?_bind hequals ((reads_expression h hk).map some) (.pure _) (Nat.le_succ m)

/-- A variable declaration after its keyword. -/
theorem reads_varDeclaration {start : Nat} {name semicolon : Token} {value : Option Expr}
    (hname : name.kind = .identifier) (hvalue : Grammar.InitialValue words value)
    (hsemicolon : semicolon.kind = .symbol .semicolon) (hk : m ≤ k) :
    Reads m (varDeclaration (expression k) start) (fun _ => True) inside stop
      (name :: words ++ [semicolon]) (.var ⟨start, semicolon.span.stop⟩ name.lexeme value) := by
  refine .expect_bind hname ?_ (Nat.le_succ m)
  refine (reads_initialValue hvalue hk).bind ?_ ?_ (fun _ _ => .expect_bind) (Nat.le_add_right ..)
  · exact .expect_bind hsemicolon (.spanFrom_bind (.pure _)) (Nat.le_succ m)
  · exact fun _ _ => by simpa [hsemicolon] using endsExpression_semicolon

/-- An expression that may be missing, before a token that no expression begins with. -/
theorem reads_unlessNext_bind {β : Type} {value : Option Expr} {kind : Token.Kind} {token : Token}
    {more : List Token} {ok : Token.Kind → Prop} {f : Option Expr → Parser β} {b : β}
    (h : Grammar.OptionalExpression words value) (hk : m ≤ k) (htoken : token.kind = kind)
    (hstarts : Grammar.startsExpression kind = false) (hends : endsExpression kind)
    (hf : Reads m (f value) ok inside (stopAfter stop words) (token :: more) b)
    (hend : ∀ v, AtEnd (f v)) :
    Reads m (unlessNext kind (expression k) >>= f) ok inside stop (words ++ token :: more) b := by
  cases h with
  | none => exact .unlessNext_skip atEnd_expression htoken hf hend
  | some h =>
    obtain ⟨first, rest, rfl, hfirst⟩ := h.starts
    have hne : first.kind ≠ kind := fun hkind => by rw [hkind, hstarts] at hfirst; cases hfirst
    refine (Reads.unlessNext_read atEnd_expression hne (reads_expression h hk)).bind hf
      (fun _ _ => ?_) (fun _ => hend) (Nat.le_add_right ..)
    rw [List.cons_append, clear_cons, htoken]
    exact hends

/-- The condition of a `for` loop, before the semicolon after it. -/
theorem reads_forCondition_bind {β : Type} {cond : Option Expr} {semicolon : Token}
    {more : List Token} {ok : Token.Kind → Prop} {f : Expr → Parser β} {b : β}
    (h : Grammar.OptionalExpression words cond) (hk : m ≤ k)
    (hsemicolon : semicolon.kind = .symbol .semicolon)
    (hf : Reads m (f (cond.getD (.literal semicolon.span (.bool true)))) ok inside
      (stopAfter stop words) (semicolon :: more) b)
    (hend : ∀ v, AtEnd (f v)) :
    Reads m (forCondition (expression k) >>= f) ok inside stop (words ++ semicolon :: more) b := by
  have hendCond : AtEnd (forCondition (expression k)) := .nextIs_bind atEnd_expression
  cases h with
  | none =>
    refine .head (fun s rest hs => ?_) (hendCond.bind hend) hf
    have hnext : s.nextIs (.symbol .semicolon) = true := by
      simp [State.nextIs_of_rest hs, hsemicolon]
    have hskip : forCondition (expression k) s = .ok (.literal semicolon.span (.bool true)) s := by
      have hhere : s.here = semicolon.span := by rw [State.here, hs]
      rw [forCondition, bind_apply, nextIs, hnext]
      change (here >>= fun span => pure (.literal span (.bool true)) : Parser Expr) s = _
      rw [bind_apply, here, hhere]
      rfl
    rw [bind_apply, hskip]
    rfl
  | @some _ tree h =>
    obtain ⟨first, rest, rfl, hfirst⟩ := h.starts
    have hne : first.kind ≠ .symbol .semicolon := fun hkind => by
      rw [hkind] at hfirst
      cases hfirst
    have hcond : Reads m (forCondition (expression k)) endsExpression inside stop (first :: rest)
        tree := by
      refine .head (fun s rest hs => ?_) hendCond (reads_expression h hk)
      rw [forCondition, bind_apply, nextIs, State.nextIs_of_rest hs]
      simp [hne]
    refine hcond.bind hf (fun _ _ => ?_) (fun _ => hend) (Nat.le_add_right ..)
    rw [List.cons_append, clear_cons, hsemicolon]
    exact endsExpression_semicolon

/-- The first clause of a `for` loop. -/
theorem reads_forInitial {init : Option Stmt} (h : Grammar.ForInitial words init) (hk : m ≤ k) :
    Reads m (forInitial (expression k)) (fun _ => True) inside stop words init := by
  have hexpr : AtEnd (some <$> exprStatement (expression k)) := atEnd_exprStatement.map some
  cases h with
  | none hsemicolon =>
    exact .acceptKind?_bind hsemicolon (.pure _) (.acceptKind?_bind hexpr) (Nat.le_succ m)
  | var h =>
    cases h with
    | mk hkeyword hname hvalue hsemicolon =>
      refine .acceptKind?_skip (by rw [hkeyword]; decide) ?_
      exact .acceptKind?_bind hkeyword ((reads_varDeclaration hname hvalue hsemicolon hk).map some)
        hexpr (Nat.le_succ m)
  | expr h =>
    obtain ⟨first, rest, rfl, hfirst⟩ := h.starts
    refine .acceptKind?_skip (fun hkind => ?_) (.acceptKind?_skip (fun hkind => ?_)
      ((reads_exprStatement h hk).map some)) <;>
    · rw [hkind] at hfirst
      cases hfirst

/-- Where a statement stops is where its last word stops. -/
theorem stopAfter_of_statement {attaches : Bool → Prop} {symbol : Grammar.StmtSymbol} {tree : Stmt}
    (h : Grammar.Statement attaches symbol inside words tree) (stop : Nat) :
    stopAfter stop words = tree.span.stop := by
  induction h generalizing stop with
  | varDecl h => cases h; simp [Stmt.span]
  | statement _ ih => exact ih stop
  | exprStmt h => cases h; simp [Stmt.span]
  | forStmt _ _ _ _ _ _ _ _ ih => simp [Grammar.forTree, Stmt.span, ih]
  | ifThen _ _ _ _ _ ih => simp [Stmt.span, ih]
  | ifElse _ _ _ _ _ _ _ _ _ ih => simp [Stmt.span, ih]
  | whileStmt _ _ _ _ _ ih => simp [Stmt.span, ih]
  | _ => simp [Stmt.span]

/-- What may follow a statement. -/
def endsStatement (isOpen : Bool) (kind : Token.Kind) : Prop :=
  isOpen = true → kind ≠ .keyword .elseWord

/-- A condition in parentheses. -/
theorem reads_condition_bind {β : Type} {ok : Token.Kind → Prop} {what what' : String}
    {opening closing : Token} {condWords : List Token} {cond : Expr} {f : Expr → Parser β} {b : β}
    (hopening : opening.kind = .symbol .leftParen)
    (hcond : Grammar.Expression .assignment condWords cond)
    (hclosing : closing.kind = .symbol .rightParen)
    (hf : Reads m (f cond) ok inside closing.span.stop words b) (hk : m ≤ k) :
    Reads m (do
        let _ ← expect (.symbol .leftParen) what
        let cond ← expression k
        let _ ← expect (.symbol .rightParen) what'
        f cond) ok inside stop (opening :: (condWords ++ closing :: words)) b := by
  refine .expect_bind hopening ?_ (Nat.le_succ m)
  refine (reads_expression hcond hk).bind (.expect_bind hclosing hf (Nat.le_succ m)) ?_
    (fun _ _ => .expect_bind) (Nat.le_add_right ..)
  exact fun _ _ => by simpa [hclosing] using endsExpression_rightParen

/-- A statement at the end of another one, whose span ends with it. -/
theorem reads_last {attaches : Bool → Prop} {isOpen : Bool} {statement : Parser Stmt} {start : Nat}
    {last : Stmt} {g : Span → Stmt → Stmt}
    (hlast : Grammar.Statement attaches (.statement isOpen) inside words last)
    (hread : ∀ stop, Reads m statement (endsStatement isOpen) inside stop words last) :
    Reads m (do
        let last ← statement
        let span ← spanFrom start
        pure (g span last)) (endsStatement isOpen) inside stop words
      (g ⟨start, last.span.stop⟩ last) := by
  refine (hread stop).bind_nil ?_ (fun _ h => h) fun _ => .spanFrom_bind fun _ => .pure _
  rw [stopAfter_of_statement hlast]
  exact .spanFrom_bind (.pure _)

/-- A `for` loop after its keyword. -/
theorem reads_forStatement {attaches : Bool → Prop} {isOpen : Bool} {statement : Parser Stmt}
    {start : Nat} {opening semicolon closing : Token} {initWords condWords stepWords : List Token}
    {init : Option Stmt} {cond step : Option Expr} {body : Stmt}
    (hopening : opening.kind = .symbol .leftParen) (hinit : Grammar.ForInitial initWords init)
    (hcond : Grammar.OptionalExpression condWords cond)
    (hsemicolon : semicolon.kind = .symbol .semicolon)
    (hstep : Grammar.OptionalExpression stepWords step)
    (hclosing : closing.kind = .symbol .rightParen)
    (hbody : Grammar.Statement attaches (.statement isOpen) inside words body)
    (hread : ∀ stop, Reads m statement (endsStatement isOpen) inside stop words body)
    (hk : m ≤ k) :
    Reads m (forStatement (expression k) statement start) (endsStatement isOpen) inside stop
      (opening :: initWords ++ condWords ++ semicolon :: stepWords ++ closing :: words)
      (Grammar.forTree ⟨start, body.span.stop⟩ init cond semicolon step body) := by
  simp only [List.append_assoc, List.cons_append]
  refine .expect_bind hopening ?_ (Nat.le_succ m)
  refine (reads_forInitial hinit hk).bind ?_ (fun _ _ _ _ => trivial) (fun _ _ => ?_)
    (Nat.le_add_right ..)
  · refine reads_forCondition_bind hcond hk hsemicolon ?_ fun _ => .expect_bind
    refine .expect_bind hsemicolon ?_ (Nat.le_succ m)
    exact reads_unlessNext_bind hstep hk hclosing rfl endsExpression_rightParen
      (.expect_bind hclosing (reads_last hbody hread) (Nat.le_succ m)) fun _ => .expect_bind
  · exact AtEnd.bind (.nextIs_bind atEnd_expression) fun _ => .expect_bind

/-- An `if` statement without an `else`, after its keyword. -/
theorem reads_ifStatement_then {attaches : Bool → Prop} {isOpen : Bool} {statement : Parser Stmt}
    {start : Nat} {opening closing : Token} {condWords : List Token} {cond : Expr} {yes : Stmt}
    (hopening : opening.kind = .symbol .leftParen)
    (hcond : Grammar.Expression .assignment condWords cond)
    (hclosing : closing.kind = .symbol .rightParen)
    (hyes : Grammar.Statement attaches (.statement isOpen) inside words yes)
    (hread : ∀ stop, Reads m statement (endsStatement isOpen) inside stop words yes)
    (hk : m ≤ k) :
    Reads m (ifStatement (expression k) statement start) (endsStatement true) inside stop
      (opening :: condWords ++ closing :: words) (.ifThen ⟨start, yes.span.stop⟩ cond yes) := by
  refine reads_condition_bind hopening hcond hclosing ?_ hk
  refine (hread closing.span.stop).bind_nil ?_ (fun _ h _ => h rfl) fun _ =>
    .acceptKind?_bind (.spanFrom_bind fun _ => .pure _)
  rw [stopAfter_of_statement hyes]
  exact Reads.acceptKind?_none.nil_bind (.spanFrom_bind (.pure _)) fun _ h => h.imp fun _ h => h rfl

/-- An `if` statement with an `else`, after its keyword. The `else` belongs to it, since the
statement before the `else` is not open. -/
theorem reads_ifStatement_else {attaches : Bool → Prop} {isOpen : Bool} {statement : Parser Stmt}
    {start : Nat} {opening closing other : Token} {condWords words' : List Token} {cond : Expr}
    {yes no : Stmt} (hopening : opening.kind = .symbol .leftParen)
    (hcond : Grammar.Expression .assignment condWords cond)
    (hclosing : closing.kind = .symbol .rightParen)
    (hyes : ∀ stop, Reads m statement (endsStatement false) inside stop words yes)
    (hother : other.kind = .keyword .elseWord)
    (hno : Grammar.Statement attaches (.statement isOpen) inside words' no)
    (hread : ∀ stop, Reads m statement (endsStatement isOpen) inside stop words' no)
    (hk : m ≤ k) :
    Reads m (ifStatement (expression k) statement start) (endsStatement isOpen) inside stop
      (opening :: condWords ++ closing :: words ++ other :: words')
      (.ifElse ⟨start, no.span.stop⟩ cond yes no) := by
  simp only [List.append_assoc, List.cons_append]
  refine reads_condition_bind hopening hcond hclosing ?_ hk
  have hend : AtEnd (spanFrom start >>= fun span => pure (Stmt.ifThen span cond yes)) :=
    .spanFrom_bind fun _ => .pure _
  exact (hyes closing.span.stop).bind
    (.acceptKind?_bind hother (reads_last hno hread) hend (Nat.le_succ m)) (fun _ _ _ _ => nofun)
    (fun _ _ => .acceptKind?_bind (.spanFrom_bind fun _ => .pure _)) (Nat.le_add_right ..)

/-- A `while` loop after its keyword. -/
theorem reads_whileStatement {attaches : Bool → Prop} {isOpen : Bool} {statement : Parser Stmt}
    {start : Nat} {opening closing : Token} {condWords : List Token} {cond : Expr} {body : Stmt}
    (hopening : opening.kind = .symbol .leftParen)
    (hcond : Grammar.Expression .assignment condWords cond)
    (hclosing : closing.kind = .symbol .rightParen)
    (hbody : Grammar.Statement attaches (.statement isOpen) inside words body)
    (hread : ∀ stop, Reads m statement (endsStatement isOpen) inside stop words body)
    (hk : m ≤ k) :
    Reads m (whileStatement (expression k) statement start) (endsStatement isOpen) inside stop
      (opening :: condWords ++ closing :: words) (.whileDo ⟨start, body.span.stop⟩ cond body) :=
  reads_condition_bind hopening hcond hclosing (reads_last hbody hread) hk

/-- A `print` statement after its keyword. -/
theorem reads_printStatement {start : Nat} {semicolon : Token} {value : Expr}
    (hvalue : Grammar.Expression .assignment words value)
    (hsemicolon : semicolon.kind = .symbol .semicolon) (hk : m ≤ k) :
    Reads m (printStatement (expression k) start) (fun _ => True) inside stop
      (words ++ [semicolon]) (.print ⟨start, semicolon.span.stop⟩ value) := by
  refine (reads_expression hvalue hk).bind ?_ ?_ (fun _ _ => .expect_bind) (Nat.le_add_right ..)
  · exact .expect_bind hsemicolon (.spanFrom_bind (.pure _)) (Nat.le_succ m)
  · exact fun _ _ => by simpa [hsemicolon] using endsExpression_semicolon

/-- A `return` statement after its keyword. It is not reported, since a function is around it. -/
theorem reads_returnStatement {keyword : Span} {semicolon : Token} {value : Option Expr}
    (hvalue : Grammar.OptionalExpression words value)
    (hsemicolon : semicolon.kind = .symbol .semicolon) (hk : m ≤ k) :
    Reads m (returnStatement (expression k) keyword) (fun _ => True) true stop
      (words ++ [semicolon]) (.ret ⟨keyword.start, semicolon.span.stop⟩ value) := by
  have hcheck : Reads m (checkReturn keyword) (fun _ => True) true stop [] () :=
    .of_nil fun s _ hin _ => by rw [checkReturn, if_neg (Nat.ne_of_gt (hin rfl))]
  refine hcheck.nil_bind ?_ fun _ _ _ _ => trivial
  exact reads_unlessNext_bind hvalue hk hsemicolon rfl endsExpression_semicolon
    (.expect_bind hsemicolon (.spanFrom_bind (.pure _)) (Nat.le_succ m)) fun _ => .expect_bind

/-! ## Sequences of declarations -/

/-- A declaration ends where the next one begins, since none begins with an `else`. -/
theorem clear_declarations {ok : Token.Kind → Prop}
    (hok : ∀ kind, ok kind → kind ≠ .keyword .elseWord) {parts : List (List Token × Stmt)}
    (hstarts : ∀ d ∈ parts, Grammar.StartsWith Grammar.StmtSymbol.declaration.starts d.1)
    {rest : List Token} (hrest : Clear ok rest) :
    Clear (endsStatement true) (parts.flatMap Prod.fst ++ rest) := by
  cases parts with
  | nil => exact hrest.imp fun kind h _ => hok kind h
  | cons d parts =>
    obtain ⟨token, words, hwords, htoken⟩ := hstarts d List.mem_cons_self
    rw [List.flatMap_cons, hwords]
    refine (clear_cons ..).mpr fun _ helse => ?_
    rw [helse] at htoken
    cases htoken

/-- Declarations up to where the sequence is closed. -/
theorem reads_declarations {declaration : Parser (Option Stmt)} {closed : State → Bool}
    {ok : Token.Kind → Prop} (hok : ∀ kind, ok kind → kind ≠ .keyword .elseWord)
    (hclosed : ∀ s, Clear ok s.rest → closed s = true)
    (hopen : ∀ s token rest, s.rest = token :: rest →
      Grammar.StmtSymbol.declaration.starts token.kind = true → closed s = false)
    (parts : List (List Token × Stmt)) :
    ∀ {m steps stop : Nat}, m ≤ steps →
      (∀ d ∈ parts, Grammar.StartsWith Grammar.StmtSymbol.declaration.starts d.1) →
      (∀ d ∈ parts, ∀ stop,
        Reads m declaration (endsStatement true) inside stop d.1 (some d.2)) →
      Reads m (declarations declaration closed steps) ok inside stop (parts.flatMap Prod.fst)
        (parts.map Prod.snd) := by
  have hend : ∀ {steps}, AtEnd (declarations declaration closed steps) :=
    atEnd_declarations fun s hs => hclosed s (by rw [hs]; exact clear_nil ok)
  induction parts with
  | nil =>
    intro m steps stop hsteps _ _
    cases steps with
    | zero => rw [Nat.le_zero.mp hsteps]; exact .zero
    | succ steps =>
      refine .of_nil fun s _ _ hrest => ?_
      rw [declarations, if_pos (hclosed s hrest)]
      rfl
  | cons d parts ih =>
    intro m steps stop hsteps hstarts hreads
    cases steps with
    | zero => rw [Nat.le_zero.mp hsteps]; exact .zero
    | succ steps =>
      have hmem : ∀ d' ∈ parts, d' ∈ d :: parts := fun d' h => List.mem_cons_of_mem _ h
      have hd := hreads d List.mem_cons_self stop
      obtain ⟨token, words, hwords, htoken⟩ := hstarts d List.mem_cons_self
      have hrest : Reads (m - 1) (declarations declaration closed steps) ok inside
          (stopAfter stop d.1) (parts.flatMap Prod.fst) (parts.map Prod.snd) :=
        ih (by omega) (fun d' h => hstarts d' (hmem d' h)) fun d' h stop =>
          (hreads d' (hmem d' h) stop).mono (Nat.sub_le m 1)
      have hboth : Reads m (do
            let kept ← declaration
            let others ← declarations declaration closed steps
            pure (kept.toList ++ others)) ok inside stop (d.1 ++ parts.flatMap Prod.fst)
          (d.2 :: parts.map Prod.snd) := by
        refine hd.bind (hrest.bind_nil (.pure _) (fun _ h => h) fun _ => .pure _) ?_
          (fun _ _ => hend.bind fun _ => .pure _) (by rw [hwords]; simp; omega)
        exact fun rest hrest => clear_declarations hok (fun d' h => hstarts d' (hmem d' h)) hrest
      rw [List.flatMap_cons, List.map_cons]
      rw [hwords] at hboth ⊢
      refine .head (fun s rest hs => ?_) hend hboth
      rw [declarations, if_neg (by simp [hopen s token rest hs htoken])]

/-- The declarations of a block and its closing brace. -/
theorem reads_block {attaches : Bool → Prop} {declaration : Parser (Option Stmt)} {right : Token}
    {body : List (List Token × Stmt)} {steps : Nat} (hsteps : m ≤ steps)
    (hbody : ∀ d ∈ body, Grammar.Statement attaches .declaration inside d.1 d.2)
    (hreads : ∀ d ∈ body, ∀ stop,
      Reads m declaration (endsStatement true) inside stop d.1 (some d.2))
    (hright : right.kind = .symbol .rightBrace) :
    Reads m (block steps declaration) (fun _ => True) inside stop
      (body.flatMap Prod.fst ++ [right]) (body.map Prod.snd) := by
  have hbody : Reads m (declarations declaration
      (fun s => s.rest.isEmpty || s.nextIs (.symbol .rightBrace)) steps)
      (· = .symbol .rightBrace) inside stop (body.flatMap Prod.fst) (body.map Prod.snd) := by
    refine reads_declarations (by rintro _ rfl; decide) ?_ ?_ body hsteps
      (fun d hd => (hbody d hd).starts) hreads
    · intro s hs
      cases hrest : s.rest with
      | nil => rfl
      | cons token rest =>
        rw [hrest, clear_cons] at hs
        simp [State.nextIs_of_rest hrest, hs]
    · intro s token rest hs htoken
      have hne : token.kind ≠ .symbol .rightBrace := fun h => by rw [h] at htoken; cases htoken
      simp [hs, State.nextIs_of_rest hs, hne]
  exact hbody.bind (.expect_bind hright (.pure _) (Nat.le_succ m)) (fun _ _ => by simp [hright])
    (fun _ _ => .expect_bind) (Nat.le_add_right ..)

/-- A block after its opening brace. -/
theorem reads_blockStatement {attaches : Bool → Prop} {declaration : Parser (Option Stmt)}
    {right : Token} {body : List (List Token × Stmt)} {start steps : Nat}
    (hbody : ∀ d ∈ body, Grammar.Statement attaches .declaration inside d.1 d.2)
    (hreads : ∀ d ∈ body, ∀ stop,
      Reads m declaration (endsStatement true) inside stop d.1 (some d.2))
    (hright : right.kind = .symbol .rightBrace) (hsteps : m ≤ steps) :
    Reads m (blockStatement steps declaration start) (fun _ => True) inside stop
      (body.flatMap Prod.fst ++ [right]) (.block ⟨start, right.span.stop⟩ (body.map Prod.snd)) := by
  refine (reads_block hsteps hbody hreads hright).bind_nil ?_ (fun _ _ => trivial) fun _ =>
    .spanFrom_bind fun _ => .pure _
  rw [stopAfter_append]
  exact .spanFrom_bind (.pure _)

/-- A function declaration after its keyword. -/
theorem reads_funcDeclaration {attaches : Bool → Prop} {declaration : Parser (Option Stmt)}
    {start steps : Nat} {name opening closing left right : Token} {params : List Token}
    {body : List (List Token × Stmt)} (hname : name.kind = .identifier)
    (hopening : opening.kind = .symbol .leftParen) (hparams : ∀ p ∈ params, p.kind = .identifier)
    (hwords : Grammar.Separated (params.map ([·])) words) (hcount : params.length ≤ maxItems)
    (hclosing : closing.kind = .symbol .rightParen) (hleft : left.kind = .symbol .leftBrace)
    (hbody : ∀ d ∈ body, Grammar.Statement attaches .declaration true d.1 d.2)
    (hreads : ∀ d ∈ body, ∀ stop,
      Reads m declaration (endsStatement true) true stop d.1 (some d.2))
    (hright : right.kind = .symbol .rightBrace) (hsteps : m ≤ steps) :
    Reads m (funcDeclaration steps declaration start) (fun _ => True) inside stop
      (name :: opening :: words ++ closing :: left :: body.flatMap Prod.fst ++ [right])
      (.func ⟨start, right.span.stop⟩ name.lexeme (params.map Token.lexeme)
        (body.map Prod.snd)) := by
  simp only [List.append_assoc, List.cons_append]
  refine .expect_bind hname (.expect_bind hopening ?_ (Nat.le_succ m)) (Nat.le_succ m)
  have hitems : ∀ i ∈ params.map fun p => ([p], p), ∀ stop,
      Reads m (expect .identifier "parameter name") (fun _ => True) inside stop i.1 i.2 := by
    intro i hi stop
    obtain ⟨p, hp, rfl⟩ := List.mem_map.mp hi
    exact .expect (hparams p hp)
  have hstarts : ∀ i ∈ params.map fun p => ([p], p),
      Grammar.StartsWith (· ≠ .symbol .rightParen) i.1 := by
    intro i hi
    obtain ⟨p, hp, rfl⟩ := List.mem_map.mp hi
    exact .cons (by rw [hparams p hp]; decide) []
  have hfst : (params.map fun p => ([p], p)).map Prod.fst = params.map ([·]) := by simp
  have hsnd : (params.map fun p => ([p], p)).map Prod.snd = params := by
    simp [Function.comp_def]
  refine reads_itemList_bind .expect trivial trivial (hfst ▸ hwords) hsteps
    (by simpa using hcount) hstarts hitems hclosing (fun _ => .expect_bind) ?_
  rw [hsnd]
  refine .expect_bind hclosing (.expect_bind hleft ?_ (Nat.le_succ m)) (Nat.le_succ m)
  have hblock : Reads m (insideFunction (block steps declaration)) (fun _ => True) inside
      left.span.stop (body.flatMap Prod.fst ++ [right]) (body.map Prod.snd) :=
    (reads_block hsteps hbody hreads hright).insideFunction
  refine hblock.bind_nil ?_ (fun _ _ => trivial) fun _ => .spanFrom_bind fun _ => .pure _
  simp only [stopAfter_append, stopAfter_cons, stopAfter_nil]
  exact .spanFrom_bind (.pure _)

/-! ## Any statement -/

/-- How the parser reads the words of a symbol. -/
def ReadsStmt (inside : Bool) (words : List Token) (tree : Stmt) : Grammar.StmtSymbol → Prop
  | .declaration => ∀ n stop,
    Reads n (declaration n) (endsStatement true) inside stop words (some tree)
  | .statement isOpen => ∀ n stop,
    Reads n (statement n) (endsStatement isOpen) inside stop words tree

/-- A statement that its first token tells apart. -/
theorem reads_statement_keyword {q : Parser Stmt} {ok : Token.Kind → Prop} {token : Token}
    {tree : Stmt} (hq : Reads n q ok inside token.span.stop words tree)
    (hdispatch : ∀ (s : State) rest, s.rest = token :: rest →
      statementOf (n + 1) (expression (n + 1)) (statement n) (declaration n) s = q s.advance) :
    Reads (n + 1) (statement (n + 1)) ok inside stop (token :: words) tree :=
  .advance hdispatch atEnd_statement hq (Nat.le_refl _)

theorem statementOf_of_startsExpression {steps : Nat} {expr : Parser Expr} {statement : Parser Stmt}
    {declaration : Parser (Option Stmt)} {s : State} {token : Token} {rest : List Token}
    (hs : s.rest = token :: rest) (h : Grammar.startsExpression token.kind = true) :
    statementOf steps expr statement declaration s = exprStatement expr s := by
  rw [statementOf, hs]
  dsimp only
  split <;> first | rfl | (rename_i hkind; rw [hkind] at h; cases h)

/-- A declaration that its first token tells apart. -/
theorem reads_declaration_keyword {q : Parser Stmt} {token : Token} {tree : Stmt}
    (hq : Reads n q (fun _ => True) inside token.span.stop words tree)
    (hdispatch : ∀ (s : State) rest, s.rest = token :: rest →
      (match token.kind with
        | .keyword .funcWord =>
          funcDeclaration (n + 1) (declaration n) token.span.start s.advance
        | .keyword .varWord => varDeclaration (expression (n + 1)) token.span.start s.advance
        | _ => statementOf (n + 1) (expression (n + 1)) (statement n) (declaration n) s) =
          q s.advance) :
    Reads (n + 1) (declaration (n + 1)) (endsStatement true) inside stop (token :: words)
      (some tree) := by
  refine Reads.imp (Reads.recover ?_) fun _ _ => trivial
  refine .advance (fun s rest hs => ?_) (fun s hs => ?_) hq (Nat.le_refl _)
  · rw [hs]
    exact hdispatch s rest hs
  · rw [hs]
    exact atEnd_statementOf s hs

theorem readsStmt_of_derives {symbol : Grammar.StmtSymbol} {tree : Stmt}
    (h : Grammar.Statement Grammar.nearestIf symbol inside words tree) :
    ReadsStmt inside words tree symbol := by
  induction h with
  | funcDecl hkeyword hname hopening hparams hwords hcount hclosing hleft hbody hright ih =>
    refine .of_succ fun n stop => ?_
    refine reads_declaration_keyword (reads_funcDeclaration hname hopening hparams hwords hcount
      hclosing hleft hbody (fun d hd => ih d hd n) hright (Nat.le_succ n)) fun s rest hs => ?_
    rw [hkeyword]
  | varDecl h =>
    refine .of_succ fun n stop => ?_
    cases h with
    | mk hkeyword hname hvalue hsemicolon =>
      refine reads_declaration_keyword
        (reads_varDeclaration hname hvalue hsemicolon (Nat.le_succ n)) fun s rest hs => ?_
      rw [hkeyword]
  | statement h ih =>
    refine .of_succ fun n stop => ?_
    obtain ⟨token, rest, rfl, htoken⟩ := h.starts
    refine Reads.imp (Reads.recover (.head (fun s rest hs => ?_) (fun s hs => ?_)
      (ih (n + 1) stop))) ?_
    · rw [hs]
      dsimp only
      split
      · rename_i hkind
        rw [hkind] at htoken
        cases htoken
      · rename_i hkind
        rw [hkind] at htoken
        cases htoken
      · rfl
    · rw [hs]
      exact atEnd_statementOf s hs
    · exact fun _ h _ => h rfl
  | exprStmt h =>
    refine .of_succ fun n stop => ?_
    obtain ⟨token, rest, rfl, htoken⟩ := h.starts
    refine Reads.imp (.head (fun s rest hs => ?_) atEnd_statement
      (reads_exprStatement h (Nat.le_refl (n + 1)))) fun _ _ => trivial
    exact statementOf_of_startsExpression hs htoken
  | forStmt hkeyword hopening hinit hcond hsemicolon hstep hclosing hbody ih =>
    refine .of_succ fun n stop => ?_
    refine reads_statement_keyword (reads_forStatement hopening hinit hcond hsemicolon hstep
      hclosing hbody (ih n) (Nat.le_succ n)) fun s rest hs => ?_
    rw [statementOf, hs]
    simp [hkeyword]
  | ifThen hkeyword hopening hcond hclosing hyes ih =>
    refine .of_succ fun n stop => ?_
    refine reads_statement_keyword (reads_ifStatement_then hopening hcond hclosing hyes (ih n)
      (Nat.le_succ n)) fun s rest hs => ?_
    rw [statementOf, hs]
    simp [hkeyword]
  | ifElse hkeyword hopening hcond hclosing hyes hopen hother hno ihyes ihno =>
    refine .of_succ fun n stop => ?_
    cases hopen
    refine reads_statement_keyword (reads_ifStatement_else hopening hcond hclosing (ihyes n) hother
      hno (ihno n) (Nat.le_succ n)) fun s rest hs => ?_
    rw [statementOf, hs]
    simp [hkeyword]
  | printStmt hkeyword hvalue hsemicolon =>
    refine .of_succ fun n stop => ?_
    refine Reads.imp (reads_statement_keyword
      (reads_printStatement hvalue hsemicolon (Nat.le_succ n)) fun s rest hs => ?_)
      fun _ _ => trivial
    rw [statementOf, hs]
    simp [hkeyword]
  | returnStmt hkeyword hvalue hsemicolon =>
    refine .of_succ fun n stop => ?_
    refine Reads.imp (reads_statement_keyword
      (reads_returnStatement hvalue hsemicolon (Nat.le_succ n)) fun s rest hs => ?_)
      fun _ _ => trivial
    rw [statementOf, hs]
    simp [hkeyword]
  | whileStmt hkeyword hopening hcond hclosing hbody ih =>
    refine .of_succ fun n stop => ?_
    refine reads_statement_keyword (reads_whileStatement hopening hcond hclosing hbody (ih n)
      (Nat.le_succ n)) fun s rest hs => ?_
    rw [statementOf, hs]
    simp [hkeyword]
  | block hleft hbody hright ih =>
    refine .of_succ fun n stop => ?_
    refine Reads.imp (reads_statement_keyword (reads_blockStatement hbody (fun d hd => ih d hd n)
      hright (Nat.le_succ n)) fun s rest hs => ?_) fun _ _ => trivial
    rw [statementOf, hs]
    simp [hleft]

/-- **A program is read as its tree.** -/
theorem reads_program {tree : Program} (h : Grammar.Program Grammar.nearestIf words tree) :
    Reads n (program n) (fun _ => False) false stop words tree := by
  obtain ⟨parts, hparts, rfl, rfl⟩ := h
  refine reads_declarations nofun ?_ ?_ parts (Nat.le_refl n) (fun d hd => (hparts d hd).starts)
    fun d hd => readsStmt_of_derives (hparts d hd) n
  · intro s hs
    cases hrest : s.rest with
    | nil => rfl
    | cons token rest => rw [hrest, clear_cons] at hs; exact hs.elim
  · intro s token rest hs _
    rw [hs]
    rfl

end

end Parser

end BlockScript
