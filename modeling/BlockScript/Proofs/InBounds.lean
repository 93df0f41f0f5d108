import Mathlib.Data.List.TakeWhile
import BlockScript.Proofs.Course
import BlockScript.Proofs.Tracking

/-!
# The parser stays in bounds

The parser with a cursor stops on every list of tokens, without a misstep, and gives the same
program and the same faults as the parser with a bound. For each pair of functions of the two
parsers, one tracks the other.

How many tokens are left is what both the bound and the end of each loop hang on: nothing is read
again before a token was taken. A declaration might break off without having taken one, but then
recovery takes it (`Parser.Progresses`).

A list need not have an end of input, or can have several, and tokens of any kind and with any place
can come before it. Nothing is asked of them.

## Main results

* `Cursor.tracks_expression`, `Cursor.tracks_statement_declaration` — the two parsers
* `parse_in_bounds` — the parser stops at the first end of input, without a misstep
-/

namespace BlockScript

namespace Cursor

open BlockScript.Parser (State stateAfter)

variable {α : Type}

/-! ## Expressions -/

/-- One parser tracks the other one wherever they are. -/
abbrev TracksAll (n : Nat) (q : Action α) (p : Parser α) : Prop := ∀ before, Tracks n before q p

theorem TracksAll.mono {n m : Nat} {q : Action α} {p : Parser α} (h : TracksAll n q p)
    (hm : m ≤ n) : TracksAll m q p := fun before => (h before).mono hm

variable {n m steps : Nat} {before : List Token} {nested : Parser Expr}

theorem tracks_checkCount (tooMany : Nat → Fault) (count : Nat) :
    TracksAll n (checkCount tooMany count) (Parser.checkCount tooMany count) := by
  intro before
  rw [checkCount, Parser.checkCount]
  split
  · exact .peek_bind fun token => .record _ token.span
  · exact .pure ()

/-- Items with commas between them, whatever reads the items. -/
theorem tracks_commaSeparated {tooMany : Nat → Fault} {q : Nat → Action (List α)} {item : Action α}
    {item' : Parser α} (hq : ∀ count, q count = do
      checkCount tooMany count
      let first ← item
      if ← accepts (.symbol .comma) then
        let others ← q (count + 1)
        return first :: others
      else return [first]) (hitem : TracksAll n item item') (hn : n ≤ steps) (count : Nat) :
    TracksAll n (q count) (Parser.commaSeparated tooMany item' steps count) := by
  -- each turn takes a comma, so `n` goes down with `steps` and is zero when these run out
  induction steps generalizing n count with
  | zero =>
    obtain rfl := Nat.le_zero.mp hn
    exact fun _ => .zero
  | succ steps ih =>
    intro before
    rw [hq, Parser.commaSeparated]
    refine (tracks_checkCount tooMany count before).bind fun _ _ => (hitem _).bind fun _ first => ?_
    refine .accepts_bind (.pure _) (m := n - 1) (fun comma _ => ?_) (by omega)
    have hothers := ih (hitem.mono (Nat.sub_le n 1)) (by omega) (count + 1)
    exact (hothers _).bind fun _ others => .pure _

theorem tracks_finishCall (h : TracksAll n expression nested) (hn : n ≤ steps) (callee : Expr) :
    TracksAll n (finishCall callee) (Parser.finishCall steps nested callee) := by
  have hargs : TracksAll n argumentList (Parser.itemList steps .tooManyArguments nested) := by
    intro before
    rw [argumentList, Parser.itemList]
    refine .check_bind (.pure _) ?_
    exact tracks_commaSeparated (fun count => by rw [arguments]) h hn 0 before
  intro before
  rw [finishCall, Parser.finishCall]
  refine (hargs before).bind fun _ args => .consume_bind (fun closing _ => ?_) (Nat.le_succ n)
  exact .pure _

theorem tracks_callsOf {width : Nat} (h : TracksAll m expression nested) (hm : n ≤ m + 1)
    (hwidth : m ≤ width) (hn : n ≤ steps) (callee : Expr) :
    TracksAll n (callsOf callee) (Parser.callsOf width nested steps callee) := by
  induction steps generalizing n callee with
  | zero =>
    obtain rfl := Nat.le_zero.mp hn
    exact fun _ => .zero
  | succ steps ih =>
    intro before
    rw [callsOf, Parser.callsOf]
    refine .accepts_bind (.pure _) (m := n - 1) (fun opening _ => ?_) (by omega)
    have hcall := (tracks_finishCall h hwidth callee).mono (show n - 1 ≤ m by omega)
    exact (hcall _).bind fun _ next => ih (by omega) (by omega) next _

theorem tracks_primary (h : TracksAll m expression nested) (hm : n ≤ m + 1) :
    TracksAll n primary (Parser.primary nested) := by
  intro before c s hs hlt
  rw [primary, Parser.primary_eq]
  cases hrest : s.rest with
  | nil =>
    -- the end of input is a token for the one, and none for the other
    obtain ⟨last, hpeek, hkind, hspan⟩ := hs.peek_of_end hrest
    have hunit : Parser.unit? last = none := by rw [Parser.unit?, hkind]
    rw [bind_of_ok hpeek, Parser.byHead_of_end hrest, hunit, hkind]
    rw [Parser.failHere, State.here_of_end hrest, ← hspan]
    exact .error hs
  | cons token rest =>
    rw [bind_of_ok (hs.peek_of_rest hrest)]
    have hlt := Nat.lt_of_lt_of_le hlt hm
    cases hunit : Parser.unit? token with
    | some tree =>
      have hbranch : Parser.unitBranch nested token = some (pure tree) := by
        rw [Parser.unitBranch, hunit]
      dsimp only
      rw [Parser.byHead_of_some hrest hbranch, bind_of_ok (hs.advance_of_rest hrest)]
      exact Tracks.cons (.pure tree) hs hrest hlt
    | none =>
      by_cases hkind : token.kind = .symbol .leftParen
      · have hbranch : Parser.unitBranch nested token = some (Parser.grouping nested token) := by
          rw [Parser.unitBranch, hunit, if_pos hkind]
        dsimp only
        rw [Parser.byHead_of_some hrest hbranch, if_pos hkind,
          bind_of_ok (hs.advance_of_rest hrest)]
        refine Tracks.cons ((h _).bind fun _ inner => ?_) hs hrest hlt
        exact .consume_bind (fun closing _ => .pure _) (Nat.le_succ m)
      · have hbranch : Parser.unitBranch nested token = none := by
          rw [Parser.unitBranch, hunit, if_neg hkind]
        have hhere : s.here = token.span := by rw [State.here, hrest]
        dsimp only
        rw [Parser.byHead_of_none hrest hbranch, if_neg hkind, Parser.failHere, hhere]
        exact .error hs

theorem tracks_call {width : Nat} (h : TracksAll m expression nested) (hm : n ≤ m + 1)
    (hwidth : m ≤ width) (hn : n ≤ width) : TracksAll n call (Parser.call width nested) := by
  intro before
  rw [call, Parser.call]
  exact (tracks_primary h hm before).bind fun _ callee => tracks_callsOf h hm hwidth hn callee _

theorem tracks_unary {operand : Parser Expr} (h : TracksAll n call operand) (hn : n ≤ steps) :
    TracksAll n unary (Parser.unary operand steps) := by
  induction steps generalizing n with
  | zero =>
    obtain rfl := Nat.le_zero.mp hn
    exact fun _ => .zero
  | succ steps ih =>
    intro before
    rw [unary, Parser.unary]
    refine .accept?_bind (h before) (m := n - 1) (fun op operator _ => .previous_bind ?_) (by omega)
    have hinner := ih (h.mono (Nat.sub_le n 1)) (by omega)
    exact (hinner _).bind fun _ inner => .pure _

theorem tracks_chain {operand : Parser Expr} {tighter : List Parser.Level}
    (h : TracksAll n (binary tighter) operand) (level : Parser.Level) (hn : n ≤ steps)
    (left : Expr) :
    TracksAll n (chain level tighter left) (Parser.chain level operand steps left) := by
  induction steps generalizing n left with
  | zero =>
    obtain rfl := Nat.le_zero.mp hn
    exact fun _ => .zero
  | succ steps ih =>
    intro before
    rw [chain, Parser.chain]
    refine .accept?_bind (.pure left) (m := n - 1) (fun joint operator _ => ?_) (by omega)
    have h := h.mono (Nat.sub_le n 1)
    exact (h _).bind fun _ right => ih h (by omega) (joint.join left right) _

theorem tracks_binary {operand : Parser Expr} (h : TracksAll n unary operand) (hn : n ≤ steps)
    (levels : List Parser.Level) :
    TracksAll n (binary levels) (Parser.binary steps operand levels) := by
  induction levels with
  | nil =>
    intro before
    rw [binary, Parser.binary]
    exact h before
  | cons level tighter ih =>
    intro before
    rw [binary, Parser.binary]
    exact (ih before).bind fun _ first => tracks_chain ih level hn first _

theorem tracks_assignment (h : TracksAll m expression nested) (hm : n ≤ m + 1)
    (hwidth : m ≤ steps) (hn : n ≤ steps) :
    TracksAll n expression (Parser.assignment steps nested) := by
  intro before
  have hunary := tracks_unary (tracks_call h hm hwidth hn) hn
  rw [expression, Parser.assignment]
  refine (tracks_binary hunary hn Parser.levels before).bind fun _ target => ?_
  refine .accepts_bind (.pure target) (fun equals _ => .previous_bind ?_) hm
  refine (h _).bind fun _ value => ?_
  cases target with
  | ident span name => exact .pure _
  | _ => exact (Tracks.record _ equals.span).bind fun _ _ => .pure _

/-- **The parsers of expressions** do the same, with fewer tokens left than the bound. -/
theorem tracks_expression (k : Nat) : TracksAll k expression (Parser.expression k) := by
  induction k with
  | zero => exact fun _ => .zero
  | succ k ih => exact tracks_assignment ih (Nat.le_refl _) (Nat.le_succ k) (Nat.le_refl _)

/-! ## Statements -/

section

variable {expr : Parser Expr} (h : TracksAll n expression expr)
include h

theorem tracks_exprStatement : TracksAll n exprStatement (Parser.exprStatement expr) := by
  intro before
  refine (h before).bind fun _ value => .consume_bind (fun semicolon _ => ?_) (Nat.le_succ n)
  exact .spanFrom_bind (by simp) fun span => .pure _

theorem tracks_unlessNext (kind : Token.Kind) :
    TracksAll n (unlessNext kind) (Parser.unlessNext kind expr) :=
  fun before => .check_bind (.pure none) (h before).map

/-- After the keyword. -/
theorem tracks_varDeclaration (keyword : Token) :
    Tracks n (before ++ [keyword]) varDeclaration
      (Parser.varDeclaration expr keyword.span.start) := by
  have hvalue : TracksAll n initialValue (Parser.initialValue expr) := fun before =>
    .accepts_bind (.pure none) (fun equals _ => (h _).map) (Nat.le_succ n)
  refine .previous_bind (.consume_bind (fun name _ => ?_) (Nat.le_succ n))
  refine (hvalue _).bind fun _ value => .consume_bind (fun semicolon _ => ?_) (Nat.le_succ n)
  exact .spanFrom_bind (by simp) fun span => .pure _

theorem tracks_printStatement (keyword : Token) :
    Tracks n (before ++ [keyword]) printStatement
      (Parser.printStatement expr keyword.span.start) := by
  refine .previous_bind ((h _).bind fun _ value => ?_)
  refine .consume_bind (fun semicolon _ => ?_) (Nat.le_succ n)
  exact .spanFrom_bind (by simp) fun span => .pure _

theorem tracks_returnStatement (keyword : Token) :
    Tracks n (before ++ [keyword]) returnStatement
      (Parser.returnStatement expr keyword.span) := by
  have hcheck : TracksAll n (checkReturn keyword.span) (Parser.checkReturn keyword.span) := by
    intro before c s hs hlt
    have hdepth : checkReturn keyword.span c = (if c.depth = 0 then
        record ⟨.returnOutsideFunction, keyword.span⟩ else pure ()) c := rfl
    rw [hdepth, hs.depth, Parser.checkReturn]
    split
    · exact Tracks.record _ _ c s hs hlt
    · exact .ok hs
  refine .previous_bind ((hcheck _).bind fun _ _ => ?_)
  refine (tracks_unlessNext h _ _).bind fun _ value => ?_
  refine .consume_bind (fun semicolon _ => ?_) (Nat.le_succ n)
  exact .spanFrom_bind (by simp) fun span => .pure _

theorem tracks_forInitial : TracksAll n forInitial (Parser.forInitial expr) := by
  intro before
  refine .accepts_bind ?_ (fun semicolon _ => .pure none) (Nat.le_succ n)
  refine .accepts_bind (tracks_exprStatement h _).map (fun keyword _ => ?_) (Nat.le_succ n)
  exact (tracks_varDeclaration h keyword).map

theorem tracks_forCondition : TracksAll n forCondition (Parser.forCondition expr) :=
  fun before => .check_bind (.peek_bind fun _ => .pure _) (h before)

variable {statement' : Parser Stmt} (hstatement : TracksAll n statement statement')
include hstatement

theorem tracks_forStatement (keyword : Token) :
    Tracks n (before ++ [keyword]) forStatement
      (Parser.forStatement expr statement' keyword.span.start) := by
  rw [forStatement, Parser.forStatement]
  refine .previous_bind (.consume_bind (fun opening _ => ?_) (Nat.le_succ n))
  refine (tracks_forInitial h _).bind fun _ init => (tracks_forCondition h _).bind fun _ cond => ?_
  refine .consume_bind (fun semicolon _ => ?_) (Nat.le_succ n)
  refine (tracks_unlessNext h _ _).bind fun _ step => ?_
  refine .consume_bind (fun closing _ => (hstatement _).bind fun _ body => ?_) (Nat.le_succ n)
  exact .spanFrom_bind (by simp) fun span => .pure _

theorem tracks_ifStatement (keyword : Token) :
    Tracks n (before ++ [keyword]) ifStatement
      (Parser.ifStatement expr statement' keyword.span.start) := by
  rw [ifStatement, Parser.ifStatement]
  refine .previous_bind (.consume_bind (fun opening _ => (h _).bind fun _ cond => ?_)
    (Nat.le_succ n))
  refine .consume_bind (fun closing _ => (hstatement _).bind fun _ yes => ?_) (Nat.le_succ n)
  refine .accepts_bind (.spanFrom_bind (by simp) fun span => .pure _)
    (fun other _ => (hstatement _).bind fun _ no => ?_) (Nat.le_succ n)
  exact .spanFrom_bind (by simp) fun span => .pure _

theorem tracks_whileStatement (keyword : Token) :
    Tracks n (before ++ [keyword]) whileStatement
      (Parser.whileStatement expr statement' keyword.span.start) := by
  rw [whileStatement, Parser.whileStatement]
  refine .previous_bind (.consume_bind (fun opening _ => (h _).bind fun _ cond => ?_)
    (Nat.le_succ n))
  refine .consume_bind (fun closing _ => (hstatement _).bind fun _ body => ?_) (Nat.le_succ n)
  exact .spanFrom_bind (by simp) fun span => .pure _

end

/-! ## Declarations -/

/-- A sequence of declarations is over for the one as for the other. -/
structure ClosesAlike (inBlock : Bool) (isClosed : State → Bool) : Prop where
  closed : ∀ before c s, Shows before c s →
    closed inBlock c = some (.ok (.ok (isClosed s), c))
  atEnd : ∀ s, s.rest = [] → isClosed s = true

theorem closesAlike_program : ClosesAlike false fun s => s.rest.isEmpty where
  closed before c s hs := by
    rw [closed, bind_of_ok hs.atEnd_eq]
    cases s.rest.isEmpty <;> rfl
  atEnd s hs := by rw [hs]; rfl

theorem closesAlike_block :
    ClosesAlike true fun s => s.rest.isEmpty || s.nextIs (.symbol .rightBrace) where
  closed before c s hs := by
    rw [closed, bind_of_ok hs.atEnd_eq]
    cases s.rest.isEmpty with
    | true => rfl
    | false => exact hs.check_eq _
  atEnd s hs := by rw [hs]; rfl

section

variable {declaration' : Parser (Option Stmt)} (h : TracksAll n declaration declaration')
  (hless : Parser.Progresses n declaration')
include h hless

theorem tracks_declarations {inBlock : Bool} {isClosed : State → Bool}
    (hclosed : ClosesAlike inBlock isClosed) (hn : n ≤ steps) :
    TracksAll n (declarations inBlock) (Parser.declarations declaration' isClosed steps) := by
  induction steps generalizing n with
  | zero =>
    obtain rfl := Nat.le_zero.mp hn
    exact fun _ => .zero
  | succ steps ih =>
    intro before c s hs hlt
    rw [declarations, Parser.declarations, bind_of_ok (hclosed.closed before c s hs)]
    cases hover : isClosed s with
    | true => exact .ok hs
    | false =>
      have hne : s.rest ≠ [] := fun hend => by
        rw [hclosed.atEnd s hend] at hover
        cases hover
      -- the declaration took a token, so one less is enough for the others
      have hothers := ih (h.mono (Nat.sub_le n 1))
        (fun s hs hlt => hless s hs (by omega)) (show n - 1 ≤ steps by omega)
      refine (h before c s hs hlt).bind fun words kept c' s' hr _ hshows => ?_
      have hshorter : (stateAfter (declaration' s)).rest.length < s.rest.length := hless s hne hlt
      rw [hr] at hshorter
      have hlt' : s'.rest.length < n - 1 := by
        have : s'.rest.length < s.rest.length := hshorter
        omega
      exact ((hothers _).bind fun _ others => .pure _) c' s' hshows hlt'

theorem tracks_block (hn : n ≤ steps) :
    TracksAll n block (Parser.block steps declaration') := by
  intro before
  rw [block, Parser.block]
  refine (tracks_declarations h hless closesAlike_block hn before).bind fun _ body => ?_
  exact .consume_bind (fun brace _ => .pure body) (Nat.le_succ n)

theorem tracks_blockStatement (hn : n ≤ steps) (brace : Token) :
    Tracks n (before ++ [brace]) blockStatement
      (Parser.blockStatement steps declaration' brace.span.start) := by
  rw [blockStatement, Parser.blockStatement]
  refine .previous_bind ((tracks_block h hless hn _).bind fun _ body => ?_)
  exact .spanFrom_bind (by simp) fun span => .pure _

/-- The depth is that of before the function, so there is a function to leave. -/
theorem tracks_functionBody (hn : n ≤ steps) :
    TracksAll n functionBody (Parser.insideFunction (Parser.block steps declaration')) := by
  intro before c s hs hlt
  have hinside : Shows before { c with depth := c.depth + 1 } { s with depth := s.depth + 1 } :=
    { hs with depth := by rw [hs.depth] }
  obtain ⟨words, c', hreply, hrest, hshows, hdepth⟩ :=
    tracks_block h hless hn before _ _ hinside hlt
  -- the block left the depth as it was, which is above zero
  have hleave : leaveFunction c' = some (.ok ((), { c' with depth := s.depth })) := by
    rw [leaveFunction, hshows.depth, hdepth]
  have hreply' : functionBody c = some (.ok (outcome (Parser.block steps declaration'
      { s with depth := s.depth + 1 }), { c' with depth := s.depth })) := by
    rw [functionBody]
    refine (walk_bind (w := enterFunction) rfl).trans ?_
    refine (walk_bind (w := ExceptT.run block) hreply).trans ?_
    exact (walk_bind hleave).trans rfl
  rw [Parser.insideFunction, hreply']
  cases hr : Parser.block steps declaration' { s with depth := s.depth + 1 } with
  | error fault s' =>
    rw [hr] at hrest hshows
    exact ⟨words, _, rfl, hrest, { hshows with depth := rfl }, rfl⟩
  | ok body s' =>
    rw [hr] at hrest hshows
    exact ⟨words, _, rfl, hrest, { hshows with depth := rfl }, rfl⟩

theorem tracks_funcDeclaration (hn : n ≤ steps) (keyword : Token) :
    Tracks n (before ++ [keyword]) funcDeclaration
      (Parser.funcDeclaration steps declaration' keyword.span.start) := by
  have hitem : TracksAll n (consume .identifier "parameter name")
      (Parser.expect .identifier "parameter name") := by
    intro before
    rw [← bind_pure (consume .identifier "parameter name"),
      ← bind_pure (Parser.expect .identifier "parameter name")]
    exact .consume_bind (fun name _ => .pure name) (Nat.le_succ n)
  have hparams : TracksAll n parameterList (Parser.itemList steps .tooManyParameters
      (Parser.expect .identifier "parameter name")) := by
    intro before
    refine .check_bind (.pure []) ?_
    exact tracks_commaSeparated (fun count => by rw [parameters]) hitem hn 0 before
  rw [funcDeclaration, Parser.funcDeclaration]
  refine .previous_bind (.consume_bind (fun name _ => ?_) (Nat.le_succ n))
  refine .consume_bind (fun opening _ => (hparams _).bind fun _ params => ?_) (Nat.le_succ n)
  refine .consume_bind (fun closing _ => .consume_bind (fun brace _ => ?_) (Nat.le_succ n))
    (Nat.le_succ n)
  refine (tracks_functionBody h hless hn _).bind fun _ body => ?_
  exact .spanFrom_bind (by simp) fun span => .pure _

end

/-! ### Recovery -/

theorem Shows.skip {before : List Token} {skipped : Token} {c : Cursor} {s : State}
    (h : Shows (before ++ [skipped]) c s) :
    ∃ words c', skip c = some (.ok (.ok (), c')) ∧
      s.rest = words ++ (Parser.skipFrom skipped s.rest).2 ∧
      Shows (before ++ skipped :: words) c'
        { s with
          rest := (Parser.skipFrom skipped s.rest).2
          lastStop := (Parser.skipFrom skipped s.rest).1.span.stop } := by
  obtain ⟨rest, finish, lastStop, depth, faults⟩ := s
  induction rest generalizing before skipped c lastStop with
  | nil =>
    have hskip : Cursor.skip c = some (.ok (.ok (), c)) := by
      rw [Cursor.skip, bind_of_ok h.atEnd_eq]
      rfl
    have hstop : lastStop = skipped.span.stop := h.stop.trans (by simp)
    subst hstop
    exact ⟨[], c, hskip, rfl, h⟩
  | cons token rest ih =>
    have hskip : Cursor.skip c =
        if skipped.kind = .symbol .semicolon || token.kind.startsStatement
        then some (.ok (.ok (), c)) else Cursor.skip c.next := by
      nth_rewrite 1 [Cursor.skip]
      rw [bind_of_ok h.atEnd_eq]
      refine (bind_of_ok h.previous_eq).trans ((bind_of_ok (h.peek_of_rest rfl)).trans ?_)
      split
      · rfl
      · exact bind_of_ok (h.advance_of_rest rfl)
    have hstop : lastStop = skipped.span.stop := h.stop.trans (by simp)
    subst hstop
    rw [Parser.skipFrom]
    split
    · rename_i hover
      rw [if_pos hover] at hskip
      exact ⟨[], c, hskip, rfl, h⟩
    · rename_i hover
      rw [if_neg hover] at hskip
      obtain ⟨words, c', hskip', hrest, hshows⟩ := ih _ (h.next rfl)
      refine ⟨token :: words, c', hskip.trans hskip', ?_, ?_⟩
      · exact congrArg (token :: ·) hrest
      · rwa [List.append_assoc] at hshows

theorem Shows.synchronize {before : List Token} {c : Cursor} {s : State} (h : Shows before c s) :
    ∃ words c', synchronize c = some (.ok (.ok (), c')) ∧ s.rest = words ++ s.synchronize.rest ∧
      Shows (before ++ words) c' s.synchronize := by
  cases hrest : s.rest with
  | nil =>
    have hskip : Cursor.skip c = some (.ok (.ok (), c)) := by
      rw [Cursor.skip, bind_of_ok h.atEnd_eq, hrest]
      rfl
    rw [State.synchronize_of_end hrest]
    refine ⟨[], c, (bind_of_ok (h.advance_of_end hrest)).trans hskip, hrest.symm, ?_⟩
    rwa [List.append_nil]
  | cons token rest =>
    obtain ⟨words, c', hskip, hwords, hshows⟩ := (h.next hrest).skip
    refine ⟨token :: words, c', (bind_of_ok (h.advance_of_rest hrest)).trans hskip, ?_, ?_⟩
    · simp only [State.synchronize, hrest]
      exact congrArg (token :: ·) hwords
    · simp only [State.synchronize, hrest]
      exact hshows

theorem tracks_recover {body : Parser Stmt} (h : TracksAll n declarationBody body) :
    TracksAll n declaration (Parser.recover body) := by
  intro before c s hs hlt
  obtain ⟨words, c', hreply, hrest, hshows, hdepth⟩ := h before c s hs hlt
  rw [declaration, Parser.recover]
  cases hr : body s with
  | ok tree s' =>
    rw [hr] at hreply hrest hshows hdepth
    exact ⟨words, c', (walk_bind (w := ExceptT.run declarationBody) hreply).trans rfl, hrest,
      hshows, hdepth⟩
  | error fault s' =>
    rw [hr] at hreply hrest hshows hdepth
    obtain ⟨skipped, c'', hsync, hskipped, hshows'⟩ := (hshows.record fault).synchronize
    refine ⟨words ++ skipped, c'', ?_, ?_, ?_, ?_⟩
    · refine (walk_bind (w := ExceptT.run declarationBody) hreply).trans ?_
      refine (walk_bind (w := ExceptT.run (record fault)) rfl).trans ?_
      exact (walk_bind (w := ExceptT.run synchronize) hsync).trans rfl
    · rw [hrest, List.append_assoc]
      exact congrArg (words ++ ·) hskipped
    · rwa [← List.append_assoc]
    · exact (Parser.Follows.synchronize (s'.record fault)).depth.trans hdepth

/-! ### The whole parser -/

section

variable {k : Nat} {expr : Parser Expr} {statement' : Parser Stmt}
  {declaration' : Parser (Option Stmt)} (hexpr : TracksAll (k + 1) expression expr)
  (hstatement : TracksAll k statement statement')
  (hdeclaration : TracksAll k declaration declaration')
  (hless : Parser.Progresses k declaration') (hsteps : k ≤ steps)
include hexpr hstatement hdeclaration hless hsteps

theorem tracks_statementBranch :
    TracksAll (k + 1) statement (Parser.byHead
      (Parser.statementBranch steps expr statement' declaration') (Parser.exprStatement expr)) := by
  intro before
  have hnested := hexpr.mono (Nat.le_succ k)
  rw [statement]
  refine .accepts_byHead (fun token hkind => ⟨_, by simp [Parser.statementBranch, hkind],
    tracks_forStatement hnested hstatement token⟩) ?_ (Nat.le_refl _)
  refine .accepts_byHead (fun token hkind => ⟨_, by simp [without, Parser.statementBranch, hkind],
    tracks_ifStatement hnested hstatement token⟩) ?_ (Nat.le_refl _)
  refine .accepts_byHead (fun token hkind => ⟨_, by simp [without, Parser.statementBranch, hkind],
    tracks_printStatement hnested token⟩) ?_ (Nat.le_refl _)
  refine .accepts_byHead (fun token hkind => ⟨_, by simp [without, Parser.statementBranch, hkind],
    tracks_returnStatement hnested token⟩) ?_ (Nat.le_refl _)
  refine .accepts_byHead (fun token hkind => ⟨_, by simp [without, Parser.statementBranch, hkind],
    tracks_whileStatement hnested hstatement token⟩) ?_ (Nat.le_refl _)
  refine .accepts_byHead (fun token hkind => ⟨_, by simp [without, Parser.statementBranch, hkind],
    tracks_blockStatement hdeclaration hless hsteps token⟩) ?_ (Nat.le_refl _)
  rw [Parser.byHead_eq_of_forall fun token => ?_]
  · exact tracks_exprStatement hexpr before
  · grind [without, Parser.statementBranch]

theorem tracks_declarationBranch :
    TracksAll (k + 1) declarationBody (Parser.byHead
      (Parser.declarationBranch steps expr statement' declaration')
      (Parser.exprStatement expr)) := by
  intro before
  have hnested := hexpr.mono (Nat.le_succ k)
  have hothers : without (.keyword .varWord) (without (.keyword .funcWord)
      (Parser.declarationBranch steps expr statement' declaration')) =
        Parser.statementBranch steps expr statement' declaration' := by
    funext token
    grind [without, Parser.declarationBranch, Parser.statementBranch]
  rw [declarationBody]
  refine .accepts_byHead (fun token hkind => ⟨_, by simp [Parser.declarationBranch, hkind],
    tracks_funcDeclaration hdeclaration hless hsteps token⟩) ?_ (Nat.le_refl _)
  refine .accepts_byHead (fun token hkind => ⟨_, by simp [without, Parser.declarationBranch, hkind],
    tracks_varDeclaration hnested token⟩) ?_ (Nat.le_refl _)
  rw [hothers]
  exact tracks_statementBranch hexpr hstatement hdeclaration hless hsteps before

end

/-- **The parsers of statements and declarations** do the same, with fewer tokens left than the
bound. -/
theorem tracks_statement_declaration (k : Nat) :
    TracksAll k statement (Parser.statement k) ∧
      TracksAll k declaration (Parser.declaration k) := by
  induction k with
  | zero => exact ⟨fun _ => .zero, fun _ => .zero⟩
  | succ k ih =>
    obtain ⟨hstatement, hdeclaration⟩ := ih
    have hexpr := tracks_expression (k + 1)
    have hless := (Parser.coherent_statement_declaration k).1
    rw [Parser.statement_succ, Parser.declaration_succ]
    refine ⟨?_, tracks_recover ?_⟩
    · exact tracks_statementBranch hexpr hstatement hdeclaration hless (Nat.le_succ k)
    · exact tracks_declarationBranch hexpr hstatement hdeclaration hless (Nat.le_succ k)

/-! ## Any list of tokens -/

theorem exists_tokens_start (tokens : List Token) :
    ∃ last more, (start tokens).tokens = (State.start tokens).rest ++ last :: more ∧
      last.kind = .endOfInput ∧ last.span = (State.start tokens).finish := by
  have hsplit : tokens = (State.start tokens).rest ++
      tokens.dropWhile (·.kind ≠ .endOfInput) := List.takeWhile_append_dropWhile.symm
  have hfind : tokens.find? (·.kind = .endOfInput) =
      (tokens.dropWhile (·.kind ≠ .endOfInput)).head? := by
    rw [List.find?_eq_head?_dropWhile_not]
    simp
  cases hdrop : tokens.dropWhile (·.kind ≠ .endOfInput) with
  | cons last more =>
    rw [hdrop] at hsplit hfind
    have hfinish : (State.start tokens).finish = last.span := by
      rw [State.start, endOfTokens, hfind]
      rfl
    have hkind : last.kind = .endOfInput := by simpa using List.find?_some hfind
    have hadded (added : List Token) :
        tokens ++ added = (State.start tokens).rest ++ last :: (more ++ added) := by
      rw [← List.cons_append, ← List.append_assoc, ← hsplit]
    rw [start, hfinish]
    dsimp only
    split
    · exact ⟨last, more, hsplit, hkind, rfl⟩
    · exact ⟨last, _, hadded _, hkind, rfl⟩
  | nil =>
    rw [hdrop, List.append_nil] at hsplit
    rw [hdrop] at hfind
    have hlast : ¬tokens.getLast?.map Token.kind = some .endOfInput := by
      intro h
      obtain ⟨token, htoken, hkind⟩ := Option.map_eq_some_iff.mp h
      have hne := List.find?_eq_none.mp hfind token (List.mem_of_getLast? htoken)
      exact hne (decide_eq_true hkind)
    rw [start, if_neg hlast, ← hsplit]
    refine ⟨_, [], rfl, rfl, ?_⟩
    rw [State.start, endOfTokens, hfind]
    cases tokens.getLast? <;> rfl

theorem shows_start (tokens : List Token) : Shows [] (start tokens) (State.start tokens) where
  tokens := exists_tokens_start tokens
  clear token htoken := by simpa using List.mem_takeWhile_imp htoken
  current := rfl
  depth := rfl
  faults := rfl
  stop := rfl

theorem length_start_rest (tokens : List Token) :
    (State.start tokens).rest.length = tokens.findIdx (·.kind = .endOfInput) := by
  rw [State.start, List.takeWhile_eq_take_findIdx_not, List.length_take]
  simp [List.findIdx_le_length]

theorem tracks_program (bound : Nat) :
    TracksAll bound (declarations false) (Parser.program bound) :=
  tracks_declarations (tracks_statement_declaration bound).2
    (Parser.coherent_statement_declaration bound).1 closesAlike_program (Nat.le_refl bound)

end Cursor

/-- **The parser stops on every list of tokens and stays in bounds.** With a cursor and without a
bound it comes to an end without a misstep, at the first end of input and outside of all functions,
with the program and the faults of `parseTokens`. A bound is not noticed if it is above the number
of tokens before that end. -/
theorem parse_in_bounds (tokens : List Token) :
    ∃ cursor,
      Cursor.parse tokens = some (.ok (.ok (parseTokens tokens).program, cursor)) ∧
      cursor.faults = (parseTokens tokens).faults ∧
      cursor.current = tokens.findIdx (·.kind = .endOfInput) ∧ cursor.depth = 0 ∧
      ∀ bound, tokens.findIdx (·.kind = .endOfInput) < bound → ∃ s,
        Parser.program bound (.start tokens) = .ok (parseTokens tokens).program s ∧
          s.faults = (parseTokens tokens).faults ∧ s.rest = [] ∧ s.depth = 0 := by
  have harrives {bound : Nat} (hbound : tokens.findIdx (·.kind = .endOfInput) < bound) :=
    Cursor.tracks_program bound [] _ _ (Cursor.shows_start tokens)
      (Cursor.length_start_rest tokens ▸ hbound)
  obtain ⟨s, hr, hfaults, hrest, -⟩ := exists_course_program tokens
  rw [Cursor.length_start_rest] at hr
  obtain ⟨words, cursor, hparse, hwords, hshows, hdepth⟩ := harrives (Nat.lt_succ_self _)
  rw [hr] at hparse hwords hshows hdepth
  have hall : cursor.current = (Parser.State.start tokens).rest.length := by
    have hrest : (Parser.stateAfter (.ok (parseTokens tokens).program s)).rest = [] := hrest
    rw [hshows.current, hwords, hrest, List.nil_append, List.append_nil]
  refine ⟨cursor, hparse, hshows.faults.trans hfaults,
    hall.trans (Cursor.length_start_rest tokens), hshows.depth.trans hdepth, fun bound hbound => ?_⟩
  obtain ⟨words', cursor', hparse', hwords', hshows', hdepth'⟩ := harrives hbound
  obtain ⟨houtcome, rfl⟩ : Cursor.outcome (Parser.program bound (.start tokens)) =
      .ok (parseTokens tokens).program ∧ cursor' = cursor := by
    simpa [Cursor.outcome] using hparse'.symm.trans hparse
  cases hr' : Parser.program bound (.start tokens) with
  | error fault s' =>
    rw [hr'] at houtcome
    nomatch houtcome
  | ok program s' =>
    rw [hr'] at houtcome hwords' hshows' hdepth'
    obtain rfl : program = (parseTokens tokens).program := by simpa [Cursor.outcome] using houtcome
    have hlength : s'.rest.length = 0 := by
      have hcurrent := hshows'.current
      rw [hall, hwords', List.length_append, List.nil_append] at hcurrent
      exact Nat.add_eq_left.mp hcurrent
    exact ⟨s', rfl, hshows'.faults.symm.trans (hshows.faults.trans hfaults),
      List.length_eq_zero_iff.mp hlength, hdepth'⟩

end BlockScript
