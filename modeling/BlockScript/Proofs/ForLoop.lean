import BlockScript.Proofs.Folding
import BlockScript.Proofs.ScopeNames

/-!
# What a `for` loop means

A `for` loop abbreviates a block: it opens a scope with the initial statement in it, and a `while`
loop whose body is a block again, of the body of the loop and the step. That does what the clauses
say: there is one scope for the whole loop, in which the initial statement is run once, and then,
as long as the condition holds, the body and the step after it. How such a loop runs is a relation
(`ForClauses.Runs`), with a rule for each way that it can go on or end. So it owes nothing to the
interpreter's loop, by which it is run in turn (`ForClauses.exec`).

The two differ in the scope that the block in the `while` loop opens on every turn. Nothing is ever
declared in it, since the parser takes no declaration for the body of a loop (`Stmt.Plain`), so
these scopes are blank and do not matter (`Machine.folding`). But functions that are made in the
body keep them, and they stay in the store. So the machines that the two leave are not the same.
They cannot be told apart: whatever is done with them later, in scopes that were there before, it
has the same outcome.

## Main definitions

* `ForClauses`, `Parser.forClauses` — the clauses of a `for` loop, and how they are read
* `ForClauses.Runs`, `ForClauses.exec` — the loop as its clauses say, by rules and as a program
* `Use`, `Machine.Indistinguishable` — what can be done with a machine, and machines with which it
  always has the same outcome
* `SameEnd` — runs that end in the same way and leave machines that cannot be told apart

## Main results

* `ForClauses.exists_runs`, `ForClauses.Runs.exec_eq` — the clauses have one run
* `Machine.Folded.indistinguishable` — machines that differ in blank scopes cannot be told apart
* `ForClauses.simulates_tree` — the block does what the clauses say
* `for_runs_clauses` — so does the tree that the parser gives for a `for` loop
-/

namespace BlockScript

/-! ## Clauses -/

/-- The clauses of a `for` loop. -/
structure ForClauses where
  init : Option Stmt
  cond : Option Expr
  step : Option Expr
  body : Stmt

/-- The clauses of a `for` loop, after its keyword. -/
def Parser.forClauses (expr : Parser Expr) (statement : Parser Stmt) : Parser ForClauses := do
  let _ ← expect (.symbol .leftParen) "'(' after 'for'"
  let init ← forInitial expr
  let cond ← unlessNext (.symbol .semicolon) expr
  let _ ← expect (.symbol .semicolon) "';' after loop condition"
  let step ← unlessNext (.symbol .rightParen) expr
  let _ ← expect (.symbol .rightParen) "')' after for clauses"
  let body ← statement
  return ⟨init, cond, step, body⟩

namespace ForClauses

/-- The block that the loop abbreviates. A condition that is missing is true, at the given place. -/
def tree (clauses : ForClauses) (span place : Span) : Stmt :=
  Parser.forLoop span clauses.init (clauses.cond.getD (.literal place (.bool true))) clauses.step
    clauses.body

variable {H : Type} [Host H]

/-! ### What the clauses say -/

/-- The value of the condition. A missing one is always true. -/
def test (clauses : ForClauses) (call : Call H) (scope : ScopeId) : Eval H (Value H) :=
  match clauses.cond with
  | some e => evalExpr call scope e
  | none => pure (.bool true)

/-- A run of the loop after its initial statement, in the scope that it has opened, if it may turn
that many times yet. -/
inductive Loops (clauses : ForClauses) (call : Call H) (turns : Nat) (scope : ScopeId) :
    Nat → Machine H → EStateM.Result Stop (Machine H) (Flow H) → Prop where
  | exhausted (m : Machine H) : Loops clauses call turns scope 0 m (.error .exhausted m)
  | testStops {left : Nat} {stop : Stop} {m m₁ : Machine H}
      (htest : clauses.test call scope m = .error stop m₁) :
      Loops clauses call turns scope (left + 1) m (.error stop m₁)
  | ends {left : Nat} {v : Value H} {m m₁ : Machine H}
      (htest : clauses.test call scope m = .ok v m₁) (hv : v.truthy = false) :
      Loops clauses call turns scope (left + 1) m (.ok .normal m₁)
  | bodyStops {left : Nat} {v : Value H} {stop : Stop} {m m₁ m₂ : Machine H}
      (htest : clauses.test call scope m = .ok v m₁) (hv : v.truthy = true)
      (hbody : execStmt call turns scope clauses.body m₁ = .error stop m₂) :
      Loops clauses call turns scope (left + 1) m (.error stop m₂)
  | returns {left : Nat} {v value : Value H} {m m₁ m₂ : Machine H}
      (htest : clauses.test call scope m = .ok v m₁) (hv : v.truthy = true)
      (hbody : execStmt call turns scope clauses.body m₁ = .ok (.returned value) m₂) :
      Loops clauses call turns scope (left + 1) m (.ok (.returned value) m₂)
  | stepStops {left : Nat} {v : Value H} {stop : Stop} {m m₁ m₂ m₃ : Machine H}
      (htest : clauses.test call scope m = .ok v m₁) (hv : v.truthy = true)
      (hbody : execStmt call turns scope clauses.body m₁ = .ok .normal m₂)
      (hstep : evalOptional call scope clauses.step m₂ = .error stop m₃) :
      Loops clauses call turns scope (left + 1) m (.error stop m₃)
  | turn {left : Nat} {v u : Value H} {m m₁ m₂ m₃ : Machine H}
      {r : EStateM.Result Stop (Machine H) (Flow H)}
      (htest : clauses.test call scope m = .ok v m₁) (hv : v.truthy = true)
      (hbody : execStmt call turns scope clauses.body m₁ = .ok .normal m₂)
      (hstep : evalOptional call scope clauses.step m₂ = .ok u m₃)
      (hrest : Loops clauses call turns scope left m₃ r) :
      Loops clauses call turns scope (left + 1) m r

/-- A run of the whole loop, in one scope of its own. -/
inductive Runs (clauses : ForClauses) (call : Call H) (turns : Nat) (scope : ScopeId)
    (m : Machine H) : EStateM.Result Stop (Machine H) (Flow H) → Prop where
  | initStops {inner : ScopeId} {stop : Stop} {m₁ m₂ : Machine H}
      (hscope : Machine.newScope (some scope) m = .ok inner m₁)
      (hinit : execAll call turns inner clauses.init.toList m₁ = .error stop m₂) :
      Runs clauses call turns scope m (.error stop m₂)
  | initReturns {inner : ScopeId} {value : Value H} {m₁ m₂ : Machine H}
      (hscope : Machine.newScope (some scope) m = .ok inner m₁)
      (hinit : execAll call turns inner clauses.init.toList m₁ = .ok (.returned value) m₂) :
      Runs clauses call turns scope m (.ok (.returned value) m₂)
  | loop {inner : ScopeId} {m₁ m₂ : Machine H} {r : EStateM.Result Stop (Machine H) (Flow H)}
      (hscope : Machine.newScope (some scope) m = .ok inner m₁)
      (hinit : execAll call turns inner clauses.init.toList m₁ = .ok .normal m₂)
      (hloop : clauses.Loops call turns inner turns m₂ r) :
      Runs clauses call turns scope m r

/-! ### The clauses as a program of the interpreter -/

/-- One turn of the loop: the body, and the step unless the body returns. -/
def turn (clauses : ForClauses) (call : Call H) (turns : Nat) (scope : ScopeId) :
    Eval H (Flow H) := do
  match ← execStmt call turns scope clauses.body with
  | .normal =>
    let _ ← evalOptional call scope clauses.step
    return .normal
  | .returned value => return .returned value

/-- The whole loop, by the interpreter's own loop. -/
def exec (clauses : ForClauses) (call : Call H) (turns : Nat) (scope : ScopeId) :
    Eval H (Flow H) := do
  let inner ← Machine.newScope (some scope)
  match ← execAll call turns inner clauses.init.toList with
  | .normal => repeatWhile (clauses.test call inner) (clauses.turn call turns inner) turns
  | .returned value => return .returned value

variable {clauses : ForClauses} {call : Call H} {turns : Nat} {scope : ScopeId} {m : Machine H}
  {r : EStateM.Result Stop (Machine H) (Flow H)}

theorem Loops.repeatWhile_eq {left : Nat} (h : clauses.Loops call turns scope left m r) :
    repeatWhile (clauses.test call scope) (clauses.turn call turns scope) left m = r := by
  induction h with
  | exhausted m => rfl
  | testStops htest => rw [repeatWhile, Eval.bind_apply, htest]
  | ends htest hv =>
    rw [repeatWhile, Eval.bind_apply, htest]
    simp only [hv, Bool.false_eq_true, if_false]
    rfl
  | bodyStops htest hv hbody =>
    rw [repeatWhile, Eval.bind_apply, htest]
    simp only [hv, if_true, Eval.bind_apply, ForClauses.turn, hbody]
  | returns htest hv hbody =>
    rw [repeatWhile, Eval.bind_apply, htest]
    simp only [hv, if_true, Eval.bind_apply, ForClauses.turn, hbody]
    rfl
  | stepStops htest hv hbody hstep =>
    rw [repeatWhile, Eval.bind_apply, htest]
    simp only [hv, if_true, Eval.bind_apply, ForClauses.turn, hbody, hstep]
  | turn htest hv hbody hstep _ ih =>
    rw [repeatWhile, Eval.bind_apply, htest]
    simp only [hv, if_true, Eval.bind_apply, ForClauses.turn, hbody, hstep]
    exact ih

theorem exists_loops (clauses : ForClauses) (call : Call H) (turns : Nat) (scope : ScopeId)
    (left : Nat) (m : Machine H) : ∃ r, clauses.Loops call turns scope left m r := by
  induction left generalizing m with
  | zero => exact ⟨_, .exhausted m⟩
  | succ left ih =>
    cases htest : clauses.test call scope m with
    | error stop m₁ => exact ⟨_, .testStops htest⟩
    | ok v m₁ =>
      cases hv : v.truthy with
      | false => exact ⟨_, .ends htest hv⟩
      | true =>
        cases hbody : execStmt call turns scope clauses.body m₁ with
        | error stop m₂ => exact ⟨_, .bodyStops htest hv hbody⟩
        | ok flow m₂ =>
          cases flow with
          | returned value => exact ⟨_, .returns htest hv hbody⟩
          | normal =>
            cases hstep : evalOptional call scope clauses.step m₂ with
            | error stop m₃ => exact ⟨_, .stepStops htest hv hbody hstep⟩
            | ok u m₃ =>
              obtain ⟨r, hrest⟩ := ih m₃
              exact ⟨r, .turn htest hv hbody hstep hrest⟩

/-- The clauses always have a run. -/
theorem exists_runs (clauses : ForClauses) (call : Call H) (turns : Nat) (scope : ScopeId)
    (m : Machine H) : ∃ r, clauses.Runs call turns scope m r := by
  have hscope : Machine.newScope (some scope) m =
    .ok m.scopes.next { m with scopes := m.scopes.push (some scope) } := rfl
  cases hinit : execAll call turns m.scopes.next clauses.init.toList
      { m with scopes := m.scopes.push (some scope) } with
  | error stop m₁ => exact ⟨_, .initStops hscope hinit⟩
  | ok flow m₁ =>
    cases flow with
    | returned value => exact ⟨_, .initReturns hscope hinit⟩
    | normal =>
      obtain ⟨r, hloop⟩ := clauses.exists_loops call turns m.scopes.next turns m₁
      exact ⟨r, .loop hscope hinit hloop⟩

/-- **The clauses have one run only**, which the interpreter makes. -/
theorem Runs.exec_eq (h : clauses.Runs call turns scope m r) :
    clauses.exec call turns scope m = r := by
  cases h with
  | initStops hscope hinit =>
    rw [exec, Eval.bind_apply, hscope]
    simp only [Eval.bind_apply, hinit]
  | initReturns hscope hinit =>
    rw [exec, Eval.bind_apply, hscope]
    simp only [Eval.bind_apply, hinit]
    rfl
  | loop hscope hinit hloop =>
    rw [exec, Eval.bind_apply, hscope]
    simp only [Eval.bind_apply, hinit]
    exact hloop.repeatWhile_eq

end ForClauses

/-! ## Reading the clauses -/

namespace Parser

variable {α α' β β' : Type}

/-- When the first parser gives a value, the second one gives a value that is related to it, in the
same state. -/
def Mirrors (R : α → β → Prop) (p : Parser α) (q : Parser β) : Prop :=
  ∀ s a s', p s = .ok a s' → ∃ b, q s = .ok b s' ∧ R a b

namespace Mirrors

protected theorem refl (p : Parser α) : Mirrors (· = ·) p p := fun _ a _ h => ⟨a, h, rfl⟩

theorem bind {R : α → β → Prop} {S : α' → β' → Prop} {p : Parser α} {q : Parser β}
    {f : α → Parser α'} {g : β → Parser β'} (hp : Mirrors R p q)
    (hf : ∀ a b, R a b → Mirrors S (f a) (g b)) : Mirrors S (p >>= f) (q >>= g) := by
  intro s a' s' h
  rw [bind_apply] at h
  cases hs : p s with
  | error fault s₁ => rw [hs] at h; nomatch h
  | ok a s₁ =>
    rw [hs] at h
    obtain ⟨b, hq, hab⟩ := hp s a s₁ hs
    obtain ⟨b', hg, hab'⟩ := hf a b hab s₁ a' s' h
    refine ⟨b', ?_, hab'⟩
    rw [bind_apply, hq]
    exact hg

/-- Both do the same first. -/
theorem after {S : α' → β' → Prop} {p : Parser α} {f : α → Parser α'} {g : α → Parser β'}
    (hf : ∀ a, Mirrors S (f a) (g a)) : Mirrors S (p >>= f) (p >>= g) :=
  (Mirrors.refl p).bind fun a _ h => h ▸ hf a

end Mirrors

theorem mirrors_forCondition (expr : Parser Expr) :
    Mirrors (fun e cond => ∃ place, e = cond.getD (.literal place (.bool true)))
      (forCondition expr) (unlessNext (.symbol .semicolon) expr) := by
  refine .after fun missing => ?_
  cases missing with
  | true =>
    intro s e s' h
    injection h with he hs
    exact ⟨none, congrArg _ hs, s.here, he.symm⟩
  | false =>
    intro s e s' h
    refine ⟨some e, ?_, s.here, rfl⟩
    show (some <$> expr) s = .ok (some e) s'
    rw [map_eq_bind, bind_apply, show expr s = .ok e s' from h]
    rfl

/-- **A `for` loop is the block of its clauses.** -/
theorem mirrors_forStatement (expr : Parser Expr) (statement : Parser Stmt) (start : Nat) :
    Mirrors (fun tree clauses => ∃ span place, tree = ForClauses.tree clauses span place)
      (forStatement expr statement start) (forClauses expr statement) := by
  refine .after fun _ => .after fun init => (mirrors_forCondition expr).bind fun e cond hcond => ?_
  refine .after fun _ => .after fun step => .after fun _ => .after fun body => ?_
  obtain ⟨place, rfl⟩ := hcond
  intro s tree s' h
  injection h with htree hs
  exact ⟨⟨init, cond, step, body⟩, congrArg _ hs, ⟨start, s.lastStop⟩, place, htree.symm⟩

theorem forStatement_of_nextIs {n : Nat} {before after : State} {tree : Stmt}
    (hword : before.nextIs (.keyword .forWord) = true)
    (h : statement (n + 1) before = .ok tree after) :
    ∃ start, forStatement (expression (n + 1)) (statement n) start before.advance =
      .ok tree after := by
  rw [State.nextIs] at hword
  rw [statement, statementOf] at h
  split at hword
  · next word rest hrest =>
    have hfor : word.kind = .keyword .forWord := of_decide_eq_true hword
    rw [hrest] at h
    simp only [hfor] at h
    exact ⟨word.span.start, h⟩
  · cases hword

theorem yields_forClauses {statement : Parser Stmt} (h : Yields statement Stmt.Plain)
    (expr : Parser Expr) : Yields (forClauses expr statement) fun clauses => clauses.body.Plain :=
  .after fun _ => .after fun _ => .after fun _ => .after fun _ => .after fun _ => .after fun _ =>
    h.bind fun _ hbody => .pure hbody

end Parser

/-! ## Machines that cannot be told apart -/

variable {H : Type}

/-- What can be done with a machine. -/
inductive Use (H : Type) where
  /-- a step of a session -/
  | session (step : Session.Step H)
  /-- statements are run in a scope -/
  | run (fuel : Nat) (scope : ScopeId) (body : List Stmt)
  /-- a value is given a name -/
  | bind (scope : ScopeId) (name : String) (value : Value H)

namespace Use

/-- The use refers to no scope from the number `n` on. -/
def Within (n : Nat) : Use H → Prop
  | .session _ => True
  | .run _ scope _ => scope < n
  | .bind scope _ value => scope < n ∧ value.Within n

variable [Host H]

/-- Uses a machine. To run statements in a scope is to run them as a program with that scope as the
global one. -/
def take : Use H → Machine H → Option Outcome × Machine H
  | .session step, m => step.take m
  | .run fuel scope body, m =>
    let (outcome, after) := Session.runWith fuel body { m with globals := scope }
    (some outcome, { after with globals := m.globals })
  | .bind scope name value, m => (none, { m with scopes := m.scopes.define scope name value })

/-- The outcomes of uses one after the other. -/
def outcomes : List (Use H) → Machine H → List (Option Outcome)
  | [], _ => []
  | use :: uses, m => (use.take m).1 :: outcomes uses (use.take m).2

end Use

section

variable [Host H]

/-- The machines have written the same, and whatever is done with them in terms of the first `n`
scopes has the same outcomes. -/
structure Machine.Indistinguishable (n : Nat) (m m' : Machine H) : Prop where
  sink : m.sink = m'.sink
  outcomes : ∀ uses : List (Use H), (∀ use ∈ uses, use.Within n) →
    Use.outcomes uses m = Use.outcomes uses m'

/-- Both runs ended in the same way, with machines that cannot be told apart by what was there when
there were `n` scopes. If they returned, this is also so when the value that they returned is given
a name. -/
inductive SameEnd (n : Nat) : EStateM.Result Stop (Machine H) (Flow H) →
    EStateM.Result Stop (Machine H) (Flow H) → Prop where
  | normal {m m' : Machine H} (h : m.Indistinguishable n m') :
      SameEnd n (.ok .normal m) (.ok .normal m')
  | returned {v v' : Value H} {m m' : Machine H} (hv : v.Looks v') (h : m.Indistinguishable n m')
      (hbind : ∀ scope < n, ∀ name, Machine.Indistinguishable n
        { m with scopes := m.scopes.define scope name v }
        { m' with scopes := m'.scopes.define scope name v' }) :
      SameEnd n (.ok (.returned v) m) (.ok (.returned v') m')
  | stopped (stop : Stop) {m m' : Machine H} (h : m.Indistinguishable n m') :
      SameEnd n (.error stop m) (.error stop m')

variable [Host.Parametric H] {w : Fold} {n : Nat} {m m' : Machine H}

namespace Machine.Folded

/-- **One use** of machines that differ in blank scopes. -/
theorem use (h : m.Folded w m') (hn : (Fold.same n).Later w) {use : Use H} (huse : use.Within n) :
    (use.take m).1 = (use.take m').1 ∧
      ∃ w', w.Later w' ∧ (use.take m).2.Folded w' (use.take m').2 := by
  cases use with
  | session step => exact h.take step
  | run fuel scope body =>
    have hscope : Machine.Folded w { m with globals := scope } { m' with globals := scope } :=
      { h with globals := hn.home (Fold.home_same huse) }
    obtain ⟨houtcome, w', hlater, hmachine⟩ := hscope.take (.run fuel body)
    exact ⟨houtcome, w', hlater, { hmachine with globals := hlater.home h.globals }⟩
  | bind scope name value =>
    have hvalue := huse.2.folded.later hn
    exact ⟨rfl, w, .refl w, h.define (hn.home (Fold.home_same huse.1)) name hvalue⟩

/-- **Machines that differ in blank scopes cannot be told apart**, if the fold leaves the scopes
alone that they are used by. -/
theorem indistinguishable (h : m.Folded w m') (hn : (Fold.same n).Later w) :
    m.Indistinguishable n m' := by
  refine ⟨h.sink, fun uses huses => ?_⟩
  induction uses generalizing w m m' with
  | nil => rfl
  | cons use uses ih =>
    obtain ⟨huse, huses⟩ := List.forall_mem_cons.mp huses
    obtain ⟨houtcome, w', hlater, hmachine⟩ := h.use hn huse
    rw [Use.outcomes, Use.outcomes, houtcome, ih hmachine (hn.trans hlater) huses]

end Machine.Folded

theorem sameEnd_of_agree {r r' : EStateM.Result Stop (Machine H) (Flow H)}
    (h : Machine.folding.Agree (· = ·) Machine.folding.FlowAgrees (Fold.same n) r r') :
    SameEnd n r r' := by
  cases h with
  | error hw hstop hm =>
    obtain rfl := Stop.eq_of_alike hstop
    exact .stopped _ (hm.indistinguishable hw)
  | ok hw hflow hm =>
    cases hflow with
    | normal => exact .normal (hm.indistinguishable hw)
    | returned hv =>
      refine .returned ((Value.likeness_folded _).looks hv) (hm.indistinguishable hw) ?_
      intro scope hscope name
      exact (hm.define (hw.home (Fold.home_same hscope)) name hv).indistinguishable hw

/-! ## The block and the clauses -/

/-- An action after a blank scope was opened on the first side alone. -/
theorem simulates_pushBlank {Q : Span → Span → Prop} {s s' : ScopeId} (hs : w.Stands s s')
    {f : ScopeId → Eval H (Flow H)} {p : Eval H (Flow H)}
    (hf : ∀ {w'} {inner : ScopeId}, w.Later w' → w'.Stands inner s' →
      Machine.folding.Simulates Q Machine.folding.FlowAgrees w' (f inner) p) :
    Machine.folding.Simulates Q Machine.folding.FlowAgrees w
      (Machine.newScope (some s) >>= f) p := by
  intro m m' hm
  have hlater := w.later_pushBlank hs.lt
  have hstands : (w.pushBlank hs.lt).Stands m.scopes.next s' := by
    rw [Scopes.next, hm.scopes.size]
    exact Fold.stands_pushBlank hs
  exact (hf hlater hstands _ _ (hm.pushBlank hs.lt)).earlier hlater

omit [Host.Parametric H] in
theorem execAll_singleton (call : Call H) (turns : Nat) (scope : ScopeId) (s : Stmt) :
    execAll call turns scope [s] = execStmt call turns scope s := by
  funext m
  rw [execAll, Eval.bind_apply]
  cases execStmt call turns scope s m with
  | error stop m₁ => rfl
  | ok flow m₁ => cases flow <;> rfl

omit [Host.Parametric H] in
theorem execAll_append (call : Call H) (turns : Nat) (scope : ScopeId) (body body' : List Stmt) :
    execAll call turns scope (body ++ body') = do
      match ← execAll call turns scope body with
      | .normal => execAll call turns scope body'
      | .returned value => return .returned value := by
  induction body with
  | nil => rfl
  | cons s body ih =>
    funext m
    rw [List.cons_append, execAll, execAll, Eval.bind_apply, Eval.bind_apply, Eval.bind_apply]
    cases execStmt call turns scope s m with
    | error stop m₁ => rfl
    | ok flow m₁ =>
      cases flow with
      | normal =>
        rw [ih]
        exact Eval.bind_apply _ _ m₁
      | returned value => rfl

namespace ForClauses

variable {call : Call H} (hcall : Machine.folding.CallsAgree (· = ·) call call) {s s' : ScopeId}
  (clauses : ForClauses)
include hcall

theorem simulates_test (place : Span) (hs : w.Stands s s') :
    Machine.folding.Simulates (· = ·) Machine.folding.value w
      (evalExpr call s (clauses.cond.getD (.literal place (.bool true))))
      (clauses.test call s') := by
  rw [test]
  cases clauses.cond with
  | some e =>
    have he : Expr.Alike (· = ·) e e := e.alike_self fun _ _ => rfl
    exact Correspondence.simulates_evalExpr hcall he (fun _ _ => trivial) hs
  | none =>
    rw [Option.getD_none, evalExpr]
    exact .pure (.bool true)

/-- In the block that a turn opens nothing is declared. -/
theorem simulates_turn (hbody : clauses.body.binds = false) (span : Span) (turns : Nat)
    (hs : w.Stands s s') :
    Machine.folding.Simulates (· = ·) Machine.folding.FlowAgrees w
      (execStmt call turns s (.block span
        (clauses.body :: (clauses.step.map fun e => Stmt.expr e.span e).toList)))
      (clauses.turn call turns s') := by
  rw [execStmt, turn]
  refine simulates_pushBlank hs fun {w₁ inner} _ hinner => ?_
  have halike : Stmt.Alike (· = ·) (· = ·) clauses.body clauses.body :=
    clauses.body.alike_self (fun _ _ => rfl) fun _ _ => rfl
  have hhome : clauses.body.binds = true → w₁.Home inner s' :=
    fun h => absurd (hbody.symm.trans h) Bool.false_ne_true
  rw [execAll]
  refine (Correspondence.simulates_execStmt turns halike (fun _ _ => trivial) hcall hinner
    hhome).bind fun w₂ hw₂ flow flow' hflow => ?_
  cases hflow with
  | returned hv => exact .pure (.returned hv)
  | normal =>
    cases clauses.step with
    | none => exact .pure .normal
    | some e =>
      show Machine.folding.Simulates _ _ _ (execAll call turns inner [.expr e.span e]) _
      rw [execAll_singleton, execStmt]
      have he : Expr.Alike (· = ·) e e := e.alike_self fun _ _ => rfl
      exact (Correspondence.simulates_evalExpr hcall he (fun _ _ => trivial)
        (hw₂.stands hinner)).bind fun _ _ _ _ _ => .pure .normal

/-- **The block of a `for` loop does what its clauses say**, if its body declares nothing. -/
theorem simulates_tree (hbody : clauses.body.binds = false) (span place : Span) (turns : Nat)
    (hs : w.Stands s s') :
    Machine.folding.Simulates (· = ·) Machine.folding.FlowAgrees w
      (execStmt call turns s (clauses.tree span place)) (clauses.exec call turns s') := by
  rw [tree, Parser.forLoop, execStmt, exec]
  refine (Correspondence.Simulates.newScope hs).bind fun w₁ _ inner inner' hinner => ?_
  rw [execAll_append, execAll_singleton, execStmt]
  have hinit : List.Forall₂ (Stmt.Alike (· = ·) (· = ·)) clauses.init.toList clauses.init.toList :=
    List.forall₂_same.mpr fun s _ => s.alike_self (fun _ _ => rfl) fun _ _ => rfl
  refine (Correspondence.simulates_execAll hcall turns hinit (fun _ _ => trivial) hinner).bind
    fun w₂ hw₂ flow flow' hflow => ?_
  cases hflow with
  | returned hv => exact .pure (.returned hv)
  | normal =>
    have hstands : w₂.Stands inner inner' := hw₂.stands hinner.toStands
    exact Correspondence.simulates_repeatWhile
      (fun hw => clauses.simulates_test hcall place (hw.stands hstands))
      (fun hw => clauses.simulates_turn hcall hbody span turns (hw.stands hstands)) turns

end ForClauses

end

/-- **A `for` loop means what its clauses say.** For every `for` loop that the parser reads there
are clauses that it reads from the same words. On any machine and in any scope, with any fuel, the
clauses have a run, and the tree that the parser gives does the same: both write the same and end in
the same way, with the same fault at the same place or with values that look the same, and nothing
that is done later can tell which of them it was. The body adds no name to any scope that is there,
so that it cannot take a name away from the condition or the step. -/
theorem for_runs_clauses {H : Type} [Host H] [Host.Parametric H] (n : Nat)
    (before after : Parser.State) (tree : Stmt) (hword : before.nextIs (.keyword .forWord) = true)
    (h : Parser.statement (n + 1) before = .ok tree after) :
    ∃ clauses : ForClauses,
      Parser.forClauses (Parser.expression (n + 1)) (Parser.statement n) before.advance =
        .ok clauses after ∧
      ∀ (m : Machine H) (scope : ScopeId) (fuel turns : Nat), m.WellFormed →
        scope < m.scopes.cells.size →
        (∃ r, clauses.Runs (callWith fuel) turns scope m r) ∧
        (∀ r, clauses.Runs (callWith fuel) turns scope m r →
          SameEnd m.scopes.cells.size (execStmt (callWith fuel) turns scope tree m) r) ∧
        (Machine.after (execStmt (callWith fuel) turns scope tree m)).WellFormed ∧
        m.KeepsNames (Machine.after (execStmt (callWith fuel) turns scope clauses.body m)) := by
  obtain ⟨start, hfor⟩ := Parser.forStatement_of_nextIs hword h
  obtain ⟨clauses, hclauses, span, place, rfl⟩ := Parser.mirrors_forStatement _ _ _ _ _ _ hfor
  have hbody : clauses.body.binds = false :=
    (Parser.yields_forClauses (Parser.yields_statement_declaration n).1 _ _ _ _ hclauses).binds
  refine ⟨clauses, hclauses, fun m scope fuel turns hm hscope =>
    ⟨clauses.exists_runs _ _ _ m, fun r hruns => ?_, hm.execStmt fuel turns hscope _,
      (m.reaches_execStmt fuel turns scope hbody).keepsNames⟩⟩
  have hcall : Machine.folding.CallsAgree (· = ·) (callWith fuel : Call H) (callWith fuel) :=
    Correspondence.callsAgree_callWith (fun _ _ h => h) fuel
  have hsimulates := clauses.simulates_tree hcall hbody span place turns
    (Fold.home_same hscope).toStands
  have hend := sameEnd_of_agree (hsimulates m m hm.folded)
  rwa [hruns.exec_eq] at hend

/-- A loop whose body declares the name of the loop variable again. -/
theorem for_runs_clauses_shadowing :
    let m : Machine Empty := Session.afterSteps [] (.start ⟨fun _ => 0, 0⟩ (.empty none))
    let before := Parser.State.start
      (scan "for (var i = clock; i; i = nil) \x7b var i; \x7d").tokens
    ∃ tree after clauses r, Parser.statement 9 before = .ok tree after ∧
      Parser.forClauses (Parser.expression 9) (Parser.statement 8) before.advance =
        .ok clauses after ∧
      clauses.Runs (callWith 2) 2 m.globals m r ∧
      SameEnd m.scopes.cells.size (execStmt (callWith 2) 2 m.globals tree m) r := by
  have hword : (Parser.State.start (scan
      "for (var i = clock; i; i = nil) \x7b var i; \x7d").tokens).nextIs (.keyword .forWord) =
        true := by with_unfolding_all rfl
  have htree : Parser.statement 9 (Parser.State.start (scan
      "for (var i = clock; i; i = nil) \x7b var i; \x7d").tokens) =
      .ok (.block ⟨0, 42⟩ [.var ⟨5, 19⟩ "i" (some (.ident ⟨13, 18⟩ "clock")),
        .whileDo ⟨0, 42⟩ (.ident ⟨20, 21⟩ "i") (.block ⟨0, 42⟩ [
          .block ⟨32, 42⟩ [.var ⟨34, 40⟩ "i" none],
          .expr ⟨23, 30⟩ (.assign ⟨23, 30⟩ "i" (.literal ⟨27, 30⟩ .nil))])])
        ⟨[], ⟨42, 42⟩, 42, 0, []⟩ := by with_unfolding_all rfl
  obtain ⟨clauses, hclauses, hruns⟩ := for_runs_clauses (H := Empty) 8 _ _ _ hword htree
  have hm := Machine.wellFormed_afterSteps (H := Empty) [] ⟨fun _ => 0, 0⟩ (.empty none)
  obtain ⟨⟨r, hr⟩, hend, -, -⟩ := hruns _ _ 2 2 hm hm.globals
  exact ⟨_, _, clauses, r, htree, hclauses, hr, hend r hr⟩

end BlockScript
