import BlockScript.Eval
import BlockScript.Proofs.Places
import BlockScript.Proofs.Source

/-!
# Returns stay inside of functions

The parser counts the functions around each word and reports a `return` that none of them encloses.
So in a program that is accepted every `return` stands in the body of a function, and a statement of
the program never ends by returning: a call takes up what the body of its function returns, and
nothing else in the program does.

The two halves meet in `Stmt.returns`. The grammar has no tree with a `return` outside of all
functions (`returns_of_derives`), and a statement without one ends normally or stops
(`quiet_of_returns`). What is in the scopes of the machine does not matter to this, since a function
that is called has its own statements, and its call is an expression.

## Main definitions

* `Stmt.returns` — whether a statement has a `return` that is not in a function
* `Quiet` — no `return` gets out of a statement
* `Completes` — statements are run one after the other, each to its normal end

## Main results

* `exists_completes` — how far a sequence of statements gets
* `return_stays_inside` — no `return` gets out of a program that is accepted
-/

namespace BlockScript

/-! ## Statements with a `return` -/

mutual

/-- Whether a statement has a `return` that is not in the body of a function. -/
def Stmt.returns : Stmt → Bool
  | .ret .. => true
  | .block _ body => Stmt.listReturns body
  | .ifThen _ _ yes => yes.returns
  | .ifElse _ _ yes no => yes.returns || no.returns
  | .whileDo _ _ body => body.returns
  | .func .. | .expr .. | .print .. | .var .. => false

/-- Whether one of the statements has a `return` that is not in the body of a function. -/
def Stmt.listReturns : List Stmt → Bool
  | [] => false
  | s :: ss => s.returns || Stmt.listReturns ss

end

@[simp] theorem Stmt.listReturns_eq_false {body : List Stmt} :
    Stmt.listReturns body = false ↔ ∀ s ∈ body, s.returns = false := by
  induction body with
  | nil => simp [Stmt.listReturns]
  | cons s body ih => rw [Stmt.listReturns, Bool.or_eq_false_iff, ih, List.forall_mem_cons]

theorem Grammar.returns_forTree {words : List Token} {span : Span} {init : Option Stmt}
    {cond : Option Expr} {semicolon : Token} {step : Option Expr} {body : Stmt}
    (hinit : Grammar.ForInitial words init) (hbody : body.returns = false) :
    (Grammar.forTree span init cond semicolon step body).returns = false := by
  have hfirst : ∀ s ∈ init.toList, s.returns = false := by
    cases hinit with
    | none => exact fun _ h => absurd h List.not_mem_nil
    | var h => cases h; exact List.forall_mem_singleton.mpr rfl
    | expr h => cases h; exact List.forall_mem_singleton.mpr rfl
  have hlast : ∀ s ∈ (step.map fun e => Stmt.expr e.span e).toList, s.returns = false := by
    cases step with
    | none => exact fun _ h => absurd h List.not_mem_nil
    | some e => exact List.forall_mem_singleton.mpr rfl
  have hloop : ∀ s ∈ body :: (step.map fun e => Stmt.expr e.span e).toList, s.returns = false :=
    List.forall_mem_cons.mpr ⟨hbody, hlast⟩
  rw [Grammar.forTree, Stmt.returns, Stmt.listReturns_eq_false, List.forall_mem_append]
  refine ⟨hfirst, List.forall_mem_singleton.mpr ?_⟩
  rw [Stmt.returns, Stmt.returns, Stmt.listReturns_eq_false]
  exact hloop

/-- A `return` that no function encloses is not in the grammar. -/
theorem Grammar.returns_of_derives {attaches : Bool → Prop} {symbol : Grammar.StmtSymbol}
    {inside : Bool} {words : List Token} {tree : Stmt}
    (h : Grammar.Statement attaches symbol inside words tree) (hinside : inside = false) :
    tree.returns = false := by
  induction h with
  | funcDecl => rfl
  | varDecl h => cases h; rfl
  | statement _ ih => exact ih hinside
  | exprStmt h => cases h; rfl
  | forStmt _ _ hinit _ _ _ _ _ ih => exact returns_forTree hinit (ih hinside)
  | ifThen _ _ _ _ _ ih => exact ih hinside
  | ifElse _ _ _ _ _ _ _ _ ihyes ihno =>
    rw [Stmt.returns, ihyes hinside, ihno hinside, Bool.or_false]
  | printStmt => rfl
  | returnStmt => exact nomatch hinside
  | whileStmt _ _ _ _ _ ih => exact ih hinside
  | block _ _ _ ih =>
    rw [Stmt.returns, Stmt.listReturns_eq_false, List.forall_mem_map]
    exact fun d hd => ih d hd hinside

theorem returns_of_parse {source : String} {program : Program} (h : parse source = .ok program) :
    ∀ s ∈ program, s.returns = false := by
  obtain ⟨parts, hparts, -, rfl⟩ := (parse_eq_ok_iff.mp h).2
  exact List.forall_mem_map.mpr fun d hd => Grammar.returns_of_derives (hparts d hd) rfl

/-! ## Actions that do not return -/

variable {H : Type}

/-- No `return` gets out of the action. -/
def Quiet (p : Eval H (Flow H)) : Prop :=
  ∀ (m : Machine H) (flow : Flow H) (m' : Machine H), p m = .ok flow m' → flow = .normal

namespace Quiet

protected theorem pure : Quiet (pure .normal : Eval H (Flow H)) := by
  intro m flow m' h
  injection h with hflow _
  exact hflow.symm

theorem exhausted : Quiet (Machine.exhausted : Eval H (Flow H)) := fun _ _ _ h => nomatch h

theorem bind {α : Type} {p : Eval H α} {f : α → Eval H (Flow H)} (hf : ∀ a, Quiet (f a)) :
    Quiet (p >>= f) := by
  intro m flow m' h
  rw [Eval.bind_apply] at h
  cases hp : p m with
  | error stop m₁ => rw [hp] at h; nomatch h
  | ok a m₁ => rw [hp] at h; exact hf a m₁ flow m' h

/-- What comes after a quiet action only needs to be quiet if the action ended normally. -/
theorem bind_flow {p : Eval H (Flow H)} {f : Flow H → Eval H (Flow H)} (hp : Quiet p)
    (hf : Quiet (f .normal)) : Quiet (p >>= f) := by
  intro m flow m' h
  rw [Eval.bind_apply] at h
  cases hr : p m with
  | error stop m₁ => rw [hr] at h; nomatch h
  | ok first m₁ =>
    rw [hr] at h
    obtain rfl := hp m first m₁ hr
    exact hf m₁ flow m' h

theorem repeatWhile {cond : Eval H (Value H)} {body : Eval H (Flow H)} (hbody : Quiet body)
    (turns : Nat) : Quiet (repeatWhile cond body turns) := by
  induction turns with
  | zero => exact exhausted
  | succ turns ih =>
    rw [BlockScript.repeatWhile]
    refine bind fun v => ?_
    split
    · exact hbody.bind_flow ih
    · exact .pure

variable [Host H] {call : Call H} {turns : Nat} {scope : ScopeId}

theorem execAll {body : List Stmt} (h : ∀ s ∈ body, Quiet (execStmt call turns scope s)) :
    Quiet (execAll call turns scope body) := by
  induction body with
  | nil => exact .pure
  | cons s body ih =>
    obtain ⟨hs, hbody⟩ := List.forall_mem_cons.mp h
    rw [BlockScript.execAll]
    exact hs.bind_flow (ih hbody)

end Quiet

variable [Host H]

/-- **A statement without a `return`** outside of functions ends normally, if it does not stop. -/
theorem quiet_of_returns {s : Stmt} (h : s.returns = false) (call : Call H) (turns : Nat)
    (scope : ScopeId) : Quiet (execStmt call turns scope s) := by
  induction s using Stmt.ind generalizing scope with
  | block span body ih =>
    rw [Stmt.returns, Stmt.listReturns_eq_false] at h
    rw [execStmt]
    exact .bind fun inner => .execAll fun s hs => ih s hs (h s hs) inner
  | expr span value =>
    rw [execStmt]
    exact .bind fun _ => .pure
  | func span name params body _ =>
    rw [execStmt]
    exact .bind fun _ => .bind fun _ => .pure
  | ifThen span cond yes ih =>
    rw [execStmt]
    refine .bind fun v => ?_
    split
    · exact ih h scope
    · exact .pure
  | ifElse span cond yes no ihyes ihno =>
    rw [Stmt.returns, Bool.or_eq_false_iff] at h
    rw [execStmt]
    refine .bind fun v => ?_
    split
    · exact ihyes h.1 scope
    · exact ihno h.2 scope
  | print span value =>
    rw [execStmt]
    exact .bind fun _ => .bind fun _ => .pure
  | ret span value => nomatch h
  | var span name value =>
    rw [execStmt]
    exact .bind fun _ => .bind fun _ => .pure
  | whileDo span cond body ih =>
    rw [execStmt]
    exact .repeatWhile (ih h scope) turns

/-! ## How far a sequence of statements gets -/

/-- The statements are run one after the other, each to its normal end. -/
inductive Completes (call : Call H) (turns : Nat) (scope : ScopeId) :
    List Stmt → Machine H → Machine H → Prop where
  | nil (m : Machine H) : Completes call turns scope [] m m
  | cons {s : Stmt} {body : List Stmt} {m m₁ m₂ : Machine H}
      (hs : execStmt call turns scope s m = .ok .normal m₁)
      (hbody : Completes call turns scope body m₁ m₂) :
      Completes call turns scope (s :: body) m m₂

theorem execAll_cons_of_normal {call : Call H} {turns : Nat} {scope : ScopeId} {s : Stmt}
    {m m₁ : Machine H} (h : execStmt call turns scope s m = .ok .normal m₁) (body : List Stmt) :
    execAll call turns scope (s :: body) m = execAll call turns scope body m₁ := by
  rw [execAll, Eval.bind_apply, h]

theorem execAll_cons_of_not_normal {call : Call H} {turns : Nat} {scope : ScopeId} {s : Stmt}
    {m : Machine H} (h : ∀ m₁, execStmt call turns scope s m ≠ .ok .normal m₁)
    (body : List Stmt) :
    execAll call turns scope (s :: body) m = execStmt call turns scope s m := by
  rw [execAll, Eval.bind_apply]
  cases hs : execStmt call turns scope s m with
  | error stop m₁ => rfl
  | ok flow m₁ =>
    cases flow with
    | normal => exact absurd hs (h m₁)
    | returned value => rfl

/-- **A sequence of statements** gets to its end, or up to the first statement that does not end
normally. -/
theorem exists_completes (call : Call H) (turns : Nat) (scope : ScopeId) (body : List Stmt)
    (m : Machine H) :
    ∃ done rest before, body = done ++ rest ∧ Completes call turns scope done m before ∧
      ((rest = [] ∧ execAll call turns scope body m = .ok .normal before) ∨
        ∃ s others, rest = s :: others ∧
          (∀ after, execStmt call turns scope s before ≠ .ok .normal after) ∧
          execAll call turns scope body m = execStmt call turns scope s before) := by
  induction body generalizing m with
  | nil => exact ⟨[], [], m, rfl, .nil m, .inl ⟨rfl, by rw [execAll]; rfl⟩⟩
  | cons s body ih =>
    by_cases hnormal : ∃ m₁, execStmt call turns scope s m = .ok .normal m₁
    · obtain ⟨m₁, hs⟩ := hnormal
      obtain ⟨done, rest, before, rfl, hdone, hrest⟩ := ih m₁
      rw [execAll_cons_of_normal hs]
      exact ⟨s :: done, rest, before, rfl, .cons hs hdone, hrest⟩
    · have hs : ∀ m₁, execStmt call turns scope s m ≠ .ok .normal m₁ := not_exists.mp hnormal
      exact ⟨[], s :: body, m, rfl, .nil m,
        .inr ⟨s, body, rfl, hs, execAll_cons_of_not_normal hs body⟩⟩

theorem completes_of_normal {call : Call H} {turns : Nat} {scope : ScopeId} {body : List Stmt}
    {m m₁ : Machine H} (h : execAll call turns scope body m = .ok .normal m₁) :
    Completes call turns scope body m m₁ := by
  obtain ⟨done, rest, before, hbody, hdone, hrest⟩ := exists_completes call turns scope body m
  rcases hrest with ⟨rfl, hrun⟩ | ⟨s, others, -, hnormal, hrun⟩
  · obtain rfl : before = m₁ := by simpa using hrun.symm.trans h
    rw [hbody, List.append_nil]
    exact hdone
  · exact absurd (hrun.symm.trans h) (hnormal m₁)

theorem Completes.execAll_append {call : Call H} {turns : Nat} {scope : ScopeId} {done : List Stmt}
    {m m₁ : Machine H} (h : Completes call turns scope done m m₁) (rest : List Stmt) :
    execAll call turns scope (done ++ rest) m = execAll call turns scope rest m₁ := by
  induction h with
  | nil m => rfl
  | cons hs _ ih => rw [List.cons_append, execAll_cons_of_normal hs, ih]

/-- How a program ends that is stopped. -/
def Stop.ending : Stop → Machine.Ending
  | .failed fault => .failed fault
  | .exhausted => .exhausted

/-- **No `return` gets out of a program that is accepted.** All its `return`s are in the bodies of
functions. So whatever the machine, none of its statements ends by returning, and a run of the
program takes all of its statements to their normal end, one after the other, unless one of them
stops it: with a fault, or because the fuel does not last. -/
theorem return_stays_inside {H : Type} [Host H] (source : String) (program : Program)
    (h : parse source = .ok program) :
    (∀ s ∈ program, s.returns = false) ∧
      ∀ (fuel : Nat) (m : Machine H),
        (∀ s ∈ program, ∀ (scope : ScopeId) (before : Machine H) (flow : Flow H)
          (after : Machine H),
            execStmt (callWith fuel) fuel scope s before = .ok flow after → flow = .normal) ∧
        let run := m.execute fuel program
        (run.1 = .finished ∧ Completes (callWith fuel) fuel m.globals program m run.2) ∨
          ∃ done s rest before stop, program = done ++ s :: rest ∧
            Completes (callWith fuel) fuel m.globals done m before ∧
            execStmt (callWith fuel) fuel m.globals s before = .error stop run.2 ∧
            run.1 = stop.ending := by
  have hreturns := returns_of_parse h
  refine ⟨hreturns, fun fuel m => ⟨fun s hs scope before flow after hrun => ?_, ?_⟩⟩
  · exact quiet_of_returns (hreturns s hs) _ _ _ before flow after hrun
  · obtain ⟨done, rest, before, hprogram, hdone, hrest⟩ :=
      exists_completes (callWith fuel) fuel m.globals program m
    rw [Machine.execute]
    rcases hrest with ⟨rfl, hrun⟩ | ⟨s, others, rfl, hnormal, hrun⟩
    · rw [hrun]
      rw [List.append_nil] at hprogram
      exact .inl ⟨rfl, hprogram ▸ hdone⟩
    · right
      rw [hrun]
      cases hs : execStmt (callWith fuel) fuel m.globals s before with
      | ok flow after =>
        have hmem : s ∈ program := by simp [hprogram]
        have hflow := quiet_of_returns (hreturns s hmem) _ _ _ before flow after hs
        exact absurd (hflow ▸ hs) (hnormal after)
      | error stop after =>
        refine ⟨done, s, others, before, stop, ?_⟩
        cases stop with
        | failed fault => exact ⟨hprogram, hdone, hs, rfl⟩
        | exhausted => exact ⟨hprogram, hdone, hs, rfl⟩

/-- A function that returns from a loop, and a call of it after which the program goes on. -/
theorem return_stays_inside_loop :
    let body : List Stmt := [.whileDo ⟨11, 28⟩ (.ident ⟨18, 19⟩ "f") (.ret ⟨21, 28⟩ none)]
    let program : Program :=
      [.func ⟨0, 30⟩ "f" [] body, .expr ⟨31, 35⟩ (.call ⟨31, 34⟩ ⟨33, 34⟩ (.ident ⟨31, 32⟩ "f") []),
        .print ⟨36, 44⟩ (.ident ⟨42, 43⟩ "f")]
    let m : Machine Empty := .start ⟨fun _ => 0, 0⟩ (.empty none)
    parse "func f() \x7b while (f) return; \x7d f(); print f;" = .ok program ∧
      Stmt.listReturns body = true ∧ (∀ s ∈ program, s.returns = false) ∧
      Completes (callWith 2) 2 m.globals program m (m.execute 2 program).2 := by
  have h : parse "func f() \x7b while (f) return; \x7d f(); print f;" =
      .ok [.func ⟨0, 30⟩ "f" [] [.whileDo ⟨11, 28⟩ (.ident ⟨18, 19⟩ "f") (.ret ⟨21, 28⟩ none)],
        .expr ⟨31, 35⟩ (.call ⟨31, 34⟩ ⟨33, 34⟩ (.ident ⟨31, 32⟩ "f") []),
        .print ⟨36, 44⟩ (.ident ⟨42, 43⟩ "f")] := by with_unfolding_all rfl
  intro body program m
  obtain ⟨hreturns, hrun⟩ := return_stays_inside (H := Empty) _ program h
  refine ⟨h, rfl, hreturns, ?_⟩
  have hfinished : (m.execute 2 program).1 = .finished := by decide +kernel
  rcases (hrun 2 m).2 with ⟨-, hcompletes⟩ | ⟨_, _, _, _, stop, -, -, -, hstop⟩
  · exact hcompletes
  · rw [hfinished] at hstop
    cases stop <;> cases hstop

end BlockScript
