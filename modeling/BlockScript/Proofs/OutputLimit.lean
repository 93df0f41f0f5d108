import BlockScript.Proofs.Changes
import BlockScript.Proofs.Lines
import BlockScript.Proofs.Renaming

/-!
# A limit cuts the output and nothing else

Writing is the only thing that an output limit can disturb. So a run with a limit does what the same
run does without one, up to the first line that there is no room for. There it stops: it has filled
the output up to the limit, it reports the `print` of that line, and everything else in the machine
is as it was before the line.

`Writes` says this of an action and the lines that it writes without a limit. Almost all actions of
the machine leave the output alone (`Silent`), so the one rule that matters is the one for
sequencing: what comes next has the room that the lines before have left.

## Main definitions

* `Machine.withLimit` — a machine with another output limit
* `Silent` — an action leaves the output alone
* `Writes` — an action writes lines, and a limit stops it where they do not fit

## Main results

* `Writes.bind` — sequencing
* `writes_execAll`, `callsWrite_callWith` — evaluation writes its lines
* `limit_cuts_output` — the run of a program with a limit
-/

namespace BlockScript

variable {H α β : Type}

/-! ## Limits -/

/-- The machine with another output limit. -/
def Machine.withLimit (limit : Option Nat) (m : Machine H) : Machine H :=
  { m with sink := { m.sink with limit } }

/-- The same result, with another limit. -/
def limited (limit : Nat) : EStateM.Result Stop (Machine H) α → EStateM.Result Stop (Machine H) α
  | .ok a m => .ok a (m.withLimit (some limit))
  | .error stop m => .error stop (m.withLimit (some limit))

/-- What comes of an action under a limit: the same result if no line is refused, and otherwise the
fault of the line, for which the output was filled. -/
def cut (limit : Nat) (refused : Option (Printed H)) (r : EStateM.Result Stop (Machine H) α) :
    EStateM.Result Stop (Machine H) α :=
  match refused with
  | none => limited limit r
  | some line =>
    let m := line.machine.withLimit (some limit)
    .error (.failed ⟨.writeRefused "stdout", line.span⟩) { m with sink := m.sink.write line.text }

/-! ## Actions that leave the output alone -/

/-- The action leaves the output alone, and it does not matter to it. -/
structure Silent (p : Eval H α) : Prop where
  sink_eq : ∀ m, (Machine.after (p m)).sink = m.sink
  withLimit : ∀ (m : Machine H) (limit : Nat), p (m.withLimit (some limit)) = limited limit (p m)

namespace Silent

protected theorem pure (a : α) : Silent (pure a : Eval H α) := ⟨fun _ => rfl, fun _ _ => rfl⟩

theorem fail (fault : Fault) (span : Span) : Silent (Machine.fail fault span : Eval H α) :=
  ⟨fun _ => rfl, fun _ _ => rfl⟩

theorem exhausted : Silent (Machine.exhausted : Eval H α) := ⟨fun _ => rfl, fun _ _ => rfl⟩

theorem newScope (parent : Option ScopeId) : Silent (Machine.newScope parent : Eval H ScopeId) :=
  ⟨fun _ => rfl, fun _ _ => rfl⟩

theorem define (scope : ScopeId) (name : String) (value : Value H) :
    Silent (Machine.define scope name value) := ⟨fun _ => rfl, fun _ _ => rfl⟩

theorem makeFunction (closure : Closure) : Silent (Machine.makeFunction closure : Eval H _) :=
  ⟨fun _ => rfl, fun _ _ => rfl⟩

theorem readClock : Silent (Machine.readClock : Eval H _) := ⟨fun _ => rfl, fun _ _ => rfl⟩

theorem lookup (scope : ScopeId) (name : String) (span : Span) :
    Silent (Machine.lookup scope name span : Eval H _) := by
  refine ⟨fun m => ?_, fun m limit => ?_⟩
  · rw [Machine.lookup]
    split <;> rfl
  · rw [Machine.lookup, Machine.lookup, Machine.withLimit]
    cases m.scopes.get? scope name <;> rfl

theorem assign (scope : ScopeId) (name : String) (value : Value H) (span : Span) :
    Silent (Machine.assign scope name value span) := by
  refine ⟨fun m => ?_, fun m limit => ?_⟩
  · rw [Machine.assign]
    split <;> rfl
  · rw [Machine.assign, Machine.assign, Machine.withLimit]
    cases m.scopes.resolve scope name <;> rfl

theorem orFail (r : Except Fault α) (span : Span) : Silent (orFail r span : Eval H α) := by
  cases r with
  | ok a => exact .pure a
  | error fault => exact .fail fault span

theorem checkCall [Host H] (callee : Value H) (count : Nat) (span : Span) :
    Silent (checkCall callee count span) := by
  rw [BlockScript.checkCall]
  split
  · exact .fail _ span
  · split
    · exact .pure ()
    · exact .fail _ span

theorem bind {p : Eval H α} {f : α → Eval H β} (hp : Silent p) (hf : ∀ a, Silent (f a)) :
    Silent (p >>= f) := by
  refine ⟨fun m => ?_, fun m limit => ?_⟩
  · have hsink := hp.sink_eq m
    rw [Eval.bind_apply]
    cases hr : p m with
    | error stop m₁ => rwa [hr] at hsink
    | ok a m₁ =>
      rw [hr] at hsink
      exact ((hf a).sink_eq m₁).trans hsink
  · rw [Eval.bind_apply, Eval.bind_apply, hp.withLimit]
    cases p m with
    | error stop m₁ => rfl
    | ok a m₁ => exact (hf a).withLimit m₁ limit

theorem bindParams (scope : ScopeId) (params : List String) (args : List (Value H)) :
    Silent (bindParams scope params args) := by
  fun_induction BlockScript.bindParams scope params args with
  | case1 param params arg args ih => exact (define scope param arg).bind fun _ => ih
  | case2 => exact .pure ()

end Silent

/-! ## Actions that write lines -/

/-- The lines are those that the action writes on a machine without a limit, and under a limit it
gets as far as there is room for them. -/
structure Writes (p : Eval H α) (lines : Lines H) : Prop where
  sink_eq : ∀ m : Machine H, m.sink.limit = none →
    (Machine.after (p m)).sink = ⟨m.sink.written ++ Printed.bytes (lines m), none⟩
  follow : ∀ m : Machine H, m.sink.limit = none → Printed.Follow m.sink.written (lines m)
  withLimit : ∀ (m : Machine H) (limit : Nat), m.sink.limit = none → m.sink.written.size ≤ limit →
    p (m.withLimit (some limit)) =
      cut limit (Printed.refused? (limit - m.sink.written.size) (lines m)) (p m)

namespace Writes

variable {p : Eval H α} {f : α → Eval H β} {lines : Lines H} {next : α → Lines H}

theorem of_silent (h : Silent p) : Writes p .nothing where
  sink_eq m hlimit := by
    rw [h.sink_eq, Lines.nothing, Printed.bytes_nil, ByteArray.append_empty, ← hlimit]
  follow _ _ := trivial
  withLimit m limit _ _ := h.withLimit m limit

theorem sink_of_ok (hp : Writes p lines) {m m₁ : Machine H} (hlimit : m.sink.limit = none) {a : α}
    (hr : p m = .ok a m₁) : m₁.sink = ⟨m.sink.written ++ Printed.bytes (lines m), none⟩ := by
  have hsink := hp.sink_eq m hlimit
  rwa [hr] at hsink

/-- **Sequencing.** What comes next has the room that is left. -/
theorem bind (hp : Writes p lines) (hf : ∀ a, Writes (f a) (next a)) :
    Writes (p >>= f) (lines.andThen p next) where
  sink_eq m hlimit := by
    rw [Eval.bind_apply, Lines.andThen, Printed.bytes_append, ← ByteArray.append_assoc]
    cases hr : p m with
    | error stop m₁ =>
      have hsink := hp.sink_eq m hlimit
      rw [hr] at hsink
      simpa using hsink
    | ok a m₁ =>
      have hsink := hp.sink_of_ok hlimit hr
      have hnext := (hf a).sink_eq m₁ (by rw [hsink])
      rwa [hsink] at hnext
  follow m hlimit := by
    rw [Lines.andThen, Printed.follow_append]
    refine ⟨hp.follow m hlimit, ?_⟩
    cases hr : p m with
    | error stop m₁ => exact trivial
    | ok a m₁ =>
      have hsink := hp.sink_of_ok hlimit hr
      have hnext := (hf a).follow m₁ (by rw [hsink])
      rwa [hsink] at hnext
  withLimit m limit hlimit hsize := by
    rw [Eval.bind_apply, Eval.bind_apply, hp.withLimit m limit hlimit hsize, Lines.andThen,
      Printed.refused?_append]
    cases hrefused : Printed.refused? (limit - m.sink.written.size) (lines m) with
    | some line => rfl
    | none =>
      -- All lines of the first action fit, so the limit has not mattered yet.
      have hroom := Printed.refused?_eq_none.mp hrefused
      rw [Option.none_or, cut]
      cases hr : p m with
      | error stop m₁ => rfl
      | ok a m₁ =>
        have hsink := hp.sink_of_ok hlimit hr
        have hwritten : m₁.sink.written.size =
            m.sink.written.size + (Printed.bytes (lines m)).size := by
          rw [hsink, ByteArray.size_append]
        show f a (m₁.withLimit (some limit)) = _
        rw [(hf a).withLimit m₁ limit (by rw [hsink]) (by omega), hwritten, Nat.sub_add_eq]

theorem bind_silent (hp : Writes p lines) (hf : ∀ a, Silent (f a)) : Writes (p >>= f) lines := by
  have h := hp.bind fun a => of_silent (hf a)
  have hlines : lines.andThen p (fun _ => .nothing) = lines := by
    funext m
    rw [Lines.andThen]
    cases p m <;> exact List.append_nil _
  rwa [hlines] at h

theorem silent_bind (hp : Silent p) (hf : ∀ a, Writes (f a) (next a)) :
    Writes (p >>= f) (Lines.nothing.andThen p next) := (of_silent hp).bind hf

/-- A line that is written fits, or it is the one that is refused. -/
theorem write (text : String) (span : Span) :
    Writes (Machine.write text span : Eval H Unit) fun m => [⟨span, text, m⟩] where
  sink_eq m hlimit := by
    have hsink : m.sink.write text = ⟨m.sink.written ++ text.toUTF8, none⟩ := by
      rw [← Sink.written_of_limit hlimit, ← hlimit]
      rfl
    rw [Machine.write]
    simpa [Sink.fits_of_limit hlimit] using hsink
  follow m hlimit := ⟨by rw [← hlimit], trivial⟩
  withLimit m limit hlimit hsize := by
    have htaken : (m.withLimit (some limit)).sink.taken text.toUTF8 =
        min text.toUTF8.size (limit - m.sink.written.size) := rfl
    rw [Machine.write, Machine.write, Sink.fits_of_limit hlimit, Printed.refused?]
    by_cases hroom : text.toUTF8.size ≤ limit - m.sink.written.size
    · rw [Nat.min_eq_left hroom] at htaken
      have hwritten : (m.withLimit (some limit)).sink.write text =
          { m.sink.write text with limit := some limit } := by
        rw [Sink.write, htaken, Sink.write, Sink.taken, hlimit]
        rfl
      simp only [Sink.fits, htaken, decide_true, if_true, hroom, hwritten]
      rfl
    · rw [Nat.min_eq_right (Nat.le_of_not_le hroom)] at htaken
      have hrefused : limit - m.sink.written.size ≠ text.toUTF8.size := by omega
      simp only [Sink.fits, htaken, hrefused, decide_false, Bool.false_eq_true, if_false, hroom]
      rfl

end Writes

/-! ## Evaluation -/

variable [Host H] {call : Call H} {called : CallLines H}

theorem writes_evalArgs {args : List Expr} {scope : ScopeId}
    (h : ∀ e ∈ args, Writes (evalExpr call scope e) (exprLines call called scope e)) :
    Writes (evalArgs call scope args) (argLines call called scope args) := by
  induction args with
  | nil =>
    rw [evalArgs, argLines]
    exact .of_silent (.pure [])
  | cons e args ih =>
    obtain ⟨he, hargs⟩ := List.forall_mem_cons.mp h
    rw [evalArgs, argLines]
    exact he.bind fun v => (ih hargs).bind_silent fun vs => .pure (v :: vs)

/-- The calls write the lines that are said to be called. -/
def CallsWrite (call : Call H) (called : CallLines H) : Prop :=
  ∀ f args span, Writes (call f args span) (called f args span)

theorem writes_evalExpr (hcall : CallsWrite call called) (scope : ScopeId) (e : Expr) :
    Writes (evalExpr call scope e) (exprLines call called scope e) := by
  induction e using Expr.ind with
  | literal span value =>
    rw [evalExpr, exprLines]
    exact .of_silent (.pure _)
  | ident span name =>
    rw [evalExpr, exprLines]
    exact .of_silent (.lookup scope name span)
  | assign span name value ih =>
    rw [evalExpr, exprLines]
    exact ih.bind_silent fun v => (Silent.assign scope name v span).bind fun _ => .pure v
  | unary span op operand ih =>
    rw [evalExpr, exprLines]
    exact ih.bind_silent fun v => .orFail _ span
  | binary span op left right ihl ihr =>
    rw [evalExpr, exprLines]
    exact ihl.bind fun a => ihr.bind_silent fun b => .orFail _ span
  | logical span op left right ihl ihr =>
    rw [evalExpr, exprLines]
    refine ihl.bind fun a => ?_
    split
    · exact .of_silent (.pure a)
    · exact ihr
  | group span inner ih =>
    rw [evalExpr, exprLines]
    exact ih
  | call span paren callee args ih ihargs =>
    rw [evalExpr, exprLines]
    refine ih.bind fun f => (writes_evalArgs ihargs).bind fun values => ?_
    exact .silent_bind (.checkCall f _ paren) fun _ => hcall f values paren

theorem writes_evalOptional (hcall : CallsWrite call called) (scope : ScopeId)
    (value : Option Expr) :
    Writes (evalOptional call scope value) (optionalLines call called scope value) := by
  cases value with
  | none => exact .of_silent (.pure _)
  | some e => exact writes_evalExpr hcall scope e

omit [Host H] in
theorem writes_repeatWhile {cond : Eval H (Value H)} {condLines : Lines H}
    {body : Eval H (Flow H)} {bodyLines : Lines H} (hcond : Writes cond condLines)
    (hbody : Writes body bodyLines) (turns : Nat) :
    Writes (repeatWhile cond body turns) (repeatLines cond condLines body bodyLines turns) := by
  induction turns with
  | zero => exact .of_silent .exhausted
  | succ turns ih =>
    rw [repeatWhile, repeatLines]
    refine hcond.bind fun v => ?_
    split
    · refine hbody.bind fun flow => ?_
      cases flow with
      | normal => exact ih
      | returned value => exact .of_silent (.pure _)
    · exact .of_silent (.pure _)

theorem writes_execAll_of_forall {turns : Nat} {scope : ScopeId} {body : List Stmt}
    (h : ∀ s ∈ body, Writes (execStmt call turns scope s) (stmtLines call called turns scope s)) :
    Writes (execAll call turns scope body) (bodyLines call called turns scope body) := by
  induction body with
  | nil =>
    rw [execAll, bodyLines]
    exact .of_silent (.pure _)
  | cons s body ih =>
    obtain ⟨hs, hbody⟩ := List.forall_mem_cons.mp h
    rw [execAll, bodyLines]
    refine hs.bind fun flow => ?_
    cases flow with
    | normal => exact ih hbody
    | returned value => exact .of_silent (.pure _)

theorem writes_execStmt (hcall : CallsWrite call called) (turns : Nat) (scope : ScopeId)
    (s : Stmt) : Writes (execStmt call turns scope s) (stmtLines call called turns scope s) := by
  induction s using Stmt.ind generalizing scope with
  | block span body ih =>
    rw [execStmt, stmtLines]
    exact .silent_bind (.newScope _) fun inner =>
      writes_execAll_of_forall fun s hs => ih s hs inner
  | expr span value =>
    rw [execStmt, stmtLines]
    exact (writes_evalExpr hcall scope value).bind_silent fun _ => .pure _
  | func span name params body _ =>
    rw [execStmt, stmtLines]
    exact .of_silent ((Silent.makeFunction _).bind fun f =>
      (Silent.define scope name f).bind fun _ => .pure _)
  | ifThen span cond yes ih =>
    rw [execStmt, stmtLines]
    refine (writes_evalExpr hcall scope cond).bind fun v => ?_
    split
    · exact ih scope
    · exact .of_silent (.pure _)
  | ifElse span cond yes no ihyes ihno =>
    rw [execStmt, stmtLines]
    refine (writes_evalExpr hcall scope cond).bind fun v => ?_
    split
    · exact ihyes scope
    · exact ihno scope
  | print span value =>
    rw [execStmt, stmtLines]
    exact (writes_evalExpr hcall scope value).bind fun v =>
      (Writes.write _ span).bind_silent fun _ => .pure _
  | ret span value =>
    rw [execStmt, stmtLines]
    exact (writes_evalOptional hcall scope value).bind_silent fun v => .pure _
  | var span name value =>
    rw [execStmt, stmtLines]
    exact (writes_evalOptional hcall scope value).bind_silent fun v =>
      (Silent.define scope name v).bind fun _ => .pure _
  | whileDo span cond body ih =>
    rw [execStmt, stmtLines]
    exact writes_repeatWhile (writes_evalExpr hcall scope cond) (ih scope) turns

theorem writes_execAll (hcall : CallsWrite call called) (turns : Nat) (scope : ScopeId)
    (body : List Stmt) :
    Writes (execAll call turns scope body) (bodyLines call called turns scope body) :=
  writes_execAll_of_forall fun s _ => writes_execStmt hcall turns scope s

theorem callsWrite_enter {exec : ScopeId → List Stmt → Eval H (Flow H)}
    {lines : ScopeId → List Stmt → Lines H}
    (hexec : ∀ scope body, Writes (exec scope body) (lines scope body)) :
    CallsWrite (enter exec) (enterLines lines) := by
  intro f args span
  cases f with
  | function id closure =>
    rw [enter, enterLines]
    refine .silent_bind (.newScope _) fun scope => ?_
    refine .silent_bind (.bindParams scope _ args) fun _ => ?_
    refine (hexec scope closure.body).bind_silent fun flow => ?_
    cases flow with
    | normal => exact .pure _
    | returned value => exact .pure _
  | native id fn =>
    cases fn with
    | clock => exact .of_silent .readClock
    | host function => exact .of_silent (.orFail _ span)
  | _ => exact .of_silent (.fail _ span)

/-- **Calls write their lines**, with any fuel. -/
theorem callsWrite_callWith (fuel : Nat) :
    CallsWrite (H := H) (callWith fuel) (callLines fuel) := by
  induction fuel with
  | zero => exact fun _ _ _ => .of_silent .exhausted
  | succ fuel ih =>
    rw [callWith_succ, callLines]
    exact callsWrite_enter fun scope body => writes_execAll ih fuel scope body

/-! ## Programs -/

theorem writes_program (fuel : Nat) (scope : ScopeId) (program : Program) :
    Writes (H := H) (execAll (callWith fuel) fuel scope program)
      (bodyLines (callWith fuel) (callLines fuel) fuel scope program) :=
  writes_execAll (callsWrite_callWith fuel) fuel scope program

theorem Machine.follow_lines (fuel : Nat) (program : Program) {m : Machine H}
    (hlimit : m.sink.limit = none) : Printed.Follow m.sink.written (m.lines fuel program) :=
  (writes_program fuel m.globals program).follow m hlimit

theorem Machine.written_execute (fuel : Nat) (program : Program) {m : Machine H}
    (hlimit : m.sink.limit = none) :
    (m.execute fuel program).2.sink.written =
      m.sink.written ++ Printed.bytes (m.lines fuel program) := by
  rw [m.execute_snd, (writes_program fuel m.globals program).sink_eq m hlimit]
  rfl

/-- **The run of a program under a limit**, by the first line that is refused. -/
theorem Machine.execute_withLimit (fuel : Nat) (program : Program) {m : Machine H} {limit : Nat}
    (hlimit : m.sink.limit = none) (hsize : m.sink.written.size ≤ limit) :
    (m.withLimit (some limit)).execute fuel program =
      match Printed.refused? (limit - m.sink.written.size) (m.lines fuel program) with
      | none =>
        ((m.execute fuel program).1, (m.execute fuel program).2.withLimit (some limit))
      | some line =>
        (.failed ⟨.writeRefused "stdout", line.span⟩,
          { line.machine with
            sink := (line.machine.withLimit (some limit)).sink.write line.text }) := by
  have hrun : execAll (callWith fuel) fuel (m.withLimit (some limit)).globals program
      (m.withLimit (some limit)) = _ :=
    (writes_program fuel m.globals program).withLimit m limit hlimit hsize
  rw [execute, hrun, execute, lines]
  cases Printed.refused? (limit - m.sink.written.size) _ with
  | some line => rfl
  | none =>
    rw [cut]
    cases execAll (callWith fuel) fuel m.globals program m with
    | ok flow m₁ => rfl
    | error stop m₁ => cases stop <;> rfl

omit [Host H] in
/-- The line that is refused was written up to the limit. -/
theorem Printed.Follow.write_refused {written : ByteArray} {before later : List (Printed H)}
    {line : Printed H} (h : Printed.Follow written (before ++ line :: later)) {room : Nat}
    (hbefore : (Printed.bytes before).size ≤ room)
    (hline : room < (Printed.bytes (before ++ [line])).size) :
    (line.machine.withLimit (some (written.size + room))).sink.write line.text =
      ⟨written ++ (Printed.bytes (before ++ line :: later)).extract 0 room,
        some (written.size + room)⟩ := by
  have hsink : line.machine.sink = ⟨written ++ Printed.bytes before, none⟩ :=
    (Printed.follow_append.mp h).2.1
  have hwhole : (Printed.bytes before).extract 0 room = Printed.bytes before := by
    rw [← Nat.max_eq_left hbefore]
    exact ByteArray.extract_zero_max_size
  have hroom : room - (Printed.bytes before).size ≤ line.text.toUTF8.size := by
    simp only [Printed.bytes_append, Printed.bytes_cons, Printed.bytes_nil, ByteArray.append_empty,
      ByteArray.size_append] at hline
    omega
  have htaken : min line.text.toUTF8.size
      (written.size + room - (written ++ Printed.bytes before).size) =
        room - (Printed.bytes before).size := by
    rw [ByteArray.size_append, Nat.add_sub_add_left, Nat.min_eq_right hroom]
  have hlater : room - (Printed.bytes before).size - line.text.toUTF8.size = 0 := by omega
  rw [Sink.write, Sink.taken, Machine.withLimit, hsink]
  simp only [htaken, Printed.bytes_append, Printed.bytes_cons, ByteArray.extract_append, hwhole,
    hlater, Nat.zero_sub, ByteArray.extract_same, ByteArray.append_empty, ByteArray.append_assoc]

/-- **A limit cuts the output and nothing else.** A run without a limit writes its lines. With room
for so many bytes more, the same run ends in the same way, with the same machine, if the lines fit.
If they do not, it writes as much of them as there is room for and fails at the `print` of the first
line that goes beyond. All else in the machine is then as it was right before that line. -/
theorem limit_cuts_output {H : Type} [Host H] (fuel : Nat) (program : Program) (m : Machine H)
    (room : Nat) :
    let free := m.withLimit none
    let limit := some (m.sink.written.size + room)
    let whole := free.execute fuel program
    let part := (m.withLimit limit).execute fuel program
    let output := Printed.bytes (free.lines fuel program)
    let refusal := Fault.writeRefused "stdout"
    whole.2.sink.written = m.sink.written ++ output ∧
      (output.size ≤ room → part = (whole.1, whole.2.withLimit limit)) ∧
      (room < output.size →
        ∃ before line later, free.lines fuel program = before ++ line :: later ∧
          (Printed.bytes before).size ≤ room ∧ room < (Printed.bytes (before ++ [line])).size ∧
          part = (.failed ⟨refusal, line.span⟩,
            { line.machine with sink := ⟨m.sink.written ++ output.extract 0 room, limit⟩ })) ∧
      refusal.code = "IOError" ∧ refusal.message = "Unable to write to stdout." := by
  intro free limit whole part output refusal
  have hfree : free.sink.limit = none := rfl
  have hpart : part = _ :=
    free.execute_withLimit fuel program hfree (Nat.le_add_right m.sink.written.size room)
  have hroom : m.sink.written.size + room - free.sink.written.size = room :=
    Nat.add_sub_cancel_left ..
  rw [hroom] at hpart
  refine ⟨free.written_execute fuel program hfree, fun hfits => ?_, fun hbeyond => ?_, rfl, rfl⟩
  · rw [hpart, Printed.refused?_eq_none.mpr hfits]
  · cases hrefused : Printed.refused? room (free.lines fuel program) with
    | none => exact absurd (Printed.refused?_eq_none.mp hrefused) (Nat.not_le.mpr hbeyond)
    | some line =>
      obtain ⟨before, later, hlines, hbefore, hline⟩ := Printed.exists_of_refused? hrefused
      have hfollow := free.follow_lines fuel program hfree
      rw [hlines] at hfollow
      have hsink := hfollow.write_refused hbefore hline
      rw [← hlines] at hsink
      refine ⟨before, line, later, hlines, hbefore, hline, ?_⟩
      rw [hpart, hrefused]
      exact congrArg (fun sink => (Machine.Ending.failed ⟨refusal, line.span⟩,
        { line.machine with sink })) hsink

/-- There is room for the text of a line, but not for its line break. -/
theorem limit_cuts_output_lineBreak :
    let program : Program :=
      [.print ⟨0, 11⟩ (.literal ⟨6, 10⟩ (.text "ab")), .var ⟨12, 18⟩ "x" none]
    let m : Machine Empty := .start ⟨fun _ => 0, 0⟩ (.empty none)
    let output := Printed.bytes ((m.withLimit none).lines 1 program)
    let part := (m.withLimit (some (m.sink.written.size + 2))).execute 1 program
    output = "ab\n".toUTF8 ∧ part.1 = .failed ⟨.writeRefused "stdout", ⟨0, 11⟩⟩ ∧
      part.2.sink.written = m.sink.written ++ output.extract 0 2 := by
  intro program m output part
  have houtput : output = "ab\n".toUTF8 := by decide +kernel
  have hbeyond : 2 < output.size := by
    rw [houtput]
    decide
  obtain ⟨before, line, later, -, -, -, hpart⟩ := (limit_cuts_output 1 program m 2).2.2.1 hbeyond
  exact ⟨houtput, by decide +kernel, by rw [show part = _ from hpart]⟩

end BlockScript
