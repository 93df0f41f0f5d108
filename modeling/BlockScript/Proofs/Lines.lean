import BlockScript.Eval

/-!
# The lines that a run writes

A run writes line after line. `Machine.lines` lists them, each with the place of its `print` and
with the machine as it was right before the line was written. The definition goes through the
program next to evaluation: wherever evaluation goes on after a part, the lines of what comes next
are those from the machine that the part left (`Lines.andThen`).

## Main definitions

* `Printed`, `Printed.bytes` — a line that is written, and the bytes of several
* `Printed.refused?` — the first line that there is no room for
* `exprLines`, `stmtLines`, `bodyLines`, `callLines` — the lines that evaluation writes
* `Machine.lines` — the lines of a program

## Main results

* `Printed.refused?_append` — whether there is room for some lines and then for others
* `Printed.exists_of_refused?` — where in the output a line is refused
-/

namespace BlockScript

variable {H α β : Type}

/-! ## Lines -/

/-- A line that is written. -/
structure Printed (H : Type) where
  /-- where the `print` stands -/
  span : Span
  /-- what it writes, with the line break -/
  text : String
  /-- the machine right before -/
  machine : Machine H

namespace Printed

/-- The bytes of lines that are written one after the other. -/
def bytes : List (Printed H) → ByteArray
  | [] => .empty
  | line :: lines => line.text.toUTF8 ++ bytes lines

@[simp] theorem bytes_nil : bytes ([] : List (Printed H)) = .empty := rfl

@[simp] theorem bytes_cons (line : Printed H) (lines : List (Printed H)) :
    bytes (line :: lines) = line.text.toUTF8 ++ bytes lines := rfl

@[simp] theorem bytes_append (lines lines' : List (Printed H)) :
    bytes (lines ++ lines') = bytes lines ++ bytes lines' := by
  induction lines with
  | nil => simp
  | cons line lines ih => simp [ih, ByteArray.append_assoc]

/-- The first line that does not fit into so many bytes. -/
def refused? (room : Nat) : List (Printed H) → Option (Printed H)
  | [] => none
  | line :: lines =>
    if line.text.toUTF8.size ≤ room then refused? (room - line.text.toUTF8.size) lines
    else some line

theorem refused?_append (room : Nat) (lines lines' : List (Printed H)) :
    refused? room (lines ++ lines') =
      (refused? room lines).or (refused? (room - (bytes lines).size) lines') := by
  induction lines generalizing room with
  | nil => simp [refused?]
  | cons line lines ih =>
    rw [List.cons_append, refused?, refused?]
    split
    · rw [ih, bytes_cons, ByteArray.size_append, Nat.sub_add_eq]
    · rfl

theorem refused?_eq_none {room : Nat} {lines : List (Printed H)} :
    refused? room lines = none ↔ (bytes lines).size ≤ room := by
  induction lines generalizing room with
  | nil => simp [refused?]
  | cons line lines ih =>
    rw [refused?, bytes_cons, ByteArray.size_append]
    split
    · rw [ih]
      omega
    · simp only [reduceCtorEq, false_iff]
      omega

theorem exists_of_refused? {room : Nat} {lines : List (Printed H)} {line : Printed H}
    (h : refused? room lines = some line) :
    ∃ before later, lines = before ++ line :: later ∧ (bytes before).size ≤ room ∧
      room < (bytes (before ++ [line])).size := by
  induction lines generalizing room with
  | nil => nomatch h
  | cons first lines ih =>
    rw [refused?] at h
    split at h
    · next hfits =>
      obtain ⟨before, later, rfl, hbefore, hline⟩ := ih h
      refine ⟨first :: before, later, rfl, ?_, ?_⟩
      · rw [bytes_cons, ByteArray.size_append]
        omega
      · rw [List.cons_append, bytes_cons, ByteArray.size_append]
        omega
    · next hfits =>
      obtain rfl : first = line := Option.some.inj h
      refine ⟨[], lines, rfl, Nat.zero_le _, ?_⟩
      simpa using hfits

/-- The lines were written one after the other, after the bytes `written`, without a limit. -/
def Follow : ByteArray → List (Printed H) → Prop
  | _, [] => True
  | written, line :: lines =>
    line.machine.sink = ⟨written, none⟩ ∧ Follow (written ++ line.text.toUTF8) lines

theorem follow_append {written : ByteArray} {lines lines' : List (Printed H)} :
    Follow written (lines ++ lines') ↔
      Follow written lines ∧ Follow (written ++ bytes lines) lines' := by
  induction lines generalizing written with
  | nil => simp [Follow]
  | cons line lines ih =>
    rw [List.cons_append, Follow, Follow, ih, bytes_cons, ByteArray.append_assoc, and_assoc]

end Printed

/-- The lines that an action writes, from each machine. -/
abbrev Lines (H : Type) := Machine H → List (Printed H)

namespace Lines

/-- Nothing is written. -/
def nothing : Lines H := fun _ => []

/-- First the lines of an action, and then what is written next if the action gives a value. -/
def andThen (lines : Lines H) (p : Eval H α) (next : α → Lines H) : Lines H := fun m =>
  lines m ++
    match p m with
    | .ok a m => next a m
    | .error _ _ => []

end Lines

/-! ## The lines that evaluation writes -/

/-- The lines that a call writes. -/
abbrev CallLines (H : Type) := Value H → List (Value H) → Span → Lines H

section

variable [Host H]

mutual

/-- The lines that are written while an expression is evaluated. -/
def exprLines (call : Call H) (called : CallLines H) (scope : ScopeId) : Expr → Lines H
  | .literal .. | .ident .. => .nothing
  | .assign _ _ value => exprLines call called scope value
  | .unary _ _ operand => exprLines call called scope operand
  | .binary _ _ left right =>
    (exprLines call called scope left).andThen (evalExpr call scope left) fun _ =>
      exprLines call called scope right
  | .logical _ op left right =>
    (exprLines call called scope left).andThen (evalExpr call scope left) fun a =>
      if op.decidedBy a then .nothing else exprLines call called scope right
  | .group _ inner => exprLines call called scope inner
  | .call _ paren callee args =>
    (exprLines call called scope callee).andThen (evalExpr call scope callee) fun f =>
      (argLines call called scope args).andThen (evalArgs call scope args) fun values =>
        Lines.nothing.andThen (checkCall f values.length paren) fun _ => called f values paren

/-- The lines that are written while arguments are evaluated. -/
def argLines (call : Call H) (called : CallLines H) (scope : ScopeId) : List Expr → Lines H
  | [] => .nothing
  | e :: es =>
    (exprLines call called scope e).andThen (evalExpr call scope e) fun _ =>
      argLines call called scope es

end

/-- The lines of an optional expression. -/
def optionalLines (call : Call H) (called : CallLines H) (scope : ScopeId) : Option Expr → Lines H
  | some e => exprLines call called scope e
  | none => .nothing

omit [Host H] in
/-- The lines of a loop. -/
def repeatLines (cond : Eval H (Value H)) (condLines : Lines H) (body : Eval H (Flow H))
    (bodyLines : Lines H) : (turns : Nat) → Lines H
  | 0 => .nothing
  | turns + 1 =>
    condLines.andThen cond fun v =>
      if v.truthy then
        bodyLines.andThen body fun
          | .normal => repeatLines cond condLines body bodyLines turns
          | .returned _ => .nothing
      else .nothing

mutual

/-- The lines that a statement writes. -/
def stmtLines (call : Call H) (called : CallLines H) (turns : Nat) (scope : ScopeId) :
    Stmt → Lines H
  | .block _ body =>
    Lines.nothing.andThen (Machine.newScope (some scope)) fun inner =>
      bodyLines call called turns inner body
  | .expr _ value => exprLines call called scope value
  | .func .. => .nothing
  | .ifThen _ cond yes =>
    (exprLines call called scope cond).andThen (evalExpr call scope cond) fun v =>
      if v.truthy then stmtLines call called turns scope yes else .nothing
  | .ifElse _ cond yes no =>
    (exprLines call called scope cond).andThen (evalExpr call scope cond) fun v =>
      if v.truthy then stmtLines call called turns scope yes
      else stmtLines call called turns scope no
  | .print span value =>
    (exprLines call called scope value).andThen (evalExpr call scope value) fun v m =>
      [⟨span, v.display ++ "\n", m⟩]
  | .ret _ value | .var _ _ value => optionalLines call called scope value
  | .whileDo _ cond body =>
    repeatLines (evalExpr call scope cond) (exprLines call called scope cond)
      (execStmt call turns scope body) (stmtLines call called turns scope body) turns

/-- The lines that statements write, up to the first that returns. -/
def bodyLines (call : Call H) (called : CallLines H) (turns : Nat) (scope : ScopeId) :
    List Stmt → Lines H
  | [] => .nothing
  | s :: ss =>
    (stmtLines call called turns scope s).andThen (execStmt call turns scope s) fun
      | .normal => bodyLines call called turns scope ss
      | .returned _ => .nothing

end

omit [Host H] in
/-- The lines of a call of a function whose body is run by `exec` and writes `lines`. -/
def enterLines (lines : ScopeId → List Stmt → Lines H) : CallLines H
  | .function _ closure, args, _ =>
    Lines.nothing.andThen (Machine.newScope (some closure.scope)) fun scope =>
      Lines.nothing.andThen (bindParams scope closure.params args) fun _ =>
        lines scope closure.body
  | _, _, _ => .nothing

/-- The lines of calls, with the given fuel. -/
def callLines : (fuel : Nat) → CallLines H
  | 0 => fun _ _ _ => .nothing
  | fuel + 1 => enterLines (bodyLines (callWith fuel) (callLines fuel) fuel)

/-- The lines that a program writes. -/
def Machine.lines (fuel : Nat) (program : Program) (m : Machine H) : List (Printed H) :=
  bodyLines (callWith fuel) (callLines fuel) fuel m.globals program m

end

end BlockScript
