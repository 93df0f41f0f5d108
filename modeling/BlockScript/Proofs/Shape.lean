import BlockScript.Proofs.NextToken
import BlockScript.Proofs.Subtrees

/-!
# The shape of what is kept

Not every tree is one that can be written down without parentheses. In a tree that the parser gives,
the operands of an operator hold together at least as tightly as the operator asks for, an
assignment is never an operand, and a declaration is never a branch or the body of a loop. This is
so for every program that is kept, whatever faults were found in its tokens: an assignment to
something that is no variable leaves its left side standing, but only where a whole expression is
asked for, and a declaration that broke off leaves nothing.

Each level of operators gives trees of its own rank or a tighter one (`Expr.Tight`). Statements are
put together from whole expressions and from other statements (`Parser.Built`), and nothing is asked
of a whole expression.

## Main definitions

* `Rank` — how tightly an expression holds together
* `Node.WellShaped` — the operands of a node are as tight as it needs them

## Main results

* `Parser.yields_expression` — the parser of expressions gives well-shaped trees
* `wellShaped_parseTokens` — so does the parser of programs, for any tokens
-/

namespace BlockScript

/-! ## Ranks -/

/-- How tightly an expression holds together, from the loosest to the tightest. -/
inductive Rank where
  | assignment | or | and | equality | comparison | term | factor | unary | call | primary
deriving DecidableEq, Repr

/-- The tighter an expression holds together, the larger the number. -/
def Rank.tightness : Rank → Nat
  | .assignment => 0
  | .or => 1
  | .and => 2
  | .equality => 3
  | .comparison => 4
  | .term => 5
  | .factor => 6
  | .unary => 7
  | .call => 8
  | .primary => 9

/-- The rank of what an operator makes of its operands. -/
def BinaryOp.rank : BinaryOp → Rank
  | .equal | .notEqual => .equality
  | .greater | .greaterEqual | .less | .lessEqual => .comparison
  | .add | .subtract => .term
  | .multiply | .divide => .factor

/-- The rank of what an operator makes of its operands. -/
def LogicalOp.rank : LogicalOp → Rank
  | .or => .or
  | .and => .and

/-- The rank of an expression. -/
def Expr.rank : Expr → Rank
  | .assign .. => .assignment
  | .logical _ op .. => op.rank
  | .binary _ op .. => op.rank
  | .unary .. => .unary
  | .call .. => .call
  | .literal .. | .ident .. | .group .. => .primary

/-- The operands of an operator of the given rank are grouped to the left: the one on the left is as
tight as the operator, and the one on the right is tighter. -/
def GroupsLeft (rank : Rank) (left right : Expr) : Prop :=
  rank.tightness ≤ left.rank.tightness ∧ rank.tightness < right.rank.tightness

/-- The operands of the expression are as tight as it needs them. -/
def Expr.Fitted : Expr → Prop
  | .binary _ op left right => GroupsLeft op.rank left right
  | .logical _ op left right => GroupsLeft op.rank left right
  | .unary _ _ operand => operand.rank ∈ [Rank.unary, .call, .primary]
  | .call _ _ callee _ => callee.rank ∈ [Rank.call, .primary]
  | .literal .. | .ident .. | .assign .. | .group .. => True

/-- The statements that stand in a statement as its branches or as the body of a loop. -/
def Stmt.bodies : Stmt → List Stmt
  | .ifThen _ _ yes => [yes]
  | .ifElse _ _ yes no => [yes, no]
  | .whileDo _ _ body => [body]
  | .block .. | .expr .. | .func .. | .print .. | .ret .. | .var .. => []

/-- A node as the parser makes it. The operands of an expression are as tight as it needs them, so
that no assignment is among them, and neither a branch nor the body of a loop is a declaration. -/
def Node.WellShaped : Node → Prop
  | .expr e => e.Fitted ∧ ∀ operand ∈ e.operands, operand.rank ≠ .assignment
  | .stmt s => ∀ body ∈ s.bodies, body.declared? = none

/-! ## Tight expressions -/

/-- All nodes of the expression are well-shaped, and it is at least as tight as the number says. -/
structure Expr.Tight (tightness : Nat) (e : Expr) : Prop where
  rank : tightness ≤ e.rank.tightness
  each : e.Each Node.WellShaped

namespace Expr.Tight

variable {k m : Nat} {e operand left right callee : Expr}

theorem mono (h : e.Tight k) (hm : m ≤ k) : e.Tight m := ⟨Nat.le_trans hm h.rank, h.each⟩

theorem rank_ne (h : e.Tight k) (hk : 0 < k) : e.rank ≠ .assignment := by
  intro heq
  have := h.rank
  rw [heq] at this
  exact absurd (Nat.lt_of_lt_of_le hk this) (Nat.lt_irrefl 0)

/-- A unit is as tight as can be. -/
theorem of_primary (hrank : e.rank = .primary) (hoperands : e.operands = []) (hfitted : e.Fitted)
    (hparts : ∀ part ∈ e.enclosed, part.Tight 0) : e.Tight 9 := by
  refine ⟨by rw [hrank]; exact Nat.le_refl 9, Expr.each_iff.mpr ⟨⟨hfitted, ?_⟩, ?_⟩⟩
  · simp [hoperands]
  · rw [Expr.parts, hoperands]
    exact fun part hpart => (hparts part hpart).each

theorem literal (span : Span) (value : Constant) : (Expr.literal span value).Tight 9 :=
  of_primary rfl rfl trivial fun _ h => absurd h List.not_mem_nil

theorem ident (span : Span) (name : String) : (Expr.ident span name).Tight 9 :=
  of_primary rfl rfl trivial fun _ h => absurd h List.not_mem_nil

theorem group (span : Span) (h : e.Tight 0) : (Expr.group span e).Tight 9 :=
  of_primary rfl rfl trivial (List.forall_mem_singleton.mpr h)

theorem call (span paren : Span) {args : List Expr} (h : callee.Tight 8)
    (hargs : ∀ arg ∈ args, arg.Tight 0) : (Expr.call span paren callee args).Tight 8 := by
  have hrank : callee.rank ∈ [Rank.call, .primary] := by
    have := h.rank
    revert this
    cases callee.rank <;> decide
  refine ⟨Nat.le_refl 8, Expr.each_iff.mpr ⟨⟨hrank, ?_⟩, List.forall_mem_append.mpr ⟨?_, ?_⟩⟩⟩
  · exact List.forall_mem_singleton.mpr (h.rank_ne (by decide))
  · exact List.forall_mem_singleton.mpr h.each
  · exact fun arg harg => (hargs arg harg).each

theorem unary (span : Span) (op : UnaryOp) (h : operand.Tight 7) :
    (Expr.unary span op operand).Tight 7 := by
  have hrank : operand.rank ∈ [Rank.unary, .call, .primary] := by
    have := h.rank
    revert this
    cases operand.rank <;> decide
  refine ⟨Nat.le_refl 7, Expr.each_iff.mpr ⟨⟨hrank, ?_⟩, ?_⟩⟩
  · exact List.forall_mem_singleton.mpr (h.rank_ne (by decide))
  · exact List.forall_mem_singleton.mpr h.each

theorem assign (span : Span) (name : String) (h : e.Tight 0) :
    (Expr.assign span name e).Tight 0 :=
  ⟨Nat.zero_le _, Expr.each_iff.mpr ⟨⟨trivial, fun _ h => absurd h List.not_mem_nil⟩,
    List.forall_mem_singleton.mpr h.each⟩⟩

end Expr.Tight

namespace Parser

/-- The rank of what an operator between two operands makes of them. -/
def Joint.rank : Joint → Rank
  | .binary op => op.rank
  | .logical op => op.rank

theorem Joint.tight_join {joint : Joint} {left right : Expr} {k : Nat}
    (hjoint : joint.rank.tightness = k) (hk : 0 < k) (hleft : left.Tight k)
    (hright : right.Tight (k + 1)) : (joint.join left right).Tight k := by
  have hgroups : GroupsLeft joint.rank left right :=
    ⟨hjoint ▸ hleft.rank, hjoint ▸ hright.rank⟩
  have hassign : ∀ operand ∈ [left, right], operand.rank ≠ .assignment :=
    List.forall_mem_cons.mpr ⟨hleft.rank_ne hk,
      List.forall_mem_singleton.mpr (hright.rank_ne (Nat.succ_pos k))⟩
  have heach : ∀ part ∈ [left, right], part.Each Node.WellShaped :=
    List.forall_mem_cons.mpr ⟨hleft.each, List.forall_mem_singleton.mpr hright.each⟩
  cases joint with
  | binary op => exact ⟨Nat.le_of_eq hjoint.symm, Expr.each_iff.mpr ⟨⟨hgroups, hassign⟩, heach⟩⟩
  | logical op => exact ⟨Nat.le_of_eq hjoint.symm, Expr.each_iff.mpr ⟨⟨hgroups, hassign⟩, heach⟩⟩

/-- The levels have the ranks from `k` on up to the one of operators on one operand. -/
def Ranked : Nat → List Level → Prop
  | k, [] => k = 7
  | k, level :: tighter =>
    (∀ kind joint, level kind = some joint → joint.rank.tightness = k) ∧ Ranked (k + 1) tighter

theorem ranked_levels : Ranked 1 levels := by
  refine ⟨?_, ?_, ?_, ?_, ?_, ?_, rfl⟩ <;>
  · intro kind joint h
    dsimp only at h
    split at h <;> cases h <;> rfl

/-! ## The parser of expressions -/

namespace Yields

variable {α β γ : Type} {P : α → Prop} {Q : β → Prop}

/-- A parser that goes by its next token. -/
theorem byHead {branch : Token → Option (Parser α)} {otherwise : Parser α}
    (h : Yields otherwise P) (hbranch : ∀ token p, branch token = some p → Yields p P) :
    Yields (byHead branch otherwise) P := by
  intro s a s' hr
  cases hs : s.rest with
  | nil => rw [byHead_of_end hs] at hr; exact h s a s' hr
  | cons token rest =>
    cases hb : branch token with
    | none => rw [byHead_of_none hs hb] at hr; exact h s a s' hr
    | some p => rw [byHead_of_some hs hb] at hr; exact hbranch token p hb _ a s' hr

/-- A token that is accepted is of a kind that was asked for. -/
theorem accept?_bind {select : Token.Kind → Option γ} {f : Option (γ × Token) → Parser β}
    (hnone : Yields (f none) Q)
    (hsome : ∀ c token, select token.kind = some c → Yields (f (some (c, token))) Q) :
    Yields (accept? select >>= f) Q := by
  intro s b s' hr
  rw [bind_apply] at hr
  cases hs : s.rest with
  | nil => rw [accept?_of_end hs] at hr; exact hnone s b s' hr
  | cons token rest =>
    rw [accept?_of_rest hs] at hr
    cases hselect : select token.kind with
    | none => rw [hselect] at hr; exact hnone s b s' hr
    | some c => rw [hselect] at hr; exact hsome c token hselect _ b s' hr

end Yields

variable {nested operand : Parser Expr}

theorem yields_commaSeparated {α : Type} {item : Parser α} {P : α → Prop} (h : Yields item P)
    (tooMany : Nat → Fault) (steps count : Nat) :
    Yields (commaSeparated tooMany item steps count) fun items => ∀ a ∈ items, P a := by
  induction steps generalizing count with
  | zero => exact .pure fun _ h => absurd h List.not_mem_nil
  | succ steps ih =>
    refine .after fun _ => h.bind fun first hfirst => .after fun comma => ?_
    split
    · exact (ih (count + 1)).bind fun others hothers =>
        .pure (List.forall_mem_cons.mpr ⟨hfirst, hothers⟩)
    · exact .pure (List.forall_mem_singleton.mpr hfirst)

theorem yields_itemList {α : Type} {item : Parser α} {P : α → Prop} (h : Yields item P)
    (steps : Nat) (tooMany : Nat → Fault) :
    Yields (itemList steps tooMany item) fun items => ∀ a ∈ items, P a := by
  refine .after fun closed => ?_
  split
  · exact .pure fun _ h => absurd h List.not_mem_nil
  · exact yields_commaSeparated h tooMany steps 0

theorem yields_primary (h : Yields nested (Expr.Tight 0)) :
    Yields (primary nested) (Expr.Tight 9) := by
  rw [primary_eq]
  refine .byHead (.failHere _) fun token p hp => ?_
  unfold unitBranch at hp
  split at hp
  · rename_i tree htree
    cases hp
    refine .pure ?_
    rcases unit?_cases htree with ⟨value, rfl⟩ | ⟨name, rfl⟩
    · exact .literal _ value
    · exact .ident _ name
  · split at hp
    · cases hp
      exact h.bind fun inner hinner => .after fun _ => .pure (hinner.group _)
    · cases hp

theorem yields_callsOf (h : Yields nested (Expr.Tight 0)) (width steps : Nat) {callee : Expr}
    (hcallee : callee.Tight 8) : Yields (callsOf width nested steps callee) (Expr.Tight 8) := by
  induction steps generalizing callee with
  | zero => exact .pure hcallee
  | succ steps ih =>
    refine .after fun opening => ?_
    split
    · exact .pure hcallee
    · refine Yields.bind (P := Expr.Tight 8) ?_ fun next hnext => ih hnext
      exact (yields_itemList h width _).bind fun args hargs => .after fun closing =>
        .pure (hcallee.call _ _ hargs)

theorem yields_call (h : Yields nested (Expr.Tight 0)) (steps : Nat) :
    Yields (call steps nested) (Expr.Tight 8) :=
  (yields_primary h).bind fun _ hcallee =>
    yields_callsOf h steps steps (hcallee.mono (Nat.le_succ 8))

theorem yields_unary (h : Yields operand (Expr.Tight 8)) (steps : Nat) :
    Yields (unary operand steps) (Expr.Tight 7) := by
  have hoperand : Yields operand (Expr.Tight 7) := fun s e s' hr =>
    (h s e s' hr).mono (Nat.le_succ 7)
  induction steps with
  | zero => exact hoperand
  | succ steps ih =>
    refine .after fun found => ?_
    split
    · exact ih.bind fun inner hinner => .pure (hinner.unary _ _)
    · exact hoperand

theorem yields_chain {level : Level} {k : Nat} (hk : 0 < k)
    (hlevel : ∀ kind joint, level kind = some joint → joint.rank.tightness = k)
    (h : Yields operand (Expr.Tight (k + 1))) (steps : Nat) {left : Expr} (hleft : left.Tight k) :
    Yields (chain level operand steps left) (Expr.Tight k) := by
  induction steps generalizing left with
  | zero => exact .pure hleft
  | succ steps ih =>
    refine .accept?_bind (.pure hleft) fun joint token hjoint => h.bind fun right hright => ?_
    exact ih (Joint.tight_join (hlevel _ _ hjoint) hk hleft hright)

theorem yields_binary (h : Yields operand (Expr.Tight 7)) (steps : Nat) {k : Nat} (hk : 0 < k)
    {levels : List Level} (hlevels : Ranked k levels) :
    Yields (binary steps operand levels) (Expr.Tight k) := by
  induction levels generalizing k with
  | nil =>
    obtain rfl : k = 7 := hlevels
    exact h
  | cons level tighter ih =>
    obtain ⟨hlevel, htighter⟩ := hlevels
    have hoperand := ih (Nat.succ_pos k) htighter
    exact hoperand.bind fun left hleft =>
      yields_chain hk hlevel hoperand steps (hleft.mono (Nat.le_succ k))

/-- A target that cannot be assigned to is left standing, as the whole expression. -/
theorem yields_assignment (h : Yields nested (Expr.Tight 0)) (steps : Nat) :
    Yields (assignment steps nested) (Expr.Tight 0) := by
  have hbinary := yields_binary (yields_unary (yields_call h steps) steps) steps Nat.one_pos
    ranked_levels
  refine hbinary.bind fun target htarget => .after fun equals => ?_
  split
  · exact .pure (htarget.mono (Nat.zero_le 1))
  · refine h.bind fun value hvalue => ?_
    split
    · exact .pure (hvalue.assign _ _)
    · exact .after fun _ => .pure (htarget.mono (Nat.zero_le 1))

/-- **The parser of expressions gives well-shaped trees.** -/
theorem yields_expression (n : Nat) : Yields (expression n) (Expr.Tight 0) := by
  induction n with
  | zero => exact .failHere _
  | succ n ih => exact yields_assignment ih (n + 1)

end Parser

/-! ## Statements -/

/-- What the parser gives where a statement is asked for: no declaration, and all of its nodes are
well-shaped. -/
structure Stmt.Shaped (s : Stmt) : Prop where
  declared : s.declared? = none
  each : s.Each Node.WellShaped

theorem Stmt.Each.of_parts {s : Stmt} (hbodies : ∀ body ∈ s.bodies, body.declared? = none)
    (hexprs : ∀ e ∈ s.exprs, e.Tight 0) (hparts : ∀ part ∈ s.parts, part.Each Node.WellShaped) :
    s.Each Node.WellShaped :=
  Stmt.each_iff.mpr ⟨hbodies, fun e he => (hexprs e he).each, hparts⟩

namespace Parser

theorem built_shaped : Built (Expr.Tight 0) Stmt.Shaped (Stmt.Each Node.WellShaped) := by
  have hnone {α : Type} {P : α → Prop} : ∀ a ∈ [], P a := fun _ h => absurd h List.not_mem_nil
  have hsome {value : Option Expr} (h : ∀ e ∈ value, e.Tight 0) : ∀ e ∈ value.toList, e.Tight 0 :=
    fun e he => h e (Option.mem_toList.mp he)
  constructor
  case always => exact fun span => (Expr.Tight.literal span _).mono (Nat.zero_le 9)
  case block => exact fun _ _ h => ⟨rfl, .of_parts hnone hnone h⟩
  case func => exact fun _ _ _ _ h => .of_parts hnone hnone h
  case expr =>
    exact fun _ _ h => ⟨rfl, .of_parts hnone (List.forall_mem_singleton.mpr h) hnone⟩
  case print =>
    exact fun _ _ h => ⟨rfl, .of_parts hnone (List.forall_mem_singleton.mpr h) hnone⟩
  case ret => exact fun _ _ h => ⟨rfl, .of_parts hnone (hsome h) hnone⟩
  case var => exact fun _ _ _ h => .of_parts hnone (hsome h) hnone
  case ifThen =>
    intro _ cond yes hcond hyes
    exact ⟨rfl, .of_parts (List.forall_mem_singleton.mpr hyes.declared)
      (List.forall_mem_singleton.mpr hcond) (List.forall_mem_singleton.mpr hyes.each)⟩
  case ifElse =>
    intro _ cond yes no hcond hyes hno
    refine ⟨rfl, .of_parts ?_ (List.forall_mem_singleton.mpr hcond) ?_⟩
    · exact List.forall_mem_cons.mpr ⟨hyes.declared, List.forall_mem_singleton.mpr hno.declared⟩
    · exact List.forall_mem_cons.mpr ⟨hyes.each, List.forall_mem_singleton.mpr hno.each⟩
  case whileDo =>
    intro _ cond body hcond hbody
    exact ⟨rfl, .of_parts (List.forall_mem_singleton.mpr hbody.declared)
      (List.forall_mem_singleton.mpr hcond) (List.forall_mem_singleton.mpr hbody.each)⟩
  case decl => exact fun _ h => h.each

end Parser

/-- **What is kept is well-shaped**, whatever the tokens are and whatever faults were found. -/
theorem wellShaped_parseTokens (tokens : List Token) :
    ∀ node ∈ (parseTokens tokens).program.nodes, node.WellShaped := by
  intro node hnode
  obtain ⟨s, hs, hnode⟩ := Program.mem_nodes.mp hnode
  exact Parser.built_shaped.parseTokens Parser.yields_expression tokens s hs node hnode

/-- An assignment to a disjunction leaves the disjunction standing, as the value of another
assignment. -/
theorem wellShaped_parseTokens_target :
    (parseTokens (scan "a = b or c + d = e;").tokens).faults = [⟨.invalidTarget, ⟨15, 16⟩⟩] ∧
      Node.WellShaped (.expr (.logical ⟨4, 14⟩ .or (.ident ⟨4, 5⟩ "b")
        (.binary ⟨9, 14⟩ .add (.ident ⟨9, 10⟩ "c") (.ident ⟨13, 14⟩ "d")))) := by
  have hparsed : parseTokens (scan "a = b or c + d = e;").tokens =
      ⟨[.expr ⟨0, 19⟩ (.assign ⟨0, 14⟩ "a" (.logical ⟨4, 14⟩ .or (.ident ⟨4, 5⟩ "b")
        (.binary ⟨9, 14⟩ .add (.ident ⟨9, 10⟩ "c") (.ident ⟨13, 14⟩ "d"))))],
        [⟨.invalidTarget, ⟨15, 16⟩⟩]⟩ := by with_unfolding_all rfl
  refine ⟨by rw [hparsed], wellShaped_parseTokens (scan "a = b or c + d = e;").tokens _ ?_⟩
  rw [hparsed]
  simp [Program.nodes, Stmt.nodes, Expr.nodes]

end BlockScript
