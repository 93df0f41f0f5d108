import BlockScript.Proofs.Reads

/-!
# Deciding by the next token

At each point where the parser could go more than one way it looks at the next token and at nothing
else. Many of its functions are written as a `match` on that token. Here they are brought into a
few common forms, so that a fact on all of the parser needs one rule for each form: every single
token goes through `accept?`, and where a token decides what is read, `byHead` says so.

## Main definitions

* `Parser.byHead` — a parser that goes by its next token
* `Parser.declarationBody` — the parser of a declaration, without recovery

## Main results

* `Parser.acceptKind?_eq`, `Parser.expect_eq` — single tokens, by `accept?`
* `Parser.primary_eq`, `Parser.statement_succ`, `Parser.declaration_succ` — units, statements and
  declarations, by their first token
-/

namespace BlockScript

namespace Parser

variable {α β : Type} {s : State} {token : Token} {rest : List Token}

theorem accept?_of_end (hs : s.rest = []) (select : Token.Kind → Option α) :
    accept? select s = .ok none s := by
  rw [accept?, hs]

theorem accept?_of_rest (hs : s.rest = token :: rest) (select : Token.Kind → Option α) :
    accept? select s =
      match select token.kind with
      | some a => .ok (some (a, token)) (s.after [token] rest)
      | none => .ok none s := by
  cases hselect : select token.kind <;>
    simp only [accept?, hs, hselect, State.advance_of_rest hs]

/-- To accept a kind is to accept what is of that kind. -/
theorem acceptKind?_eq (kind : Token.Kind) :
    acceptKind? kind =
      Option.map Prod.snd <$> accept? fun k => if k = kind then some () else none := by
  funext s
  rw [map_eq_bind, bind_apply, acceptKind?]
  cases hs : s.rest with
  | nil => rw [accept?_of_end hs]; rfl
  | cons token rest =>
    rw [accept?_of_rest hs, ← State.advance_of_rest hs]
    by_cases h : token.kind = kind
    · simp only [h, if_true]
      rfl
    · simp only [h, if_false]
      rfl

theorem exists_of_nextIs {kind : Token.Kind} (h : s.nextIs kind = true) :
    ∃ token rest, s.rest = token :: rest ∧ token.kind = kind := by
  cases hs : s.rest with
  | nil =>
    rw [State.nextIs_of_end hs] at h
    nomatch h
  | cons token rest =>
    rw [State.nextIs_of_rest hs] at h
    exact ⟨token, rest, rfl, of_decide_eq_true h⟩

theorem expect_of_rest {kind : Token.Kind} {what : String} (hs : s.rest = token :: rest)
    (hkind : token.kind = kind) : expect kind what s = .ok token (s.after [token] rest) := by
  rw [expect, hs]
  simp only [hkind, if_true, State.advance_of_rest hs]

/-- To expect a kind is to accept it or to break off. -/
theorem expect_eq (kind : Token.Kind) (what : String) :
    expect kind what =
      acceptKind? kind >>= fun
        | some token => pure token
        | none => failHere (.expected what) := by
  funext s
  rw [bind_apply, expect, acceptKind?]
  cases hs : s.rest with
  | nil => rfl
  | cons token rest =>
    by_cases h : token.kind = kind
    · simp only [h, if_true]
      rfl
    · simp only [h, if_false]

/-- Nothing comes after a fault that breaks off. -/
theorem failHere_bind (fault : Fault) (f : α → Parser β) :
    failHere fault >>= f = failHere fault := rfl

/-- The expression that a token is by itself. -/
def unit? (token : Token) : Option Expr :=
  match token.kind, token.literal with
  | .keyword .falseWord, _ => some (.literal token.span (.bool false))
  | .keyword .trueWord, _ => some (.literal token.span (.bool true))
  | .keyword .nilWord, _ => some (.literal token.span .nil)
  | .number, some (.number value) => some (.literal token.span (.number value))
  | .number, some (.text value) => some (.literal token.span (.text value))
  | .string, some (.number value) => some (.literal token.span (.number value))
  | .string, some (.text value) => some (.literal token.span (.text value))
  | .identifier, _ => some (.ident token.span token.lexeme)
  | _, _ => none

/-- A token that is a unit stands for a constant or a variable. -/
theorem unit?_cases {tree : Expr} (h : unit? token = some tree) :
    (∃ value, tree = .literal token.span value) ∨ ∃ name, tree = .ident token.span name := by
  grind [unit?]

/-- A parser that reads the next token and goes on as `branch` says, or else leaves it alone. -/
def byHead (branch : Token → Option (Parser α)) (otherwise : Parser α) : Parser α := fun s =>
  match s.rest with
  | [] => otherwise s
  | token :: rest =>
    match branch token with
    | some p => p (s.after [token] rest)
    | none => otherwise s

theorem byHead_of_end (hs : s.rest = []) (branch : Token → Option (Parser α))
    (otherwise : Parser α) : byHead branch otherwise s = otherwise s := by
  rw [byHead, hs]

theorem byHead_of_some {branch : Token → Option (Parser α)} {otherwise p : Parser α}
    (hs : s.rest = token :: rest) (h : branch token = some p) :
    byHead branch otherwise s = p (s.after [token] rest) := by
  simp only [byHead, hs, h]

theorem byHead_of_none {branch : Token → Option (Parser α)} {otherwise : Parser α}
    (hs : s.rest = token :: rest) (h : branch token = none) :
    byHead branch otherwise s = otherwise s := by
  simp only [byHead, hs, h]

theorem byHead_eq_of_forall {branch : Token → Option (Parser α)} {otherwise : Parser α}
    (h : ∀ token, branch token = none) : byHead branch otherwise = otherwise := by
  funext s
  cases hs : s.rest with
  | nil => exact byHead_of_end hs branch otherwise
  | cons token rest => exact byHead_of_none hs (h token)

/-- To accept a kind is to go by the next token. -/
theorem acceptKind?_bind_eq (kind : Token.Kind) (g : Option Token → Parser β) :
    acceptKind? kind >>= g =
      byHead (fun token => if token.kind = kind then some (g (some token)) else none) (g none) := by
  funext s
  rw [bind_apply, acceptKind?]
  cases hs : s.rest with
  | nil => exact (byHead_of_end hs _ _).symm
  | cons token rest =>
    by_cases h : token.kind = kind
    · rw [byHead_of_some hs (if_pos h)]
      simp only [h, if_true, State.advance_of_rest hs]
    · rw [byHead_of_none hs (if_neg h)]
      simp only [h, if_false]

/-- How a unit goes on after its first token. -/
def unitBranch (nested : Parser Expr) (token : Token) : Option (Parser Expr) :=
  match unit? token with
  | some tree => some (pure tree)
  | none => if token.kind = .symbol .leftParen then some (grouping nested token) else none

theorem primary_eq (nested : Parser Expr) :
    primary nested = byHead (unitBranch nested) (failHere .expectedExpression) := by
  funext s
  cases hs : s.rest with
  | nil => rw [byHead_of_end hs, primary, hs]
  | cons token rest =>
    simp only [primary, byHead, unitBranch, hs, unit?, ← State.advance_of_rest hs]
    split <;> simp_all <;> rfl

/-- How a statement goes on after its first token. -/
def statementBranch (steps : Nat) (expr : Parser Expr) (statement : Parser Stmt)
    (declaration : Parser (Option Stmt)) (token : Token) : Option (Parser Stmt) :=
  match token.kind with
  | .keyword .forWord => some (forStatement expr statement token.span.start)
  | .keyword .ifWord => some (ifStatement expr statement token.span.start)
  | .keyword .printWord => some (printStatement expr token.span.start)
  | .keyword .returnWord => some (returnStatement expr token.span)
  | .keyword .whileWord => some (whileStatement expr statement token.span.start)
  | .symbol .leftBrace => some (blockStatement steps declaration token.span.start)
  | _ => none

theorem statementOf_eq (steps : Nat) (expr : Parser Expr) (statement : Parser Stmt)
    (declaration : Parser (Option Stmt)) :
    statementOf steps expr statement declaration =
      byHead (statementBranch steps expr statement declaration) (exprStatement expr) := by
  funext s
  cases hs : s.rest with
  | nil => rw [byHead_of_end hs, statementOf, hs]
  | cons token rest =>
    simp only [statementOf, byHead, statementBranch, hs, ← State.advance_of_rest hs]
    split <;> simp_all

/-- How a declaration goes on after its first token. -/
def declarationBranch (steps : Nat) (expr : Parser Expr) (statement : Parser Stmt)
    (declaration : Parser (Option Stmt)) (token : Token) : Option (Parser Stmt) :=
  match token.kind with
  | .keyword .funcWord => some (funcDeclaration steps declaration token.span.start)
  | .keyword .varWord => some (varDeclaration expr token.span.start)
  | _ => statementBranch steps expr statement declaration token

theorem declarationOf_eq (steps : Nat) (expr : Parser Expr) (statement : Parser Stmt)
    (declaration : Parser (Option Stmt)) :
    declarationOf steps expr statement declaration =
      recover (byHead (declarationBranch steps expr statement declaration)
        (exprStatement expr)) := by
  rw [declarationOf]
  congr 1
  funext s
  cases hs : s.rest with
  | nil => rw [byHead_of_end hs, statementOf_eq, byHead_of_end hs]
  | cons token rest =>
    simp only [byHead, declarationBranch, hs, statementOf_eq, ← State.advance_of_rest hs]
    split <;> simp_all

/-- The parser of a declaration, without what recovers from its faults. -/
def declarationBody (k : Nat) : Parser Stmt :=
  byHead (declarationBranch (k + 1) (expression (k + 1)) (statement k) (declaration k))
    (exprStatement (expression (k + 1)))

theorem declaration_succ (k : Nat) : declaration (k + 1) = recover (declarationBody k) := by
  funext s
  rw [declaration, declarationOf_eq]
  rfl

theorem statement_succ (k : Nat) :
    statement (k + 1) =
      byHead (statementBranch (k + 1) (expression (k + 1)) (statement k) (declaration k))
        (exprStatement (expression (k + 1))) := by
  funext s
  rw [statement, statementOf_eq]

end Parser

end BlockScript
