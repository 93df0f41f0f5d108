import BlockScript.Parser.Statement

/-!
# The grammar

Which sequences of tokens are programs, and what tree each of them stands for. The rules are

```
program     → declaration*
declaration → funcDecl | varDecl | statement
funcDecl    → "func" IDENT "(" params? ")" block
varDecl     → "var" IDENT ( "=" expression )? ";"
statement   → exprStmt | forStmt | ifStmt | printStmt | returnStmt | whileStmt | block
forStmt     → "for" "(" ( varDecl | exprStmt | ";" ) expression? ";" expression? ")" statement
ifStmt      → "if" "(" expression ")" statement ( "else" statement )?
exprStmt    → expression ";"
printStmt   → "print" expression ";"
returnStmt  → "return" expression? ";"
whileStmt   → "while" "(" expression ")" statement
block       → "{" declaration* "}"
expression  → assignment
assignment  → IDENT "=" assignment | logic_or
logic_or    → logic_and ( "or" logic_and )*        (and so on, down to unary)
unary       → ( "!" | "-" ) unary | call
call        → primary ( "(" arguments? ")" )*
arguments   → expression ( "," expression )*        (and params → IDENT ( "," IDENT )*)
primary     → "true" | "false" | "nil" | NUMBER | STRING | IDENT | "(" expression ")"
```

with three conditions beside them: a call has at most `maxItems` arguments, a function at most
`maxItems` parameters, and a `return` stands inside a function.

## Repetition

A starred part of a rule is a list, and its tree is the left fold of that list. A separate
relation for each starred part would make the rules mutually recursive without adding anything:
what is said of a list is said of each of its members.

## The ambiguity

The rules alone do not say which `if` an `else` belongs to. A statement is *open* if an `else` after
it could belong to an `if` inside it. `Statement` takes as a parameter which statements may stand
between an `if` and its `else`: all of them in the rules as they are written, `anyIf`, and those
that are not open if each `else` belongs to the nearest `if`, `nearestIf`.

## Main definitions

* `Grammar.Expression` — the words that are expressions, with their trees
* `Grammar.Statement` — the words that are declarations and statements, with their trees
* `Grammar.Program` — the words that are programs, with their trees
-/

namespace BlockScript

namespace Grammar

open BlockScript.Parser (Joint maxItems)

/-! ## Expressions -/

/-- One level of binary operators: the tokens, each with the node it makes. -/
abbrev Level := List (Token.Kind × Joint)

/-- The levels of binary operators, the loosest first: `logic_or`, `logic_and`, `equality`,
`comparison`, `term` and `factor`. -/
def precedence : List Level :=
  [[(.keyword .orWord, .logical .or)],
    [(.keyword .andWord, .logical .and)],
    [(.symbol .bangEqual, .binary .notEqual), (.symbol .equalEqual, .binary .equal)],
    [(.symbol .greater, .binary .greater), (.symbol .greaterEqual, .binary .greaterEqual),
      (.symbol .less, .binary .less), (.symbol .lessEqual, .binary .lessEqual)],
    [(.symbol .minus, .binary .subtract), (.symbol .plus, .binary .add)],
    [(.symbol .slash, .binary .divide), (.symbol .star, .binary .multiply)]]

/-- What a rule for expressions can be about. The levels of `binary` are those from here on:
`binary precedence` is `logic_or`, and `binary []` is `unary`. -/
inductive ExprSymbol where
  | assignment
  | binary (levels : List Level)
  | unary
  | call
  | primary

/-- The constant that a literal token stands for. -/
def constant : Literal → Constant
  | .number value => .number value
  | .text value => .text value

/-- The words of a list, in order, with commas between them. -/
inductive Separated : List (List Token) → List Token → Prop where
  | none : Separated [] []
  | one (words : List Token) : Separated [words] words
  | more {comma : Token} {words others : List Token} {items : List (List Token)}
      (hcomma : comma.kind = .symbol .comma) (hitems : items ≠ [])
      (hothers : Separated items others) : Separated (words :: items) (words ++ comma :: others)

theorem Separated.cons_cases {words all : List Token} {items : List (List Token)}
    (h : Separated (words :: items) all) :
    (items = [] ∧ all = words) ∨
      ∃ comma others, comma.kind = .symbol .comma ∧ items ≠ [] ∧ Separated items others ∧
        all = words ++ comma :: others := by
  cases h with
  | one => exact .inl ⟨rfl, rfl⟩
  | more hcomma hitems hothers => exact .inr ⟨_, _, hcomma, hitems, hothers, rfl⟩

/-- An operator and the operand to its right. -/
structure Operation where
  operator : Token
  joint : Joint
  words : List Token
  right : Expr

/-- The words of an operation. -/
def Operation.all (o : Operation) : List Token := o.operator :: o.words

/-- An operand on the left joined with an operation. -/
def Operation.apply (left : Expr) (o : Operation) : Expr :=
  match o.joint with
  | .binary op => .binary (left.span.through o.right.span) op left o.right
  | .logical op => .logical (left.span.through o.right.span) op left o.right

/-- The parser makes the same trees. -/
theorem Operation.apply_eq_join (left : Expr) (o : Operation) :
    o.apply left = o.joint.join left o.right := by
  obtain ⟨operator, joint, words, right⟩ := o
  cases joint <;> rfl

/-- A list of arguments in parentheses. Each argument is kept with its words. -/
structure Arguments where
  opening : Token
  items : List (List Token × Expr)
  words : List Token
  closing : Token

/-- The words of an argument list, with the parentheses. -/
def Arguments.all (a : Arguments) : List Token := a.opening :: a.words ++ [a.closing]

/-- The call of an expression with an argument list. -/
def Arguments.apply (callee : Expr) (a : Arguments) : Expr :=
  .call (callee.span.through a.closing.span) a.closing.span callee (a.items.map Prod.snd)

/-- `Expression symbol words tree`: the rules for `symbol` derive `words`, and `tree` is what they
stand for. Every node spans its words from the first to the last. -/
inductive Expression : ExprSymbol → List Token → Expr → Prop where
  -- assignment → IDENT "=" assignment | logic_or
  | assign {target equals : Token} {words : List Token} {value : Expr}
      (htarget : target.kind = .identifier) (hequals : equals.kind = .symbol .equal)
      (hvalue : Expression .assignment words value) :
      Expression .assignment (target :: equals :: words)
        (.assign (target.span.through value.span) target.lexeme value)
  | operand {words : List Token} {tree : Expr} (h : Expression (.binary precedence) words tree) :
      Expression .assignment words tree
  -- a level → tighter ( operator tighter )*
  | level {level : Level} {tighter : List Level} {words : List Token} {first : Expr}
      {operations : List Operation} (hfirst : Expression (.binary tighter) words first)
      (hoperators : ∀ o ∈ operations, (o.operator.kind, o.joint) ∈ level)
      (hoperands : ∀ o ∈ operations, Expression (.binary tighter) o.words o.right) :
      Expression (.binary (level :: tighter)) (words ++ operations.flatMap Operation.all)
        (operations.foldl Operation.apply first)
  | tightest {words : List Token} {tree : Expr} (h : Expression .unary words tree) :
      Expression (.binary []) words tree
  -- unary → ( "!" | "-" ) unary | call
  | not {operator : Token} {words : List Token} {operand : Expr}
      (hoperator : operator.kind = .symbol .bang) (hoperand : Expression .unary words operand) :
      Expression .unary (operator :: words)
        (.unary (operator.span.through operand.span) .not operand)
  | negate {operator : Token} {words : List Token} {operand : Expr}
      (hoperator : operator.kind = .symbol .minus) (hoperand : Expression .unary words operand) :
      Expression .unary (operator :: words)
        (.unary (operator.span.through operand.span) .negate operand)
  | unaryCall {words : List Token} {tree : Expr} (h : Expression .call words tree) :
      Expression .unary words tree
  -- call → primary ( "(" arguments? ")" )*
  | call {words : List Token} {callee : Expr} {calls : List Arguments}
      (hcallee : Expression .primary words callee)
      (hopening : ∀ c ∈ calls, c.opening.kind = .symbol .leftParen)
      (hitems : ∀ c ∈ calls, ∀ i ∈ c.items, Expression .assignment i.1 i.2)
      (hwords : ∀ c ∈ calls, Separated (c.items.map Prod.fst) c.words)
      (hcount : ∀ c ∈ calls, c.items.length ≤ maxItems)
      (hclosing : ∀ c ∈ calls, c.closing.kind = .symbol .rightParen) :
      Expression .call (words ++ calls.flatMap Arguments.all) (calls.foldl Arguments.apply callee)
  -- primary → "true" | "false" | "nil" | NUMBER | STRING | IDENT | "(" expression ")"
  | true {token : Token} (h : token.kind = .keyword .trueWord) :
      Expression .primary [token] (.literal token.span (.bool true))
  | false {token : Token} (h : token.kind = .keyword .falseWord) :
      Expression .primary [token] (.literal token.span (.bool false))
  | nil {token : Token} (h : token.kind = .keyword .nilWord) :
      Expression .primary [token] (.literal token.span .nil)
  | literal {token : Token} {literal : Literal} (h : token.kind = .number ∨ token.kind = .string)
      (hliteral : token.literal = some literal) :
      Expression .primary [token] (.literal token.span (constant literal))
  | ident {token : Token} (h : token.kind = .identifier) :
      Expression .primary [token] (.ident token.span token.lexeme)
  | group {opening closing : Token} {words : List Token} {inner : Expr}
      (hopening : opening.kind = .symbol .leftParen) (hinner : Expression .assignment words inner)
      (hclosing : closing.kind = .symbol .rightParen) :
      Expression .primary (opening :: words ++ [closing])
        (.group (opening.span.through closing.span) inner)

/-! ## Statements -/

/-- What is left out, or an expression. -/
inductive OptionalExpression : List Token → Option Expr → Prop where
  | none : OptionalExpression [] none
  | some {words : List Token} {tree : Expr} (h : Expression .assignment words tree) :
      OptionalExpression words (some tree)

/-- The value of a variable declaration, with the equals sign before it, if there is one. -/
inductive InitialValue : List Token → Option Expr → Prop where
  | none : InitialValue [] none
  | some {equals : Token} {words : List Token} {tree : Expr}
      (hequals : equals.kind = .symbol .equal) (h : Expression .assignment words tree) :
      InitialValue (equals :: words) (some tree)

/-- varDecl → "var" IDENT ( "=" expression )? ";" -/
inductive VarDecl : List Token → Stmt → Prop where
  | mk {keyword name semicolon : Token} {words : List Token} {value : Option Expr}
      (hkeyword : keyword.kind = .keyword .varWord) (hname : name.kind = .identifier)
      (hvalue : InitialValue words value) (hsemicolon : semicolon.kind = .symbol .semicolon) :
      VarDecl (keyword :: name :: words ++ [semicolon])
        (.var (keyword.span.through semicolon.span) name.lexeme value)

/-- exprStmt → expression ";" -/
inductive ExprStmt : List Token → Stmt → Prop where
  | mk {words : List Token} {semicolon : Token} {value : Expr}
      (hvalue : Expression .assignment words value)
      (hsemicolon : semicolon.kind = .symbol .semicolon) :
      ExprStmt (words ++ [semicolon]) (.expr (value.span.through semicolon.span) value)

/-- The first clause of a `for` loop: varDecl | exprStmt | ";" -/
inductive ForInitial : List Token → Option Stmt → Prop where
  | none {semicolon : Token} (h : semicolon.kind = .symbol .semicolon) :
      ForInitial [semicolon] none
  | var {words : List Token} {tree : Stmt} (h : VarDecl words tree) : ForInitial words (some tree)
  | expr {words : List Token} {tree : Stmt} (h : ExprStmt words tree) :
      ForInitial words (some tree)

/-- What a `for` loop stands for: a block of the first clause and a `while` loop, whose body is a
block of the loop's body and its last clause. A condition that is left out is `true`, at the
semicolon that stands in its place. -/
def forTree (span : Span) (init : Option Stmt) (cond : Option Expr) (semicolon : Token)
    (step : Option Expr) (body : Stmt) : Stmt :=
  .block span
    (init.toList ++
      [.whileDo span (cond.getD (.literal semicolon.span (.bool true)))
        (.block span (body :: (step.map fun e => Stmt.expr e.span e).toList))])

/-- What a rule for statements can be about. An open statement is one that ends with an `if`
without an `else`, so that an `else` after it could belong to that `if`. -/
inductive StmtSymbol where
  | declaration
  | statement (isOpen : Bool)

/-- An `else` may belong to any `if` before it. -/
def anyIf (_ : Bool) : Prop := True

/-- An `else` belongs to the nearest `if`: no open statement stands between them. -/
def nearestIf (isOpen : Bool) : Prop := isOpen = false

/-- `Statement attaches symbol inside words tree`: the rules for `symbol` derive `words`, and `tree`
is what they stand for. `inside` tells whether a function is around the words, and `attaches`
whether an `else` may follow an open or a closed statement. -/
inductive Statement (attaches : Bool → Prop) :
    StmtSymbol → (inside : Bool) → List Token → Stmt → Prop where
  -- declaration → funcDecl | varDecl | statement
  | funcDecl {inside : Bool} {keyword name opening closing left right : Token}
      {params words : List Token} {body : List (List Token × Stmt)}
      (hkeyword : keyword.kind = .keyword .funcWord) (hname : name.kind = .identifier)
      (hopening : opening.kind = .symbol .leftParen)
      (hparams : ∀ p ∈ params, p.kind = .identifier)
      (hwords : Separated (params.map ([·])) words) (hcount : params.length ≤ maxItems)
      (hclosing : closing.kind = .symbol .rightParen) (hleft : left.kind = .symbol .leftBrace)
      (hbody : ∀ d ∈ body, Statement attaches .declaration true d.1 d.2)
      (hright : right.kind = .symbol .rightBrace) :
      Statement attaches .declaration inside
        (keyword :: name :: opening :: words ++ closing :: left :: body.flatMap Prod.fst ++ [right])
        (.func (keyword.span.through right.span) name.lexeme (params.map Token.lexeme)
          (body.map Prod.snd))
  | varDecl {inside : Bool} {words : List Token} {tree : Stmt} (h : VarDecl words tree) :
      Statement attaches .declaration inside words tree
  | statement {inside isOpen : Bool} {words : List Token} {tree : Stmt}
      (h : Statement attaches (.statement isOpen) inside words tree) :
      Statement attaches .declaration inside words tree
  -- statement → exprStmt | forStmt | ifStmt | printStmt | returnStmt | whileStmt | block
  | exprStmt {inside : Bool} {words : List Token} {tree : Stmt} (h : ExprStmt words tree) :
      Statement attaches (.statement false) inside words tree
  | forStmt {inside isOpen : Bool} {keyword opening semicolon closing : Token}
      {initWords condWords stepWords words : List Token} {init : Option Stmt}
      {cond step : Option Expr} {body : Stmt} (hkeyword : keyword.kind = .keyword .forWord)
      (hopening : opening.kind = .symbol .leftParen) (hinit : ForInitial initWords init)
      (hcond : OptionalExpression condWords cond)
      (hsemicolon : semicolon.kind = .symbol .semicolon)
      (hstep : OptionalExpression stepWords step) (hclosing : closing.kind = .symbol .rightParen)
      (hbody : Statement attaches (.statement isOpen) inside words body) :
      Statement attaches (.statement isOpen) inside
        (keyword :: opening :: initWords ++ condWords ++ semicolon :: stepWords ++
          closing :: words)
        (forTree (keyword.span.through body.span) init cond semicolon step body)
  | ifThen {inside isOpen : Bool} {keyword opening closing : Token}
      {condWords words : List Token} {cond : Expr} {yes : Stmt}
      (hkeyword : keyword.kind = .keyword .ifWord) (hopening : opening.kind = .symbol .leftParen)
      (hcond : Expression .assignment condWords cond)
      (hclosing : closing.kind = .symbol .rightParen)
      (hyes : Statement attaches (.statement isOpen) inside words yes) :
      Statement attaches (.statement true) inside
        (keyword :: opening :: condWords ++ closing :: words)
        (.ifThen (keyword.span.through yes.span) cond yes)
  | ifElse {inside isOpen isOpen' : Bool} {keyword opening closing other : Token}
      {condWords words words' : List Token} {cond : Expr} {yes no : Stmt}
      (hkeyword : keyword.kind = .keyword .ifWord) (hopening : opening.kind = .symbol .leftParen)
      (hcond : Expression .assignment condWords cond)
      (hclosing : closing.kind = .symbol .rightParen)
      (hyes : Statement attaches (.statement isOpen) inside words yes) (hopen : attaches isOpen)
      (hother : other.kind = .keyword .elseWord)
      (hno : Statement attaches (.statement isOpen') inside words' no) :
      Statement attaches (.statement isOpen') inside
        (keyword :: opening :: condWords ++ closing :: words ++ other :: words')
        (.ifElse (keyword.span.through no.span) cond yes no)
  | printStmt {inside : Bool} {keyword semicolon : Token} {words : List Token} {value : Expr}
      (hkeyword : keyword.kind = .keyword .printWord)
      (hvalue : Expression .assignment words value)
      (hsemicolon : semicolon.kind = .symbol .semicolon) :
      Statement attaches (.statement false) inside (keyword :: words ++ [semicolon])
        (.print (keyword.span.through semicolon.span) value)
  | returnStmt {keyword semicolon : Token} {words : List Token} {value : Option Expr}
      (hkeyword : keyword.kind = .keyword .returnWord) (hvalue : OptionalExpression words value)
      (hsemicolon : semicolon.kind = .symbol .semicolon) :
      Statement attaches (.statement false) true (keyword :: words ++ [semicolon])
        (.ret (keyword.span.through semicolon.span) value)
  | whileStmt {inside isOpen : Bool} {keyword opening closing : Token}
      {condWords words : List Token} {cond : Expr} {body : Stmt}
      (hkeyword : keyword.kind = .keyword .whileWord)
      (hopening : opening.kind = .symbol .leftParen)
      (hcond : Expression .assignment condWords cond)
      (hclosing : closing.kind = .symbol .rightParen)
      (hbody : Statement attaches (.statement isOpen) inside words body) :
      Statement attaches (.statement isOpen) inside
        (keyword :: opening :: condWords ++ closing :: words)
        (.whileDo (keyword.span.through body.span) cond body)
  | block {inside : Bool} {left right : Token} {body : List (List Token × Stmt)}
      (hleft : left.kind = .symbol .leftBrace)
      (hbody : ∀ d ∈ body, Statement attaches .declaration inside d.1 d.2)
      (hright : right.kind = .symbol .rightBrace) :
      Statement attaches (.statement false) inside (left :: body.flatMap Prod.fst ++ [right])
        (.block (left.span.through right.span) (body.map Prod.snd))

/-- `Program attaches words program`: the words are a program, and `program` is its tree. -/
def Program (attaches : Bool → Prop) (words : List Token) (program : BlockScript.Program) : Prop :=
  ∃ parts : List (List Token × Stmt),
    (∀ d ∈ parts, Statement attaches .declaration false d.1 d.2) ∧
      words = parts.flatMap Prod.fst ∧ program = parts.map Prod.snd

/-! ## First words

A word of the grammar is never empty, and its first token tells it apart from what may stand in its
place: a closing bracket, a semicolon or an `else`. -/

/-- The kinds of tokens that an expression can begin with. -/
def startsExpression : Token.Kind → Bool
  | .identifier | .number | .string | .keyword .trueWord | .keyword .falseWord
  | .keyword .nilWord | .symbol .leftParen | .symbol .bang | .symbol .minus => true
  | _ => false

/-- The kinds of tokens that a declaration or a statement can begin with. -/
def StmtSymbol.starts : StmtSymbol → Token.Kind → Bool
  | _, .keyword .forWord | _, .keyword .ifWord | _, .keyword .printWord
  | _, .keyword .returnWord | _, .keyword .whileWord | _, .symbol .leftBrace => true
  | .declaration, .keyword .funcWord | .declaration, .keyword .varWord => true
  | _, kind => startsExpression kind

/-- Whether the words are not empty and begin with a token of a kind that `p` holds of. -/
def StartsWith (p : Token.Kind → Bool) (words : List Token) : Prop :=
  ∃ token rest, words = token :: rest ∧ p token.kind = true

theorem StartsWith.cons {p : Token.Kind → Bool} {token : Token} (h : p token.kind = true)
    (rest : List Token) : StartsWith p (token :: rest) := ⟨token, rest, rfl, h⟩

theorem StartsWith.append {p : Token.Kind → Bool} {words : List Token} (h : StartsWith p words)
    (rest : List Token) : StartsWith p (words ++ rest) := by
  obtain ⟨token, words, rfl, htoken⟩ := h
  exact .cons htoken _

theorem StartsWith.imp {p q : Token.Kind → Bool} {words : List Token} (h : StartsWith p words)
    (hpq : ∀ kind, p kind = true → q kind = true) : StartsWith q words := by
  obtain ⟨token, rest, rfl, htoken⟩ := h
  exact .cons (hpq _ htoken) rest

theorem StartsWith.length_pos {p : Token.Kind → Bool} {words : List Token}
    (h : StartsWith p words) : 0 < words.length := by
  obtain ⟨token, rest, rfl, -⟩ := h
  exact Nat.succ_pos _

theorem Expression.starts {symbol : ExprSymbol} {words : List Token} {tree : Expr}
    (h : Expression symbol words tree) : StartsWith startsExpression words := by
  induction h with
  | assign htarget => exact .cons (by rw [htarget]; rfl) _
  | operand _ ih => exact ih
  | level _ _ _ ih => exact ih.append _
  | tightest _ ih => exact ih
  | not hoperator => exact .cons (by rw [hoperator]; rfl) _
  | negate hoperator => exact .cons (by rw [hoperator]; rfl) _
  | unaryCall _ ih => exact ih
  | call _ _ _ _ _ _ ih => exact ih.append _
  | true h => exact .cons (by rw [h]; rfl) _
  | false h => exact .cons (by rw [h]; rfl) _
  | nil h => exact .cons (by rw [h]; rfl) _
  | literal h => exact .cons (by rcases h with h | h <;> rw [h] <;> rfl) _
  | ident h => exact .cons (by rw [h]; rfl) _
  | group hopening => exact .cons (by rw [hopening]; rfl) _

theorem StmtSymbol.starts_of_startsExpression (symbol : StmtSymbol) {kind : Token.Kind}
    (h : startsExpression kind = true) : symbol.starts kind = true := by
  unfold starts
  split <;> first | rfl | exact h

theorem ExprStmt.starts {words : List Token} {tree : Stmt} (h : ExprStmt words tree) :
    StartsWith startsExpression words := by
  cases h with
  | mk hvalue => exact hvalue.starts.append _

theorem Statement.starts {attaches : Bool → Prop} {symbol : StmtSymbol} {inside : Bool}
    {words : List Token} {tree : Stmt} (h : Statement attaches symbol inside words tree) :
    StartsWith symbol.starts words := by
  induction h with
  | funcDecl hkeyword => exact .cons (by rw [hkeyword]; rfl) _
  | varDecl h => cases h with | mk hkeyword => exact .cons (by rw [hkeyword]; rfl) _
  | statement _ ih => exact ih.imp fun kind hkind => by unfold StmtSymbol.starts at *; grind
  | exprStmt h => exact h.starts.imp fun _ => StmtSymbol.starts_of_startsExpression _
  | forStmt hkeyword => exact .cons (by rw [hkeyword]; rfl) _
  | ifThen hkeyword => exact .cons (by rw [hkeyword]; rfl) _
  | ifElse hkeyword => exact .cons (by rw [hkeyword]; rfl) _
  | printStmt hkeyword => exact .cons (by rw [hkeyword]; rfl) _
  | returnStmt hkeyword => exact .cons (by rw [hkeyword]; rfl) _
  | whileStmt hkeyword => exact .cons (by rw [hkeyword]; rfl) _
  | block hleft => exact .cons (by rw [hleft]; rfl) _

end Grammar

end BlockScript
