import BlockScript.Proofs.Locality

/-!
# Stretches without braces

Whatever its input is, a parser of expressions takes no semicolon and no brace from it, and it
closes each parenthesis that it opens before it gives a value. If it breaks off, then inside of some
parentheses perhaps, but never after more closing than opening ones. The same can be said of all
that a statement has before the statements inside of it. The faults that are recorded by then are
ones that do not break anything off, at tokens that were there.

So even for an input that follows no grammar, it is known which tokens such a stretch is made of.

## Main definitions

* `surplus` — how many more of one symbol than of another there are among tokens
* `Stretch`, `Begun` — words without braces, with what they have of parentheses and semicolons
* `OneLine`, `Header`, `Opening` — the stretches that a statement ends or starts with
* `Parser.Spells` — which words a parser takes

## Main results

* `Parser.balanced_expression` — the words of an expression
* `Parser.spells_exprStatement`, `Parser.spells_varDeclaration` and others — the words of a
  statement of one line
* `Parser.spells_condition`, `Parser.spells_forHeader`, `Parser.spells_funcHeader` — the words
  before the body of a statement or of a function
-/

namespace BlockScript

/-- The faults that the parser records while it goes on. -/
def Fault.goesOn : Fault → Bool
  | .invalidTarget | .returnOutsideFunction | .tooManyArguments _ | .tooManyParameters _ => true
  | _ => false

/-! ## Words, their parentheses and their semicolons -/

/-- How many more tokens are the first symbol than are the second one. -/
def surplus (opening closing : Symbol) : List Token → Int
  | [] => 0
  | token :: rest =>
    (if token.kind = .symbol opening then 1 else if token.kind = .symbol closing then -1 else 0) +
      surplus opening closing rest

section

variable {opening closing : Symbol}

@[simp] theorem surplus_nil : surplus opening closing [] = 0 := rfl

@[simp] theorem surplus_append (words words' : List Token) :
    surplus opening closing (words ++ words') =
      surplus opening closing words + surplus opening closing words' := by
  induction words with
  | nil => simp
  | cons token words ih => simp only [List.cons_append, surplus, ih, Int.add_assoc]

theorem surplus_eq_zero {words : List Token}
    (h : ∀ token ∈ words, token.kind ≠ .symbol opening ∧ token.kind ≠ .symbol closing) :
    surplus opening closing words = 0 := by
  induction words with
  | nil => rfl
  | cons token words ih =>
    obtain ⟨⟨hopening, hclosing⟩, hwords⟩ := List.forall_mem_cons.mp h
    simp [surplus, hopening, hclosing, ih hwords]

end

/-- How many more parentheses the words open than they close. -/
def parens (words : List Token) : Int := surplus .leftParen .rightParen words

/-- How many semicolons there are. -/
def semicolons (words : List Token) : Nat := words.countP (·.kind = .symbol .semicolon)

@[simp] theorem parens_nil : parens [] = 0 := rfl

@[simp] theorem parens_append (words words' : List Token) :
    parens (words ++ words') = parens words + parens words' := surplus_append words words'

@[simp] theorem semicolons_nil : semicolons [] = 0 := rfl

@[simp] theorem semicolons_append (words words' : List Token) :
    semicolons (words ++ words') = semicolons words + semicolons words' := List.countP_append

/-- The words hold no brace. -/
def Braceless (words : List Token) : Prop :=
  ∀ token ∈ words, token.kind ≠ .symbol .leftBrace ∧ token.kind ≠ .symbol .rightBrace

@[simp] theorem braceless_nil : Braceless [] := fun _ h => absurd h List.not_mem_nil

@[simp] theorem braceless_append {words words' : List Token} :
    Braceless (words ++ words') ↔ Braceless words ∧ Braceless words' :=
  List.forall_mem_append

/-- Words without braces that open `k` more parentheses than they close, with `m` semicolons. -/
structure Stretch (k : Int) (m : Nat) (words : List Token) : Prop where
  braceless : Braceless words
  parens : parens words = k
  semicolons : semicolons words = m

/-- Words without braces that open at least `k` more parentheses than they close, with at most `m`
semicolons. -/
structure Begun (k : Int) (m : Nat) (words : List Token) : Prop where
  braceless : Braceless words
  parens : k ≤ parens words
  semicolons : semicolons words ≤ m

section

variable {k j : Int} {m l : Nat} {words words' : List Token} {token : Token}

theorem Stretch.nil : Stretch 0 0 [] := ⟨braceless_nil, rfl, rfl⟩

theorem Begun.nil : Begun 0 0 [] := ⟨braceless_nil, Int.le_refl 0, Nat.le_refl 0⟩

theorem Stretch.append (h : Stretch k m words) (h' : Stretch j l words') :
    Stretch (k + j) (m + l) (words ++ words') :=
  ⟨braceless_append.mpr ⟨h.braceless, h'.braceless⟩, by rw [parens_append, h.parens, h'.parens],
    by rw [semicolons_append, h.semicolons, h'.semicolons]⟩

theorem Stretch.append_begun (h : Stretch k m words) (h' : Begun j l words') :
    Begun (k + j) (m + l) (words ++ words') :=
  ⟨braceless_append.mpr ⟨h.braceless, h'.braceless⟩, by
    rw [parens_append, h.parens]
    exact Int.add_le_add_left h'.parens k, by
    rw [semicolons_append, h.semicolons]
    exact Nat.add_le_add_left h'.semicolons m⟩

theorem Begun.mono (h : Begun k m words) (hk : j ≤ k) (hm : m ≤ l) : Begun j l words :=
  ⟨h.braceless, Int.le_trans hk h.parens, Nat.le_trans h.semicolons hm⟩

/-- What a kind of token adds to the parentheses. -/
def Token.Kind.parens : Token.Kind → Int
  | .symbol .leftParen => 1
  | .symbol .rightParen => -1
  | _ => 0

/-- What a kind of token adds to the semicolons. -/
def Token.Kind.semicolons : Token.Kind → Nat
  | .symbol .semicolon => 1
  | _ => 0

/-- The kinds of tokens that are neither braces nor parentheses nor semicolons. -/
structure Token.Kind.Plain (kind : Token.Kind) : Prop where
  left : kind ≠ .symbol .leftBrace
  right : kind ≠ .symbol .rightBrace
  parens : kind.parens = 0
  semicolons : kind.semicolons = 0

theorem parens_cons (token : Token) (words : List Token) :
    parens (token :: words) = token.kind.parens + parens words := by
  simp only [parens, surplus, Token.Kind.parens]
  grind

/-- A single token that is no brace is a stretch. -/
theorem Stretch.single (token : Token) (hleft : token.kind ≠ .symbol .leftBrace)
    (hright : token.kind ≠ .symbol .rightBrace) :
    Stretch token.kind.parens token.kind.semicolons [token] := by
  refine ⟨List.forall_mem_singleton.mpr ⟨hleft, hright⟩, ?_, ?_⟩
  · rw [parens_cons, parens_nil, Int.add_zero]
  · simp only [BlockScript.semicolons, List.countP_singleton, Token.Kind.semicolons]
    split <;> simp_all

theorem Token.Kind.Plain.stretch (h : token.kind.Plain) : Stretch 0 0 [token] := by
  have := Stretch.single token h.left h.right
  rwa [h.parens, h.semicolons] at this

theorem stretch_keyword {word : Keyword} (h : token.kind = .keyword word) :
    Stretch 0 0 [token] := by
  have := Stretch.single token (by simp [h]) (by simp [h])
  rwa [h] at this

theorem stretch_leftParen (h : token.kind = .symbol .leftParen) : Stretch 1 0 [token] := by
  have := Stretch.single token (by simp [h]) (by simp [h])
  rwa [h] at this

theorem stretch_rightParen (h : token.kind = .symbol .rightParen) : Stretch (-1) 0 [token] := by
  have := Stretch.single token (by simp [h]) (by simp [h])
  rwa [h] at this

theorem stretch_semicolon (h : token.kind = .symbol .semicolon) : Stretch 0 1 [token] := by
  have := Stretch.single token (by simp [h]) (by simp [h])
  rwa [h] at this

end

/-- Words that end with their only semicolon, where all parentheses are closed. -/
def OneLine (words : List Token) : Prop :=
  ∃ front semicolon, words = front ++ [semicolon] ∧ Stretch 0 0 front ∧
    semicolon.kind = .symbol .semicolon

/-- What a statement has before the statement inside of it: the last word is a closing
parenthesis. -/
def Header (words : List Token) : Prop :=
  ∃ front closing, words = front ++ [closing] ∧ Braceless front ∧
    closing.kind = .symbol .rightParen

/-- What comes before the declarations of a block: the last word is the opening brace. -/
def Opening (words : List Token) : Prop :=
  ∃ front brace, words = front ++ [brace] ∧ Braceless front ∧ brace.kind = .symbol .leftBrace

/-- What was taken when a stretch broke off. Only inside of the parentheses of a loop there can be
semicolons then. -/
def Broken (words : List Token) : Prop := Begun 0 0 words ∨ Begun 1 2 words

theorem Stretch.append_line {words words' : List Token} (h : Stretch 0 0 words)
    (h' : OneLine words') : OneLine (words ++ words') := by
  obtain ⟨front, semicolon, rfl, hfront, hsemicolon⟩ := h'
  exact ⟨words ++ front, semicolon, by simp, h.append hfront, hsemicolon⟩

theorem OneLine.stretch {words : List Token} (h : OneLine words) : Stretch 0 1 words := by
  obtain ⟨front, semicolon, rfl, hfront, hsemicolon⟩ := h
  exact hfront.append (stretch_semicolon hsemicolon)

theorem Broken.braceless {words : List Token} (h : Broken words) : Braceless words := by
  obtain h | h := h
  · exact h.braceless
  · exact h.braceless

theorem Broken.prepend {words words' : List Token} (h' : Broken words') (h : Stretch 0 0 words) :
    Broken (words ++ words') := by
  obtain h' | h' := h'
  · exact .inl (h.append_begun h')
  · exact .inr ((h.append_begun h').mono (Int.le_refl 1) (Nat.le_refl 2))

theorem Header.prepend {words words' : List Token} (h' : Header words') (h : Braceless words) :
    Header (words ++ words') := by
  obtain ⟨front, closing, rfl, hfront, hclosing⟩ := h'
  exact ⟨words ++ front, closing, by simp, braceless_append.mpr ⟨h, hfront⟩, hclosing⟩

theorem Header.braceless {words : List Token} (h : Header words) : Braceless words := by
  obtain ⟨front, closing, rfl, hfront, hclosing⟩ := h
  exact braceless_append.mpr ⟨hfront, List.forall_mem_singleton.mpr (by simp [hclosing])⟩

theorem Opening.prepend {words words' : List Token} (h' : Opening words') (h : Braceless words) :
    Opening (words ++ words') := by
  obtain ⟨front, brace, rfl, hfront, hbrace⟩ := h'
  exact ⟨words ++ front, brace, by simp, braceless_append.mpr ⟨h, hfront⟩, hbrace⟩

namespace Parser

variable {α β : Type}

/-! ## What a parser takes -/

/-- On the way from `s` to `s'` the words were taken and the faults recorded. -/
structure Takes (s s' : State) (words : List Token) (new : List Located) : Prop where
  rest : s.rest = words ++ s'.rest
  finish : s'.finish = s.finish
  faults : s'.faults = s.faults ++ new

/-- Each of the faults is one that the parser goes on after, at one of the tokens. -/
def Placed (tokens : List Token) (new : List Located) : Prop :=
  ∀ fault ∈ new, fault.fault.goesOn = true ∧ ∃ token ∈ tokens, fault.span = token.span

theorem Placed.nil (tokens : List Token) : Placed tokens [] := fun _ h => absurd h List.not_mem_nil

theorem Placed.append {tokens : List Token} {new new' : List Located} (h : Placed tokens new)
    (h' : Placed tokens new') : Placed tokens (new ++ new') :=
  List.forall_mem_append.mpr ⟨h, h'⟩

theorem Takes.refl (s : State) : Takes s s [] [] :=
  ⟨rfl, rfl, (List.append_nil _).symm⟩

theorem Takes.trans {s s' s'' : State} {words words' : List Token} {new new' : List Located}
    (h : Takes s s' words new) (h' : Takes s' s'' words' new') :
    Takes s s'' (words ++ words') (new ++ new') :=
  ⟨by rw [h.rest, h'.rest, List.append_assoc], h'.finish.trans h.finish,
    by rw [h'.faults, h.faults, List.append_assoc]⟩

theorem Takes.suffix {s s' : State} {words : List Token} {new : List Located}
    (h : Takes s s' words new) : s'.rest <:+ s.rest := ⟨words, h.rest.symm⟩

theorem Takes.token {s : State} {token : Token} {rest : List Token} (hs : s.rest = token :: rest) :
    Takes s (s.after [token] rest) [token] [] :=
  ⟨hs, rfl, (List.append_nil _).symm⟩

theorem Takes.record (s : State) (fault : Located) : Takes s (s.record fault) [] [fault] :=
  ⟨rfl, rfl, rfl⟩

/-- What was taken on the way to a result: words of `done`, or words of `broken` if the parser broke
off. In the latter case what was recorded last may be about the end of the input. -/
def SpellsAt (tokens : List Token) (done broken : List Token → Prop) (s : State) :
    EStateM.Result Located State α → Prop
  | .ok _ s' => ∃ words new, Takes s s' words new ∧ Placed tokens new ∧ done words
  | .error fault s' => ∃ words new, Takes s s' words new ∧ (s'.rest ≠ [] → Placed tokens new) ∧
      broken words ∧ fault.span = s'.here ∧ fault.fault.breaksOff = true

/-- Somewhere in the tokens, the parser takes words of `done`, or it breaks off after words of
`broken`. -/
def Spells (tokens : List Token) (done broken : List Token → Prop) (p : Parser α) : Prop :=
  ∀ s, s.rest <:+ tokens → SpellsAt tokens done broken s (p s)

/-- More words were taken before. -/
theorem SpellsAt.prepend {tokens : List Token} {done done' broken broken' : List Token → Prop}
    {s s' : State} {words : List Token} {new : List Located} {r : EStateM.Result Located State α}
    (h : Takes s s' words new) (hplaced : s'.rest ≠ [] → Placed tokens new)
    (hr : SpellsAt tokens done broken s' r) (hok : ∀ a t, r = .ok a t → Placed tokens new)
    (hdone : ∀ words', done words' → done' (words ++ words'))
    (hbroken : ∀ words', broken words' → broken' (words ++ words')) :
    SpellsAt tokens done' broken' s r := by
  cases r with
  | ok a t =>
    obtain ⟨words', new', ht, hp, hd⟩ := hr
    exact ⟨words ++ words', new ++ new', h.trans ht, (hok a t rfl).append hp, hdone words' hd⟩
  | error fault t =>
    obtain ⟨words', new', ht, hp, hd, hplace⟩ := hr
    refine ⟨words ++ words', new ++ new', h.trans ht, fun hne => ?_, hbroken words' hd, hplace⟩
    have hne' : s'.rest ≠ [] := fun hend => hne (by
      have := ht.suffix
      rwa [hend, List.suffix_nil] at this)
    exact (hplaced hne').append (hp hne)

/-- A token was taken before. -/
theorem SpellsAt.cons {tokens : List Token} {done broken : List Token → Prop} {s : State}
    {token : Token} {rest : List Token} {r : EStateM.Result Located State α}
    (hs : s.rest = token :: rest)
    (hr : SpellsAt tokens (fun words => done (token :: words))
      (fun words => broken (token :: words)) (s.after [token] rest) r) :
    SpellsAt tokens done broken s r :=
  hr.prepend (.token hs) (fun _ => .nil _) (fun _ _ _ => .nil _) (fun _ h => h) fun _ h => h

/-- A parser that leaves everything as it is. -/
def Still (p : Parser α) : Prop := ∀ s, ∃ a, p s = .ok a s

theorem Still.pure (a : α) : Still (pure a : Parser α) := fun _ => ⟨a, rfl⟩

theorem Still.spanFrom_bind {start : Nat} {f : Span → Parser β} (hf : ∀ span, Still (f span)) :
    Still (spanFrom start >>= f) := fun s => hf ⟨start, s.lastStop⟩ s

/-- What comes after a parser and leaves everything as it is makes no difference but for the
value. -/
theorem Still.bind_cases {f : α → Parser β} (hf : ∀ a, Still (f a)) (p : Parser α) (s : State) :
    (∃ a b s', p s = .ok a s' ∧ (p >>= f) s = .ok b s') ∨
      ∃ fault s', p s = .error fault s' ∧ (p >>= f) s = .error fault s' := by
  rw [bind_apply]
  cases hr : p s with
  | ok a s' =>
    obtain ⟨b, hb⟩ := hf a s'
    exact .inl ⟨a, b, s', rfl, hb⟩
  | error fault s' => exact .inr ⟨fault, s', rfl, rfl⟩

/-- A parser that breaks off where there is no token. -/
def FailsAtEnd (p : Parser α) : Prop := ∀ s : State, s.rest = [] → ∃ fault s', p s = .error fault s'

theorem FailsAtEnd.failHere (fault : Fault) : FailsAtEnd (failHere fault : Parser α) :=
  fun s _ => ⟨_, s, rfl⟩

theorem FailsAtEnd.bind {p : Parser α} (hp : FailsAtEnd p) (f : α → Parser β) :
    FailsAtEnd (p >>= f) := fun s hs => by
  obtain ⟨fault, s', hr⟩ := hp s hs
  exact ⟨fault, s', by rw [bind_apply, hr]⟩

theorem FailsAtEnd.expect (kind : Token.Kind) (what : String) : FailsAtEnd (expect kind what) :=
  fun s hs => ⟨_, s, by rw [Parser.expect, hs]; rfl⟩

theorem FailsAtEnd.expression (k : Nat) : FailsAtEnd (expression k) := by
  cases k with
  | zero => exact failHere _
  | succ k =>
    have hprimary : FailsAtEnd (primary (Parser.expression k)) := by
      intro s hs
      rw [primary_eq, byHead_of_end hs]
      exact failHere _ s hs
    have hunary (steps : Nat) : FailsAtEnd (unary (call (k + 1) (Parser.expression k)) steps) := by
      cases steps with
      | zero => exact hprimary.bind _
      | succ steps =>
        intro s hs
        rw [unary, bind_apply, accept?_of_end hs]
        exact hprimary.bind _ s hs
    have hbinary (levels : List Level) : FailsAtEnd
        (binary (k + 1) (unary (call (k + 1) (Parser.expression k)) (k + 1)) levels) := by
      induction levels with
      | nil => exact hunary _
      | cons level tighter ih => exact ih.bind _
    exact (hbinary levels).bind _

namespace Spells

variable {tokens : List Token} {B C D E F : List Token → Prop}
  {p : Parser α} {f : α → Parser β}

theorem imp (h : Spells tokens D B p) (hdone : ∀ words, D words → E words)
    (hbroken : ∀ words, B words → F words) : Spells tokens E F p :=
  fun s hs => (h s hs).prepend (.refl s) (fun _ => .nil _) (fun _ _ _ => .nil _) hdone hbroken

theorem of_still (hp : Still p) (h : D []) : Spells tokens D B p := fun s _ => by
  obtain ⟨a, hr⟩ := hp s
  rw [hr]
  exact ⟨[], [], .refl s, .nil _, h⟩

theorem failHere {fault : Fault} (hfault : fault.breaksOff = true) (h : B []) :
    Spells tokens D B (failHere fault : Parser α) :=
  fun s _ => ⟨[], [], .refl s, fun _ => .nil _, h, rfl, hfault⟩

/-- **Sequencing.** -/
theorem bind (hp : Spells tokens C B p) (hf : ∀ a, Spells tokens E F (f a))
    (hdone : ∀ words words', C words → E words' → D (words ++ words'))
    (hbroken : ∀ words words', C words → F words' → B (words ++ words')) :
    Spells tokens D B (p >>= f) := by
  intro s hin
  have hs := hp s hin
  rw [bind_apply]
  cases hr : p s with
  | error fault s' => rw [hr] at hs; exact hs
  | ok a s' =>
    rw [hr] at hs
    obtain ⟨words, new, ht, hplaced, hd⟩ := hs
    exact (hf a s' (ht.suffix.trans hin)).prepend ht (fun _ => hplaced) (fun _ _ _ => hplaced)
      (hdone words · hd) (hbroken words · hd)

theorem bind_still (hp : Spells tokens D B p) (hf : ∀ a, Still (f a)) :
    Spells tokens D B (p >>= f) := by
  intro s hin
  have hs := hp s hin
  obtain ⟨a, b, s', hr, hbind⟩ | ⟨fault, s', hr, hbind⟩ := Still.bind_cases hf p s
  · rw [hr] at hs
    rw [hbind]
    exact hs
  · rw [hr] at hs
    rw [hbind]
    exact hs

theorem map (hp : Spells tokens D B p) (g : α → β) : Spells tokens D B (g <$> p) := by
  rw [map_eq_bind]
  exact hp.bind_still fun a => .pure (g a)

/-- A fault at one of the tokens is recorded. -/
theorem report {fault : Fault} {token : Token} (hfault : fault.goesOn = true)
    (htoken : token ∈ tokens) (h : D []) : Spells tokens D B (report fault token.span) :=
  fun s _ => ⟨[], [⟨fault, token.span⟩], .record s _,
    List.forall_mem_singleton.mpr ⟨hfault, token, htoken, rfl⟩, h⟩

/-! ### Single tokens -/

theorem nextIs_bind {kind : Token.Kind} {f : Bool → Parser β}
    (hf : ∀ b, Spells tokens D B (f b)) : Spells tokens D B (nextIs kind >>= f) :=
  fun s => hf (s.nextIs kind) s

theorem byHead {branch : Token → Option (Parser α)} {otherwise : Parser α}
    (h : Spells tokens D B otherwise)
    (hbranch : ∀ token ∈ tokens, ∀ p, branch token = some p →
      Spells tokens (fun words => D (token :: words)) (fun words => B (token :: words)) p) :
    Spells tokens D B (byHead branch otherwise) := by
  intro s hin
  cases hs : s.rest with
  | nil => rw [byHead_of_end hs]; exact h s hin
  | cons token rest =>
    cases hb : branch token with
    | none => rw [byHead_of_none hs hb]; exact h s hin
    | some p =>
      rw [byHead_of_some hs hb]
      rw [hs] at hin
      exact .cons hs (hbranch token (hin.subset List.mem_cons_self) p hb _
        ((List.suffix_cons token rest).trans hin))

theorem accept?_bind {γ : Type} {select : Token.Kind → Option γ} {f : Option (γ × Token) → Parser β}
    (hnone : Spells tokens D B (f none))
    (hsome : ∀ token ∈ tokens, ∀ c, select token.kind = some c →
      Spells tokens (fun words => D (token :: words)) (fun words => B (token :: words))
        (f (some (c, token)))) :
    Spells tokens D B (accept? select >>= f) := by
  intro s hin
  rw [bind_apply]
  cases hs : s.rest with
  | nil => rw [accept?_of_end hs]; exact hnone s hin
  | cons token rest =>
    rw [accept?_of_rest hs]
    cases hselect : select token.kind with
    | none => exact hnone s hin
    | some c =>
      rw [hs] at hin
      exact .cons hs (hsome token (hin.subset List.mem_cons_self) c hselect _
        ((List.suffix_cons token rest).trans hin))

theorem acceptKind?_bind {kind : Token.Kind} {f : Option Token → Parser β}
    (hnone : Spells tokens D B (f none))
    (hsome : ∀ token ∈ tokens, token.kind = kind → Spells tokens (fun words => D (token :: words))
      (fun words => B (token :: words)) (f (some token))) :
    Spells tokens D B (acceptKind? kind >>= f) := by
  rw [acceptKind?_eq, map_eq_bind, bind_assoc]
  refine accept?_bind ?_ fun token htoken c hselect => ?_
  · rw [pure_bind]
    exact hnone
  · rw [pure_bind]
    refine hsome token htoken ?_
    by_contra hne
    simp [hne] at hselect

theorem expect_bind {kind : Token.Kind} {what : String} {f : Token → Parser β} (hnil : B [])
    (hf : ∀ token ∈ tokens, token.kind = kind → Spells tokens (fun words => D (token :: words))
      (fun words => B (token :: words)) (f token)) :
    Spells tokens D B (expect kind what >>= f) := by
  rw [expect_eq, bind_assoc]
  refine acceptKind?_bind ?_ fun token htoken hkind => ?_
  · rw [failHere_bind]
    exact failHere rfl hnil
  · rw [pure_bind]
    exact hf token htoken hkind

/-- The last token that a parser takes. -/
theorem expect_last {kind : Token.Kind} {what : String} {f : Token → Parser β}
    (hf : ∀ token, Still (f token)) (hdone : ∀ token, token.kind = kind → D [token])
    (hnil : B []) : Spells tokens D B (expect kind what >>= f) :=
  expect_bind hnil fun token _ hkind => of_still (hf token) (hdone token hkind)

/-- A fault on the next token is at a token, or the parser breaks off. -/
theorem checkCount_bind {tooMany : Nat → Fault} {count : Nat} {q : Parser β}
    (htooMany : ∀ max, (tooMany max).goesOn = true) (hq : Spells tokens D B q)
    (hend : FailsAtEnd q) : Spells tokens D B (checkCount tooMany count >>= fun _ => q) := by
  unfold checkCount
  split
  · intro s hin
    have hplaced (hs : s.rest ≠ []) : Placed tokens [⟨tooMany maxItems, s.here⟩] := by
      obtain ⟨token, rest, hrest⟩ := List.exists_cons_of_ne_nil hs
      refine List.forall_mem_singleton.mpr
        ⟨htooMany maxItems, token, hin.subset (by simp [hrest]), ?_⟩
      rw [State.here, hrest]
    refine (hq (s.record ⟨tooMany maxItems, s.here⟩) hin).prepend (.record s _) hplaced
      (fun a t hok => ?_) (fun _ h => h) fun _ h => h
    refine hplaced fun hs => ?_
    obtain ⟨fault, s', hr⟩ := hend (s.record ⟨tooMany maxItems, s.here⟩) hs
    cases hr.symm.trans hok
  · exact hq

end Spells

/-! ## Expressions -/

/-- The parser takes no semicolon and closes all parentheses that it opens, unless it breaks off. -/
abbrev Balanced (tokens : List Token) (p : Parser α) : Prop :=
  Spells tokens (Stretch 0 0) (Begun 0 0) p

namespace Balanced

variable {tokens : List Token} {p : Parser α} {f : α → Parser β} {token : Token}

protected theorem pure (a : α) : Balanced tokens (pure a : Parser α) := .of_still (.pure a) .nil

theorem bind (hp : Balanced tokens p) (hf : ∀ a, Balanced tokens (f a)) :
    Balanced tokens (p >>= f) :=
  Spells.bind hp hf (fun _ _ h h' => h.append h') fun _ _ h h' => h.append_begun h'

/-- A single token before. -/
theorem cons (ht : token.kind.Plain) (hp : Balanced tokens p) :
    Spells tokens (fun words => Stretch 0 0 (token :: words))
      (fun words => Begun 0 0 (token :: words)) p :=
  Spells.imp hp (fun _ h => ht.stretch.append h) fun _ h => ht.stretch.append_begun h

theorem accept?_bind {γ : Type} {select : Token.Kind → Option γ} {f : Option (γ × Token) → Parser β}
    (hselect : ∀ kind c, select kind = some c → kind.Plain) (hnone : Balanced tokens (f none))
    (hsome : ∀ found, Balanced tokens (f (some found))) : Balanced tokens (accept? select >>= f) :=
  Spells.accept?_bind hnone fun token _ c h => cons (hselect token.kind c h) (hsome (c, token))

theorem acceptKind?_bind {kind : Token.Kind} {f : Option Token → Parser β} (hkind : kind.Plain)
    (hnone : Balanced tokens (f none)) (hsome : ∀ token, Balanced tokens (f (some token))) :
    Balanced tokens (acceptKind? kind >>= f) :=
  Spells.acceptKind?_bind hnone fun token _ h => cons (h ▸ hkind) (hsome token)

protected theorem expect {kind : Token.Kind} (hkind : kind.Plain) (what : String) :
    Balanced tokens (expect kind what) := by
  have h : Balanced tokens (expect kind what >>= pure) :=
    Spells.expect_last (fun token => .pure token) (fun token h => (h ▸ hkind).stretch) .nil
  rwa [bind_pure] at h

/-- The opening parenthesis before something that closes it. -/
theorem cons_leftParen (htoken : token.kind = .symbol .leftParen)
    (hp : Spells tokens (Stretch (-1) 0) (Begun (-1) 0) p) :
    Spells tokens (fun words => Stretch 0 0 (token :: words))
      (fun words => Begun 0 0 (token :: words)) p := by
  have ht := stretch_leftParen htoken
  exact hp.imp (fun _ h => ht.append h) fun _ h => ht.append_begun h

/-- The closing parenthesis after something. -/
theorem rightParen {what : String} {f : α → Token → Parser β} (hp : Balanced tokens p)
    (hf : ∀ a token, Still (f a token)) :
    Spells tokens (Stretch (-1) 0) (Begun (-1) 0)
      (p >>= fun a => expect (.symbol .rightParen) what >>= f a) := by
  have hbroken {words : List Token} (h : Begun 0 0 words) : Begun (-1) 0 words :=
    h.mono (by simp) (Nat.le_refl 0)
  exact (Spells.imp hp (fun _ h => h) fun _ h => hbroken h).bind
    (fun a => .expect_last (B := Begun 0 0) (hf a) (fun _ h => stretch_rightParen h) .nil)
    (fun _ _ h h' => h.append h') fun _ _ h h' => hbroken (h.append_begun h')

end Balanced

section

variable {tokens : List Token} {nested operand : Parser Expr}

theorem balanced_commaSeparated {tooMany : Nat → Fault} {item : Parser α}
    (htooMany : ∀ max, (tooMany max).goesOn = true) (hitem : Balanced tokens item)
    (hend : FailsAtEnd item) (steps count : Nat) :
    Balanced tokens (commaSeparated tooMany item steps count) := by
  induction steps generalizing count with
  | zero => exact .pure []
  | succ steps ih =>
    refine .checkCount_bind htooMany (Balanced.bind hitem fun first => ?_) (hend.bind _)
    refine .acceptKind?_bind ⟨by simp, by simp, rfl, rfl⟩ (.pure [first]) fun comma => ?_
    exact Spells.bind_still (ih (count + 1)) fun others => .pure _

theorem balanced_itemList {tooMany : Nat → Fault} {item : Parser α}
    (htooMany : ∀ max, (tooMany max).goesOn = true) (hitem : Balanced tokens item)
    (hend : FailsAtEnd item) (steps : Nat) : Balanced tokens (itemList steps tooMany item) := by
  refine .nextIs_bind fun b => ?_
  split
  · exact Balanced.pure []
  · exact balanced_commaSeparated htooMany hitem hend steps 0

theorem plain_of_unit? {token : Token} {tree : Expr} (h : unit? token = some tree) :
    token.kind.Plain := by
  unfold unit? at h
  split at h <;> constructor <;> simp_all [Token.Kind.parens, Token.Kind.semicolons]

theorem balanced_primary (h : Balanced tokens nested) : Balanced tokens (primary nested) := by
  rw [primary_eq]
  refine (Spells.failHere rfl .nil).byHead fun token _ p hp => ?_
  unfold unitBranch at hp
  split at hp
  · rename_i tree hunit
    cases hp
    exact Balanced.cons (plain_of_unit? hunit) (.pure tree)
  · split at hp
    · rename_i hleft
      cases hp
      exact Balanced.cons_leftParen hleft (h.rightParen fun _ _ => .pure _)
    · cases hp

theorem balanced_callsOf (h : Balanced tokens nested) (hend : FailsAtEnd nested) (width steps : Nat)
    (callee : Expr) : Balanced tokens (callsOf width nested steps callee) := by
  induction steps generalizing callee with
  | zero => exact .pure callee
  | succ steps ih =>
    refine Spells.acceptKind?_bind (Balanced.pure callee) fun opening _ hopening => ?_
    have hfinish : Spells tokens (Stretch (-1) 0) (Begun (-1) 0) (finishCall width nested callee) :=
      (balanced_itemList (fun _ => rfl) h hend width).rightParen fun _ _ => .pure _
    exact Balanced.cons_leftParen hopening
      (hfinish.bind ih (fun _ _ h h' => h.append h') fun _ _ h h' => h.append_begun h')

theorem balanced_call (h : Balanced tokens nested) (hend : FailsAtEnd nested) (steps : Nat) :
    Balanced tokens (call steps nested) :=
  (balanced_primary h).bind fun callee => balanced_callsOf h hend steps steps callee

theorem plain_of_unaryOp? (kind : Token.Kind) (op : UnaryOp) (h : unaryOp? kind = some op) :
    kind.Plain := by
  unfold unaryOp? at h
  split at h <;> constructor <;> simp_all [Token.Kind.parens, Token.Kind.semicolons]

theorem balanced_unary (h : Balanced tokens operand) (steps : Nat) :
    Balanced tokens (unary operand steps) := by
  induction steps with
  | zero => exact h
  | succ steps ih =>
    exact .accept?_bind plain_of_unaryOp? h fun found => Spells.bind_still ih fun inner => .pure _

theorem plain_of_level {level : Level} (h : level ∈ levels) (kind : Token.Kind) (joint : Joint)
    (hkind : level kind = some joint) : kind.Plain := by
  simp only [levels, List.mem_cons, List.not_mem_nil, or_false] at h
  rcases h with rfl | rfl | rfl | rfl | rfl | rfl <;> dsimp only at hkind <;> split at hkind <;>
    constructor <;> simp_all [Token.Kind.parens, Token.Kind.semicolons]

theorem balanced_chain {level : Level} (hlevel : level ∈ levels) (h : Balanced tokens operand)
    (steps : Nat) (left : Expr) : Balanced tokens (chain level operand steps left) := by
  induction steps generalizing left with
  | zero => exact .pure left
  | succ steps ih =>
    exact .accept?_bind (plain_of_level hlevel) (.pure left) fun found =>
      h.bind fun right => ih (found.1.join left right)

theorem balanced_binary (h : Balanced tokens operand) (steps : Nat) {tighter : List Level}
    (htighter : tighter ⊆ levels) : Balanced tokens (binary steps operand tighter) := by
  induction tighter with
  | nil => exact h
  | cons level tighter ih =>
    obtain ⟨hlevel, htighter⟩ := List.cons_subset.mp htighter
    exact (ih htighter).bind fun left => balanced_chain hlevel (ih htighter) steps left

theorem balanced_assignment (h : Balanced tokens nested) (hend : FailsAtEnd nested) (steps : Nat) :
    Balanced tokens (assignment steps nested) := by
  have htarget := balanced_binary (balanced_unary (balanced_call h hend steps) steps) steps
    (List.Subset.refl levels)
  refine htarget.bind fun target => ?_
  refine Spells.acceptKind?_bind (Balanced.pure target) fun equals hequals hkind => ?_
  refine Balanced.cons (hkind ▸ ⟨by simp, by simp, rfl, rfl⟩) (h.bind fun value => ?_)
  split
  · exact .pure _
  · exact (Spells.report rfl hequals .nil).bind_still fun _ => .pure _

end

/-- **The words of an expression.** It has no semicolon and no brace, and it closes all parentheses
that it opens. -/
theorem balanced_expression (tokens : List Token) (k : Nat) : Balanced tokens (expression k) := by
  induction k with
  | zero => exact Spells.failHere rfl .nil
  | succ k ih => exact balanced_assignment ih (.expression k) (k + 1)

/-! ## Statements of one line -/

section

variable {tokens : List Token} {expr : Parser Expr} {p : Parser α}

theorem Balanced.unlessNext (h : Balanced tokens p) (kind : Token.Kind) :
    Balanced tokens (unlessNext kind p) := by
  refine .nextIs_bind fun b => ?_
  split
  · exact Balanced.pure none
  · exact h.map some

/-- The semicolon after something. -/
theorem Balanced.semicolon {what : String} {f : α → Token → Parser β} (hp : Balanced tokens p)
    (hf : ∀ a token, Still (f a token)) :
    Spells tokens OneLine (Begun 0 0) (p >>= fun a => expect (.symbol .semicolon) what >>= f a) :=
  Spells.bind hp (fun a => .expect_last (B := Begun 0 0) (D := OneLine) (hf a)
    (fun token h => ⟨[], token, rfl, .nil, h⟩) .nil) (fun _ _ h h' => h.append_line h')
    fun _ _ h h' => h.append_begun h'

/-- A single token before. -/
theorem Spells.cons_line {token : Token} (ht : token.kind.Plain)
    (hp : Spells tokens OneLine (Begun 0 0) p) :
    Spells tokens (fun words => OneLine (token :: words))
      (fun words => Begun 0 0 (token :: words)) p :=
  hp.imp (fun _ h => ht.stretch.append_line h) fun _ h => ht.stretch.append_begun h

theorem balanced_initialValue (h : Balanced tokens expr) : Balanced tokens (initialValue expr) :=
  .acceptKind?_bind ⟨by simp, by simp, rfl, rfl⟩ (.pure none) fun _ => h.map some

theorem spells_varDeclaration (h : Balanced tokens expr) (start : Nat) :
    Spells tokens OneLine (Begun 0 0) (varDeclaration expr start) := by
  refine .expect_bind .nil fun name _ hname => ?_
  exact .cons_line (hname ▸ ⟨by simp, by simp, rfl, rfl⟩)
    ((balanced_initialValue h).semicolon fun _ _ => .spanFrom_bind fun _ => .pure _)

theorem spells_exprStatement (h : Balanced tokens expr) :
    Spells tokens OneLine (Begun 0 0) (exprStatement expr) :=
  h.semicolon fun _ _ => .spanFrom_bind fun _ => .pure _

theorem spells_printStatement (h : Balanced tokens expr) (start : Nat) :
    Spells tokens OneLine (Begun 0 0) (printStatement expr start) :=
  h.semicolon fun _ _ => .spanFrom_bind fun _ => .pure _

theorem balanced_checkReturn {keyword : Token} (h : keyword ∈ tokens) :
    Balanced tokens (checkReturn keyword.span) := by
  intro s hin
  unfold checkReturn
  split
  · exact Spells.report (D := Stretch 0 0) rfl h .nil s hin
  · exact ⟨[], [], .refl s, .nil _, .nil⟩

theorem spells_returnStatement (h : Balanced tokens expr) {keyword : Token}
    (hkeyword : keyword ∈ tokens) :
    Spells tokens OneLine (Begun 0 0) (returnStatement expr keyword.span) :=
  Spells.bind (balanced_checkReturn hkeyword)
    (fun _ => (h.unlessNext _).semicolon fun _ _ => .spanFrom_bind fun _ => .pure _)
    (fun _ _ h h' => h.append_line h') fun _ _ h h' => h.append_begun h'

theorem spells_forInitial (h : Balanced tokens expr) :
    Spells tokens OneLine (Begun 0 0) (forInitial expr) := by
  refine .acceptKind?_bind ?_ fun token _ htoken => ?_
  · refine .acceptKind?_bind ((spells_exprStatement h).map some) fun token _ htoken => ?_
    exact .cons_line (htoken ▸ ⟨by simp, by simp, rfl, rfl⟩)
      ((spells_varDeclaration h token.span.start).map some)
  · exact .of_still (.pure none) ⟨[], token, rfl, .nil, htoken⟩

end

/-! ## Before the body of a statement -/

/-- The condition of an `if` statement or a loop, in parentheses. -/
def condition (expr : Parser Expr) (before after : String) : Parser Expr := do
  let _ ← expect (.symbol .leftParen) before
  let cond ← expr
  let _ ← expect (.symbol .rightParen) after
  return cond

/-- What a `for` loop has in its parentheses. -/
def forHeader (expr : Parser Expr) : Parser (Option Stmt × Expr × Option Expr) := do
  let _ ← expect (.symbol .leftParen) "'(' after 'for'"
  let init ← forInitial expr
  let cond ← forCondition expr
  let _ ← expect (.symbol .semicolon) "';' after loop condition"
  let step ← unlessNext (.symbol .rightParen) expr
  let _ ← expect (.symbol .rightParen) "')' after for clauses"
  return (init, cond, step)

/-- The name of a function and its parameters, up to the opening brace. -/
def funcHeader (steps : Nat) : Parser (Token × List Token) := do
  let name ← expect .identifier "function name"
  let _ ← expect (.symbol .leftParen) "'(' after function name"
  let params ← itemList steps .tooManyParameters (expect .identifier "parameter name")
  let _ ← expect (.symbol .rightParen) "')' after parameters"
  let _ ← expect (.symbol .leftBrace) "'\x7b' before function body"
  return (name, params)

theorem condition_bind (expr : Parser Expr) (before after : String) (f : Expr → Parser β) :
    condition expr before after >>= f = (do
      let _ ← expect (.symbol .leftParen) before
      let cond ← expr
      let _ ← expect (.symbol .rightParen) after
      f cond) := by
  simp only [condition, bind_assoc, pure_bind]

theorem ifStatement_eq (expr : Parser Expr) (statement : Parser Stmt) (start : Nat) :
    ifStatement expr statement start = (do
      let cond ← condition expr "'(' after 'if'" "')' after if condition"
      let yes ← statement
      match ← acceptKind? (.keyword .elseWord) with
      | some _ =>
        let no ← statement
        return .ifElse (← spanFrom start) cond yes no
      | none => return .ifThen (← spanFrom start) cond yes) :=
  (condition_bind expr _ _ _).symm

theorem whileStatement_eq (expr : Parser Expr) (statement : Parser Stmt) (start : Nat) :
    whileStatement expr statement start = (do
      let cond ← condition expr "'(' after 'while'" "')' after condition"
      let body ← statement
      return .whileDo (← spanFrom start) cond body) :=
  (condition_bind expr _ _ _).symm

theorem forStatement_eq (expr : Parser Expr) (statement : Parser Stmt) (start : Nat) :
    forStatement expr statement start = (do
      let (init, cond, step) ← forHeader expr
      let body ← statement
      return forLoop (← spanFrom start) init cond step body) := by
  simp only [forStatement, forHeader, bind_assoc, pure_bind]

theorem funcDeclaration_eq (steps : Nat) (declaration : Parser (Option Stmt)) (start : Nat) :
    funcDeclaration steps declaration start = (do
      let (name, params) ← funcHeader steps
      let body ← insideFunction (block steps declaration)
      return .func (← spanFrom start) name.lexeme (params.map Token.lexeme) body) := by
  simp only [funcDeclaration, funcHeader, bind_assoc, pure_bind]

section

variable {tokens : List Token} {expr : Parser Expr}

theorem balanced_forCondition (h : Balanced tokens expr) : Balanced tokens (forCondition expr) := by
  refine .nextIs_bind fun b => ?_
  split
  · exact .of_still (fun s => ⟨_, rfl⟩) .nil
  · exact h

/-- Something before the last part of a header. -/
theorem Balanced.bind_header {m : Nat} {p : Parser α} {f : α → Parser β} (hp : Balanced tokens p)
    (hf : ∀ a, Spells tokens Header (Begun 0 m) (f a)) :
    Spells tokens Header (Begun 0 m) (p >>= f) :=
  (Spells.imp hp (fun _ h => h) fun _ h => h.mono (Int.le_refl 0) (Nat.zero_le m)).bind hf
    (fun _ _ h h' => h'.prepend h.braceless)
    fun _ _ h h' => (h.append_begun h').mono (Int.le_refl 0) (Nat.le_of_eq (Nat.zero_add m))

/-- The closing parenthesis of a header. -/
theorem spells_closing {what : String} {f : Token → Parser α} (hf : ∀ token, Still (f token)) :
    Spells tokens Header (Begun 0 0) (expect (.symbol .rightParen) what >>= f) :=
  .expect_last hf (fun token h => ⟨[], token, rfl, braceless_nil, h⟩) .nil

/-- The opening parenthesis of a header. -/
theorem Spells.header {what : String} {m : Nat} (hm : m ≤ 2) {f : Token → Parser α}
    (hf : ∀ token, Spells tokens Header (Begun 0 m) (f token)) :
    Spells tokens Header Broken (expect (.symbol .leftParen) what >>= f) := by
  refine .expect_bind (.inl .nil) fun opening _ hopening => ?_
  have hleft := stretch_leftParen hopening
  exact (hf opening).imp (fun _ h => h.prepend hleft.braceless)
    fun _ h => .inr ((hleft.append_begun h).mono (Int.le_refl 1) (by omega))

theorem spells_condition (h : Balanced tokens expr) (before after : String) :
    Spells tokens Header Broken (condition expr before after) :=
  .header (Nat.zero_le 2) fun _ => h.bind_header fun _ => spells_closing fun _ => .pure _

theorem spells_forHeader (h : Balanced tokens expr) :
    Spells tokens Header Broken (forHeader expr) := by
  refine .header (Nat.le_refl 2) fun _ => ?_
  -- With the initial statement a semicolon is read, and after the condition a second one.
  refine ((spells_forInitial h).imp (fun _ h => h)
    fun _ h => h.mono (Int.le_refl 0) (Nat.zero_le 2)).bind (E := Header) (F := Begun 0 1)
    (fun init => ?_) (fun _ _ h h' => h'.prepend h.stretch.braceless)
    fun _ _ h h' => h.stretch.append_begun h'
  refine (balanced_forCondition h).bind_header fun cond => ?_
  refine .expect_bind (Begun.nil.mono (Int.le_refl 0) (Nat.zero_le 1)) fun token _ htoken => ?_
  have hsemicolon := stretch_semicolon htoken
  refine Spells.imp (D := Header) (B := Begun 0 0) ?_
    (fun _ h => h.prepend hsemicolon.braceless) fun _ h => hsemicolon.append_begun h
  exact (h.unlessNext _).bind_header fun step => spells_closing fun _ => .pure _

theorem spells_funcHeader (steps : Nat) : Spells tokens Opening Broken (funcHeader steps) := by
  have hplain {token : Token} (h : token.kind = .identifier) : token.kind.Plain :=
    h ▸ ⟨by simp, by simp, rfl, rfl⟩
  refine .expect_bind (.inl .nil) fun name _ hname => ?_
  have hname := (hplain hname).stretch
  refine Spells.imp (D := Opening) (B := Begun 0 0) ?_
    (fun _ h => h.prepend hname.braceless) fun _ h => .inl (hname.append_begun h)
  refine .expect_bind .nil fun opening _ hopening => ?_
  have hleft := stretch_leftParen hopening
  refine Spells.imp (D := Opening) (B := Begun (-1) 0) ?_
    (fun _ h => h.prepend hleft.braceless)
    fun _ h => (hleft.append_begun h).mono (by decide) (by decide)
  have hparams : Balanced tokens
      (itemList steps .tooManyParameters (expect .identifier "parameter name")) :=
    balanced_itemList (fun _ => rfl) (.expect ⟨by simp, by simp, rfl, rfl⟩ _) (.expect _ _) steps
  refine (Spells.imp hparams (fun _ h => h) fun _ h => h.mono (by simp) (Nat.le_refl 0)).bind
    (E := Opening) (F := Begun (-1) 0) (fun params => ?_)
    (fun _ _ h h' => h'.prepend h.braceless)
    fun _ _ h h' => (h.append_begun h').mono (by decide) (by decide)
  refine .expect_bind (Begun.nil.mono (by simp) (Nat.le_refl 0)) fun closing _ hclosing => ?_
  have hright := stretch_rightParen hclosing
  refine Spells.imp (D := Opening) (B := Begun 0 0) ?_
    (fun _ h => h.prepend hright.braceless) fun _ h => hright.append_begun h
  exact .expect_last (fun _ => .pure _) (fun brace h => ⟨[], brace, rfl, braceless_nil, h⟩) .nil

end

end Parser

end BlockScript
