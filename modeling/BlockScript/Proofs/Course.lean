import BlockScript.Proofs.Resuming
import BlockScript.Proofs.Stretches

/-!
# The course of parsing

Whatever the tokens are, parsing them is made of a few kinds of steps: a statement of one line is
read, or a header before the body of a statement; a stretch breaks off at a token; a block is opened
and closed, or there are no more tokens to close it; and a declaration that broke off is dropped,
with the tokens up to where parsing resumes. `Course` has one constructor for each of them, and says
which tokens are left and which faults were found.

It leaves out all that only the grammar can tell, such as whether a stretch without braces is an
expression. What is left is enough to follow braces and semicolons through an input with any number
of faults in it, by induction on its course.

## Main definitions

* `Course` — how the parser goes through tokens

## Main results

* `Course.suffix` — a course leaves tokens from the end of its input
* `Parser.runs_statement_declaration` — statements and declarations have a course
* `course_parseTokens` — so does the parsing of a whole input
-/

namespace BlockScript

/-! ## Courses -/

/-- Where the next token is, or the end of the input. -/
def spot (finish : Span) : List Token → Span
  | token :: _ => token.span
  | [] => finish

/-- The parts of an input: what can be read as one declaration, and the declarations of a program or
of a block. -/
inductive Part where
  | body
  | declarations (nested : Bool)

/-- No declaration follows: there are no more tokens, or the block that is open ends here. -/
def Stops (nested : Bool) (rest : List Token) : Prop :=
  rest = [] ∨
    nested = true ∧ ∃ brace rest', rest = brace :: rest' ∧ brace.kind = .symbol .rightBrace

/-- How the parser goes through tokens: what it reads, the tokens that it starts from, the fault
that it breaks off with, the faults that it records and the tokens that are left. All of `tokens` is
the input, which ends at `finish`. -/
inductive Course (tokens : List Token) (finish : Span) :
    Part → List Token → Option Located → List Located → List Token → Prop
  /-- A statement of one line. -/
  | line {words rest : List Token} {new : List Located} (hwords : OneLine words)
      (hnew : Parser.Placed tokens new) : Course tokens finish .body (words ++ rest) none new rest
  /-- A stretch breaks off at the next token. -/
  | broken {words rest : List Token} {new : List Located} {fault : Located} (hwords : Broken words)
      (hnew : rest ≠ [] → Parser.Placed tokens new) (hspan : fault.span = spot finish rest)
      (hfault : fault.fault.breaksOff = true) :
      Course tokens finish .body (words ++ rest) (some fault) new rest
  /-- A header and the body after it. -/
  | headed {words rest rest' : List Token} {outcome : Option Located} {new new' : List Located}
      (hwords : Header words) (hnew : Parser.Placed tokens new)
      (hbody : Course tokens finish .body rest outcome new' rest') :
      Course tokens finish .body (words ++ rest) outcome (new ++ new') rest'
  /-- A body, and another one after `else`. -/
  | orElse {rest rest' rest'' : List Token} {token : Token} {outcome : Option Located}
      {new new' : List Located} (hyes : Course tokens finish .body rest none new (token :: rest'))
      (htoken : token.kind = .keyword .elseWord)
      (hno : Course tokens finish .body rest' outcome new' rest'') :
      Course tokens finish .body rest outcome (new ++ new') rest''
  /-- A block that is closed. -/
  | block {words rest rest' : List Token} {brace : Token} {new new' : List Located}
      (hwords : Opening words) (hnew : Parser.Placed tokens new)
      (hdeclarations : Course tokens finish (.declarations true) rest none new' (brace :: rest'))
      (hbrace : brace.kind = .symbol .rightBrace) :
      Course tokens finish .body (words ++ rest) none (new ++ new') rest'
  /-- A block that is not closed. -/
  | unclosed {words rest : List Token} {new new' : List Located} {fault : Located}
      (hwords : Opening words) (hnew : Parser.Placed tokens new)
      (hdeclarations : Course tokens finish (.declarations true) rest none new' [])
      (hspan : fault.span = finish) (hfault : fault.fault.breaksOff = true) :
      Course tokens finish .body (words ++ rest) (some fault) (new ++ new') []
  /-- No declaration follows. -/
  | stop {nested : Bool} {rest : List Token} (hstop : Stops nested rest) :
      Course tokens finish (.declarations nested) rest none [] rest
  /-- A declaration that is kept. -/
  | kept {nested : Bool} {rest rest' rest'' : List Token} {new new' : List Located}
      (hstop : ¬ Stops nested rest) (hbody : Course tokens finish .body rest none new rest')
      (hothers : Course tokens finish (.declarations nested) rest' none new' rest'') :
      Course tokens finish (.declarations nested) rest none (new ++ new') rest''
  /-- A declaration that broke off. -/
  | dropped {nested : Bool} {rest rest' rest'' : List Token} {new new' : List Located}
      {fault : Located} (hstop : ¬ Stops nested rest)
      (hbody : Course tokens finish .body rest (some fault) new rest')
      (hothers : Course tokens finish (.declarations nested) (resume rest') none new' rest'') :
      Course tokens finish (.declarations nested) rest none (new ++ fault :: new') rest''

/-- A course leaves tokens from the end of its input. -/
theorem Course.suffix {tokens : List Token} {finish : Span} {part : Part} {rest rest' : List Token}
    {outcome : Option Located} {new : List Located}
    (h : Course tokens finish part rest outcome new rest') : rest' <:+ rest := by
  induction h with
  | line hwords hnew => exact List.suffix_append _ _
  | broken hwords hnew hspan hfault => exact List.suffix_append _ _
  | headed hwords hnew hbody ih => exact ih.trans (List.suffix_append _ _)
  | orElse hyes htoken hno ihyes ihno => exact ihno.trans ((List.suffix_cons _ _).trans ihyes)
  | block hwords hnew hdeclarations hbrace ih =>
    exact ((List.suffix_cons _ _).trans ih).trans (List.suffix_append _ _)
  | unclosed hwords hnew hdeclarations hspan hfault ih => exact List.nil_suffix
  | stop hstop => exact List.suffix_rfl
  | kept hstop hbody hothers ihbody ihothers => exact ihothers.trans ihbody
  | dropped hstop hbody hothers ihbody ihothers =>
    exact (ihothers.trans (resume_suffix _)).trans ihbody

/-- A course breaks off with a fault at the next token. -/
theorem Course.place {tokens : List Token} {finish : Span} {part : Part} {rest rest' : List Token}
    {fault : Located} {new : List Located}
    (h : Course tokens finish part rest (some fault) new rest') :
    fault.span = spot finish rest' ∧ fault.fault.breaksOff = true := by
  generalize houtcome : some fault = outcome at h
  induction h with
  | broken hwords hnew hspan hfault =>
    cases houtcome
    exact ⟨hspan, hfault⟩
  | headed hwords hnew hbody ih => exact ih houtcome
  | orElse hyes htoken hno ihyes ihno => exact ihno houtcome
  | unclosed hwords hnew hdeclarations hspan hfault ih =>
    cases houtcome
    exact ⟨hspan, hfault⟩
  | _ => exact nomatch houtcome

/-- A fault of the parser at one of the tokens. -/
def Located.Inside (tokens : List Token) (fault : Located) : Prop :=
  fault.fault ≠ .unterminatedString ∧ ∃ token ∈ tokens, fault.span = token.span

theorem Parser.Placed.inside {tokens : List Token} {new : List Located} (h : Placed tokens new) :
    ∀ fault ∈ new, fault.Inside tokens := by
  intro fault hfault
  obtain ⟨hgoes, hplace⟩ := h fault hfault
  exact ⟨fun heq => by simp [heq, Fault.goesOn] at hgoes, hplace⟩

/-- Where a course breaks off before a token, the fault is at this token. -/
theorem Course.inside {tokens : List Token} {finish : Span} {part : Part} {rest rest' : List Token}
    {fault : Located} {new : List Located}
    (h : Course tokens finish part rest (some fault) new rest') (hin : rest' <:+ tokens)
    (hne : rest' ≠ []) : fault.Inside tokens := by
  obtain ⟨hspan, hfault⟩ := h.place
  obtain ⟨token, others, rfl⟩ := List.exists_cons_of_ne_nil hne
  exact ⟨fun heq => by simp [heq, Fault.breaksOff] at hfault, token,
    hin.subset List.mem_cons_self, hspan⟩

/-- Declarations are read up to where no other follows. -/
theorem Course.stops {tokens : List Token} {finish : Span} {nested : Bool} {rest rest' : List Token}
    {outcome : Option Located} {new : List Located}
    (h : Course tokens finish (.declarations nested) rest outcome new rest') :
    Stops nested rest' := by
  generalize hpart : Part.declarations nested = part at h
  induction h with
  | stop hstop => cases hpart; exact hstop
  | kept hstop hbody hothers ihbody ihothers => exact ihothers hpart
  | dropped hstop hbody hothers ihbody ihothers => exact ihothers hpart
  | _ => exact nomatch hpart

/-! ## The parser has a course -/

namespace Parser

variable {α β : Type} {tokens : List Token} {n : Nat}

theorem State.here_eq_spot (s : State) : s.here = spot s.finish s.rest := by
  rw [State.here]
  cases s.rest <;> rfl

/-- The fault that a parser broke off with. -/
def fault? : EStateM.Result Located State α → Option Located
  | .ok _ _ => none
  | .error fault _ => some fault

/-- The result is that of a body, of which the words `pre` were read before. -/
def RunsAt (tokens pre : List Token) (s : State) (r : EStateM.Result Located State α) : Prop :=
  ∃ new, (stateAfter r).finish = s.finish ∧ (stateAfter r).faults = s.faults ++ new ∧
    Course tokens s.finish .body (pre ++ s.rest) (fault? r) new (stateAfter r).rest

/-- With fewer than `n` tokens left, the parser reads a body, of which the words `pre` were read
before. -/
def Runs (tokens : List Token) (n : Nat) (pre : List Token) (p : Parser α) : Prop :=
  ∀ s, s.rest <:+ tokens → s.rest.length < n → RunsAt tokens pre s (p s)

/-- The result is that of the rest of a block. -/
def ClosesAt (tokens : List Token) (s : State) : EStateM.Result Located State α → Prop
  | .ok _ s' => ∃ new brace, s'.finish = s.finish ∧ s'.faults = s.faults ++ new ∧
      brace.kind = .symbol .rightBrace ∧
      Course tokens s.finish (.declarations true) s.rest none new (brace :: s'.rest)
  | .error fault s' => ∃ new, s'.finish = s.finish ∧ s'.faults = s.faults ++ new ∧
      s'.rest = [] ∧ fault.span = s.finish ∧ fault.fault.breaksOff = true ∧
      Course tokens s.finish (.declarations true) s.rest none new []

/-- With fewer than `n` tokens left, the parser reads the rest of a block. -/
def RunsBlock (tokens : List Token) (n : Nat) (p : Parser α) : Prop :=
  ∀ s, s.rest <:+ tokens → s.rest.length < n → ClosesAt tokens s (p s)

/-- With fewer than `n` tokens left, the parser reads a declaration, or drops one. -/
def RunsDeclaration (tokens : List Token) (n : Nat) (declaration : Parser (Option Stmt)) : Prop :=
  ∀ s, s.rest <:+ tokens → s.rest.length < n → ∃ kept s' new, declaration s = .ok kept s' ∧
    s'.finish = s.finish ∧ s'.faults = s.faults ++ new ∧
    (Course tokens s.finish .body s.rest none new s'.rest ∨
      ∃ earlier fault rest, Course tokens s.finish .body s.rest (some fault) earlier rest ∧
        new = earlier ++ [fault] ∧ s'.rest = resume rest)

namespace RunsAt

variable {pre words : List Token} {s s' : State} {new : List Located}
  {r : EStateM.Result Located State α}

theorem of_line (ht : Takes s s' words new) (hnew : Placed tokens new) (a : α)
    (hwords : OneLine (pre ++ words)) :
    RunsAt tokens pre s (.ok a s' : EStateM.Result Located State α) := by
  refine ⟨new, ht.finish, ht.faults, ?_⟩
  rw [ht.rest, ← List.append_assoc]
  exact .line hwords hnew

theorem of_broken {fault : Located} (ht : Takes s s' words new)
    (hnew : s'.rest ≠ [] → Placed tokens new) (hwords : Broken (pre ++ words))
    (hspan : fault.span = s'.here) (hfault : fault.fault.breaksOff = true) :
    RunsAt tokens pre s (.error fault s' : EStateM.Result Located State α) := by
  refine ⟨new, ht.finish, ht.faults, ?_⟩
  rw [State.here_eq_spot, ht.finish] at hspan
  rw [ht.rest, ← List.append_assoc]
  exact .broken hwords hnew hspan hfault

theorem headed (ht : Takes s s' words new) (hnew : Placed tokens new)
    (hwords : Header (pre ++ words)) (hr : RunsAt tokens [] s' r) : RunsAt tokens pre s r := by
  obtain ⟨new', hfinish, hfaults, hcourse⟩ := hr
  refine ⟨new ++ new', hfinish.trans ht.finish, ?_, ?_⟩
  · rw [hfaults, ht.faults, List.append_assoc]
  · rw [ht.rest, ← List.append_assoc]
    rw [ht.finish] at hcourse
    exact .headed hwords hnew hcourse

theorem orElse {token : Token} {rest : List Token} {a : β}
    (hyes : RunsAt tokens pre s (.ok a s' : EStateM.Result Located State β))
    (hs' : s'.rest = token :: rest) (htoken : token.kind = .keyword .elseWord)
    (hno : RunsAt tokens [] (s'.after [token] rest) r) : RunsAt tokens pre s r := by
  obtain ⟨new, hfinish, hfaults, hcourse⟩ := hyes
  obtain ⟨new', hfinish', hfaults', hcourse'⟩ := hno
  refine ⟨new ++ new', hfinish'.trans hfinish, ?_, ?_⟩
  · rw [hfaults']
    exact (congrArg (· ++ new') hfaults).trans (List.append_assoc _ _ _)
  · have hyes : Course tokens s.finish .body (pre ++ s.rest) none new (token :: rest) :=
      hs' ▸ hcourse
    have hsame : (s'.after [token] rest).finish = s.finish := hfinish
    rw [hsame] at hcourse'
    exact .orElse hyes htoken hcourse'

theorem block (ht : Takes s s' words new) (hnew : Placed tokens new)
    (hwords : Opening (pre ++ words)) (hr : ClosesAt tokens s' r) : RunsAt tokens pre s r := by
  cases r with
  | ok a s'' =>
    obtain ⟨new', brace, hfinish, hfaults, hbrace, hcourse⟩ := hr
    refine ⟨new ++ new', hfinish.trans ht.finish, ?_, ?_⟩
    · exact hfaults.trans (by rw [ht.faults, List.append_assoc])
    · rw [ht.rest, ← List.append_assoc]
      rw [ht.finish] at hcourse
      exact .block hwords hnew hcourse hbrace
  | error fault s'' =>
    obtain ⟨new', hfinish, hfaults, hend, hspan, hfault, hcourse⟩ := hr
    refine ⟨new ++ new', hfinish.trans ht.finish, ?_, ?_⟩
    · exact hfaults.trans (by rw [ht.faults, List.append_assoc])
    · change Course tokens s.finish .body (pre ++ s.rest) (some fault) (new ++ new') s''.rest
      rw [ht.rest, ← List.append_assoc, hend]
      rw [ht.finish] at hcourse hspan
      exact .unclosed hwords hnew hcourse hspan hfault

end RunsAt

namespace Runs

variable {pre : List Token} {p : Parser α} {f : α → Parser β}

/-- A statement of one line. -/
theorem of_line (hp : Spells tokens (fun words => OneLine (pre ++ words))
    (fun words => Broken (pre ++ words)) p) : Runs tokens n pre p := by
  intro s hin _
  have hs := hp s hin
  cases hr : p s with
  | ok a s' =>
    rw [hr] at hs
    obtain ⟨words, new, ht, hnew, hline⟩ := hs
    exact .of_line ht hnew a hline
  | error fault s' =>
    rw [hr] at hs
    obtain ⟨words, new, ht, hnew, hbroken, hspan, hfault⟩ := hs
    exact .of_broken ht hnew hbroken hspan hfault

/-- Words of a stretch come first. -/
theorem bind_of_spells {D : List Token → Prop}
    (hp : Spells tokens D (fun words => Broken (pre ++ words)) p)
    (hf : ∀ a s s' words new, Takes s s' words new → Placed tokens new → D words →
      s'.rest <:+ tokens → s'.rest.length < n → RunsAt tokens pre s (f a s')) :
    Runs tokens n pre (p >>= f) := by
  intro s hin hlen
  have hs := hp s hin
  rw [bind_apply]
  cases hr : p s with
  | ok a s' =>
    rw [hr] at hs
    obtain ⟨words, new, ht, hnew, hdone⟩ := hs
    exact hf a s s' words new ht hnew hdone (ht.suffix.trans hin)
      (Nat.lt_of_le_of_lt ht.suffix.length_le hlen)
  | error fault s' =>
    rw [hr] at hs
    obtain ⟨words, new, ht, hnew, hbroken, hspan, hfault⟩ := hs
    exact .of_broken ht hnew hbroken hspan hfault

/-- A header and the body after it. -/
theorem header_bind (hp : Spells tokens (fun words => Header (pre ++ words))
    (fun words => Broken (pre ++ words)) p) (hf : ∀ a, Runs tokens n [] (f a)) :
    Runs tokens n pre (p >>= f) :=
  bind_of_spells hp fun a _ s' _ _ ht hnew hheader hin hlen =>
    .headed ht hnew hheader (hf a s' hin hlen)

/-- What comes before a block, and the block. -/
theorem opening_bind (hp : Spells tokens (fun words => Opening (pre ++ words))
    (fun words => Broken (pre ++ words)) p) (hf : ∀ a, RunsBlock tokens n (f a)) :
    Runs tokens n pre (p >>= f) :=
  bind_of_spells hp fun a _ s' _ _ ht hnew hopening hin hlen =>
    .block ht hnew hopening (hf a s' hin hlen)

/-- A block whose opening brace was read before. -/
theorem of_block {q : Parser β} (hpre : Opening pre) (hq : RunsBlock tokens n q) :
    Runs tokens n pre q := fun s hin hlen =>
  .block (.refl s) (.nil _) (by rwa [List.append_nil]) (hq s hin hlen)

theorem bind_still (hp : Runs tokens n pre p) (hf : ∀ a, Still (f a)) :
    Runs tokens n pre (p >>= f) := by
  intro s hin hlen
  have hs := hp s hin hlen
  obtain ⟨a, b, s', hr, hbind⟩ | ⟨fault, s', hr, hbind⟩ := Still.bind_cases hf p s
  · rw [hr] at hs
    rw [hbind]
    exact hs
  · rw [hr] at hs
    rw [hbind]
    exact hs

/-- A body, and perhaps another one after `else`. -/
theorem bind_else {f : α → Option Token → Parser β} (hp : Runs tokens n [] p)
    (hnone : ∀ a, Still (f a none)) (hsome : ∀ a token, Runs tokens n [] (f a (some token))) :
    Runs tokens n [] (p >>= fun a => acceptKind? (.keyword .elseWord) >>= f a) := by
  intro s hin hlen
  have hs := hp s hin hlen
  rw [bind_apply]
  cases hr : p s with
  | error fault s' => rw [hr] at hs; exact hs
  | ok a s' =>
    rw [hr] at hs
    have hnone' : RunsAt tokens [] s (f a none s') := by
      obtain ⟨b, hb⟩ := hnone a s'
      rw [hb]
      exact hs
    change RunsAt tokens [] s ((acceptKind? (.keyword .elseWord) >>= f a) s')
    rw [bind_apply, acceptKind?]
    cases hs' : s'.rest with
    | nil => exact hnone'
    | cons token rest =>
      dsimp only
      by_cases htoken : token.kind = .keyword .elseWord
      · rw [if_pos htoken, State.advance_of_rest hs']
        have hsuffix : rest <:+ s.rest := by
          obtain ⟨new, -, -, hcourse⟩ := hs
          have := hcourse.suffix
          exact (List.suffix_cons token rest).trans (hs' ▸ this)
        exact hs.orElse hs' htoken (hsome a token _ (hsuffix.trans hin)
          (Nat.lt_of_le_of_lt hsuffix.length_le hlen))
      · rw [if_neg htoken]
        exact hnone'

theorem byHead {branch : Token → Option (Parser α)} {otherwise : Parser α}
    (h : Runs tokens (n + 1) [] otherwise)
    (hbranch : ∀ token ∈ tokens, ∀ p, branch token = some p → Runs tokens n [token] p) :
    Runs tokens (n + 1) [] (byHead branch otherwise) := by
  intro s hin hlen
  cases hs : s.rest with
  | nil => rw [byHead_of_end hs]; exact h s hin hlen
  | cons token rest =>
    cases hb : branch token with
    | none => rw [byHead_of_none hs hb]; exact h s hin hlen
    | some p =>
      rw [hs, List.length_cons] at hlen
      rw [byHead_of_some hs hb]
      have hrest : rest <:+ tokens := (List.suffix_cons token rest).trans (hs ▸ hin)
      have htoken : token ∈ tokens := (hs ▸ hin).subset List.mem_cons_self
      obtain ⟨new, hfinish, hfaults, hcourse⟩ :=
        hbranch token htoken p hb (s.after [token] rest) hrest (Nat.lt_of_succ_lt_succ hlen)
      refine ⟨new, hfinish, hfaults, ?_⟩
      rw [hs]
      exact hcourse

end Runs

/-! ### Blocks -/

theorem RunsBlock.bind_still {p : Parser α} {f : α → Parser β} (hp : RunsBlock tokens n p)
    (hf : ∀ a, Still (f a)) : RunsBlock tokens n (p >>= f) := by
  intro s hin hlen
  have hs := hp s hin hlen
  obtain ⟨a, b, s', hr, hbind⟩ | ⟨fault, s', hr, hbind⟩ := Still.bind_cases hf p s
  · rw [hr] at hs
    rw [hbind]
    exact hs
  · rw [hr] at hs
    rw [hbind]
    exact hs

theorem RunsBlock.insideFunction {p : Parser α} (hp : RunsBlock tokens n p) :
    RunsBlock tokens n (insideFunction p) := by
  intro s hin hlen
  have hs := hp { s with depth := s.depth + 1 } hin hlen
  rw [Parser.insideFunction]
  cases hr : p { s with depth := s.depth + 1 } with
  | ok a s' => rw [hr] at hs; exact hs
  | error fault s' => rw [hr] at hs; exact hs

/-- **A sequence of declarations**: what one declaration does, and so on up to where the sequence
stops. -/
theorem course_declarations {declaration : Parser (Option Stmt)} {closed : State → Bool}
    {nested : Bool} (hclosed : ∀ s, closed s = true ↔ Stops nested s.rest)
    (hdeclaration : RunsDeclaration tokens n declaration) (hless : Progresses n declaration)
    (steps : Nat) (s : State) (hin : s.rest <:+ tokens) (hlen : s.rest.length < n)
    (hsteps : s.rest.length < steps) :
    ∃ trees s' new, declarations declaration closed steps s = .ok trees s' ∧
      s'.finish = s.finish ∧ s'.faults = s.faults ++ new ∧
      Course tokens s.finish (.declarations nested) s.rest none new s'.rest := by
  induction steps generalizing s with
  | zero => exact absurd hsteps (Nat.not_lt_zero _)
  | succ steps ih =>
    rw [declarations]
    by_cases hstop : Stops nested s.rest
    · rw [if_pos ((hclosed s).mpr hstop)]
      exact ⟨[], s, [], rfl, rfl, (List.append_nil _).symm, .stop hstop⟩
    · rw [if_neg (mt (hclosed s).mp hstop)]
      obtain ⟨kept, s', new, hr, hfinish, hfaults, hcourse⟩ := hdeclaration s hin hlen
      have hne : s.rest ≠ [] := fun hend => hstop (.inl hend)
      have hlt := hless s hne hlen
      rw [hr] at hlt
      have hlt : s'.rest.length < s.rest.length := hlt
      have hin' : s'.rest <:+ tokens := by
        obtain hcourse | ⟨earlier, fault, rest, hcourse, -, hrest⟩ := hcourse
        · exact hcourse.suffix.trans hin
        · rw [hrest]
          exact ((resume_suffix rest).trans hcourse.suffix).trans hin
      obtain ⟨others, s'', new', hr', hfinish', hfaults', hothers⟩ :=
        ih s' hin' (by omega) (by omega)
      refine ⟨kept.toList ++ others, s'', new ++ new', ?_, hfinish'.trans hfinish, ?_, ?_⟩
      · rw [bind_apply, hr]
        simp only [bind_apply, hr']
        rfl
      · rw [hfaults', hfaults, List.append_assoc]
      · rw [hfinish] at hothers
        obtain hcourse | ⟨earlier, fault, rest, hcourse, rfl, hrest⟩ := hcourse
        · exact .kept hstop hcourse hothers
        · rw [hrest] at hothers
          rw [List.append_assoc]
          exact .dropped hstop hcourse hothers

theorem runsBlock_block {declaration : Parser (Option Stmt)} {steps : Nat}
    (hdeclaration : RunsDeclaration tokens n declaration) (hless : Progresses n declaration)
    (hsteps : n ≤ steps) : RunsBlock tokens n (block steps declaration) := by
  intro s hin hlen
  have hclosed (s : State) : (s.rest.isEmpty || s.nextIs (.symbol .rightBrace)) = true ↔
      Stops true s.rest := by
    rw [Stops, State.nextIs]
    cases s.rest with
    | nil => simp
    | cons token rest => simp
  obtain ⟨trees, s', new, hr, hfinish, hfaults, hcourse⟩ :=
    course_declarations hclosed hdeclaration hless steps s hin hlen (by omega)
  rw [block, bind_apply, hr]
  simp only [bind_apply, expect]
  cases hs' : s'.rest with
  | nil =>
    rw [hs'] at hcourse
    refine ⟨new, hfinish, hfaults, hs', ?_, rfl, hcourse⟩
    exact (State.here_of_end hs').trans hfinish
  | cons token rest =>
    rw [hs'] at hcourse
    obtain hend | ⟨-, brace, rest, heq, hbrace⟩ := hcourse.stops
    · cases hend
    · injection heq with htoken hrest
      subst htoken hrest
      rw [State.advance_of_rest hs']
      simp only [hbrace, if_true]
      exact ⟨new, token, hfinish, hfaults, hbrace, hcourse⟩

/-! ### Statements and declarations -/

section

variable {expr : Parser Expr} {statement : Parser Stmt} {declaration : Parser (Option Stmt)}
  {steps : Nat} {token : Token} {p : Parser Stmt}

/-- A keyword and the rest of its line. -/
theorem runs_line {word : Keyword} (hkind : token.kind = .keyword word)
    (hp : Spells tokens OneLine (Begun 0 0) p) : Runs tokens n [token] p := by
  have htoken := stretch_keyword hkind
  exact .of_line (hp.imp (fun _ h => htoken.append_line h) fun _ h => .inl (htoken.append_begun h))

/-- A keyword, what stands in parentheses after it, and a body. -/
theorem runs_header {word : Keyword} {q : Parser α} {f : α → Parser Stmt}
    (hkind : token.kind = .keyword word) (hq : Spells tokens Header Broken q)
    (hf : ∀ a, Runs tokens n [] (f a)) : Runs tokens n [token] (q >>= f) := by
  have htoken := stretch_keyword hkind
  exact .header_bind (hq.imp (fun _ h => h.prepend htoken.braceless) fun _ h => h.prepend htoken) hf

/-- How a statement goes on after its first token. -/
theorem runs_statementBranch (hexpr : Balanced tokens expr)
    (hstatement : Runs tokens n [] statement) (hdeclaration : RunsDeclaration tokens n declaration)
    (hless : Progresses n declaration) (hsteps : n ≤ steps) (htoken : token ∈ tokens)
    (hp : statementBranch steps expr statement declaration token = some p) :
    Runs tokens n [token] p := by
  unfold statementBranch at hp
  split at hp <;> rename_i hkind <;> cases hp
  · rw [forStatement_eq]
    refine runs_header hkind (spells_forHeader hexpr) fun clauses => ?_
    exact hstatement.bind_still fun body => .spanFrom_bind fun _ => .pure _
  · rw [ifStatement_eq]
    refine runs_header hkind (spells_condition hexpr _ _) fun cond => ?_
    refine hstatement.bind_else (fun yes => .spanFrom_bind fun _ => .pure _) fun yes token => ?_
    exact hstatement.bind_still fun no => .spanFrom_bind fun _ => .pure _
  · exact runs_line hkind (spells_printStatement hexpr _)
  · exact runs_line hkind (spells_returnStatement hexpr htoken)
  · rw [whileStatement_eq]
    refine runs_header hkind (spells_condition hexpr _ _) fun cond => ?_
    exact hstatement.bind_still fun body => .spanFrom_bind fun _ => .pure _
  · refine .of_block ⟨[], token, rfl, braceless_nil, hkind⟩ ?_
    exact (runsBlock_block hdeclaration hless hsteps).bind_still
      fun body => .spanFrom_bind fun _ => .pure _

/-- How a declaration goes on after its first token. -/
theorem runs_declarationBranch (hexpr : Balanced tokens expr)
    (hstatement : Runs tokens n [] statement) (hdeclaration : RunsDeclaration tokens n declaration)
    (hless : Progresses n declaration) (hsteps : n ≤ steps) (htoken : token ∈ tokens)
    (hp : declarationBranch steps expr statement declaration token = some p) :
    Runs tokens n [token] p := by
  unfold declarationBranch at hp
  split at hp
  · rename_i hkind
    cases hp
    have htoken' := stretch_keyword hkind
    rw [funcDeclaration_eq]
    refine .opening_bind ((spells_funcHeader steps).imp (fun _ h => h.prepend htoken'.braceless)
      fun _ h => h.prepend htoken') fun header => ?_
    exact (runsBlock_block hdeclaration hless hsteps).insideFunction.bind_still
      fun body => .spanFrom_bind fun _ => .pure _
  · rename_i hkind
    cases hp
    exact runs_line hkind (spells_varDeclaration hexpr _)
  · exact runs_statementBranch hexpr hstatement hdeclaration hless hsteps htoken hp

end

/-- A body that is recovered from is a declaration, kept or dropped. -/
theorem runsDeclaration_recover {body : Parser Stmt} (hbody : Runs tokens n [] body) :
    RunsDeclaration tokens n (recover body) := by
  intro s hin hlen
  obtain ⟨new, hfinish, hfaults, hcourse⟩ := hbody s hin hlen
  rw [recover]
  cases hr : body s with
  | ok tree s' =>
    rw [hr] at hfinish hfaults hcourse
    exact ⟨some tree, s', new, rfl, hfinish, hfaults, .inl hcourse⟩
  | error fault s' =>
    rw [hr] at hfinish hfaults hcourse
    refine ⟨none, (s'.record fault).synchronize, new ++ [fault], rfl, ?_, ?_,
      .inr ⟨new, fault, s'.rest, hcourse, rfl, State.synchronize_rest _⟩⟩
    · exact (Forward.synchronize () (s'.record fault)).finish.trans hfinish
    · rw [State.synchronize_faults, ← List.append_assoc, ← hfaults]
      rfl

/-- **Statements and declarations have a course.** -/
theorem runs_statement_declaration (tokens : List Token) (k : Nat) :
    Runs tokens k [] (statement k) ∧ RunsDeclaration tokens k (declaration k) := by
  induction k with
  | zero =>
    exact ⟨fun s _ hlen => absurd hlen (Nat.not_lt_zero _),
      fun s _ hlen => absurd hlen (Nat.not_lt_zero _)⟩
  | succ k ih =>
    obtain ⟨hstatement, hdeclaration⟩ := ih
    have hless := (coherent_statement_declaration k).1
    have hexpr := balanced_expression tokens (k + 1)
    have hline : Runs tokens (k + 1) [] (exprStatement (expression (k + 1))) :=
      .of_line ((spells_exprStatement hexpr).imp (fun _ h => h) fun _ h => .inl h)
    rw [statement_succ, declaration_succ]
    refine ⟨hline.byHead fun token htoken p hp => ?_,
      runsDeclaration_recover (hline.byHead fun token htoken p hp => ?_)⟩
    · exact runs_statementBranch hexpr hstatement hdeclaration hless (Nat.le_succ k) htoken hp
    · exact runs_declarationBranch hexpr hstatement hdeclaration hless (Nat.le_succ k) htoken hp

end Parser

/-- At the top level nothing breaks off: the parser gets to the end of the tokens on a course. -/
theorem exists_course_program (tokens : List Token) :
    ∃ s, Parser.program ((Parser.State.start tokens).rest.length + 1) (.start tokens) =
        .ok (parseTokens tokens).program s ∧ s.faults = (parseTokens tokens).faults ∧
      s.rest = [] ∧ Course (Parser.State.start tokens).rest (endOfTokens tokens)
        (.declarations false) (Parser.State.start tokens).rest none s.faults s.rest := by
  have hclosed (s : Parser.State) : s.rest.isEmpty = true ↔ Stops false s.rest := by simp [Stops]
  obtain ⟨trees, s, new, hr, -, hfaults, hcourse⟩ := Parser.course_declarations hclosed
    (Parser.runs_statement_declaration (Parser.State.start tokens).rest _).2
    (Parser.coherent_statement_declaration _).1 _ (Parser.State.start tokens) List.suffix_rfl
    (Nat.lt_succ_self _) (Nat.lt_succ_self _)
  have hparse : parseTokens tokens = ⟨trees, s.faults⟩ := by
    rw [parseTokens, Parser.program, hr]
  have hnew : s.faults = new := hfaults
  rw [hparse, hnew]
  exact ⟨s, hr, hnew, by simpa [Stops] using hcourse.stops, hnew ▸ hcourse⟩

/-- **The parsing of an input has a course**, to the end of its tokens. -/
theorem course_parseTokens (tokens : List Token) :
    Course (Parser.State.start tokens).rest (endOfTokens tokens) (.declarations false)
      (Parser.State.start tokens).rest none (parseTokens tokens).faults [] := by
  obtain ⟨s, -, hfaults, hend, hcourse⟩ := exists_course_program tokens
  rwa [hfaults, hend] at hcourse

end BlockScript
