import BlockScript.Proofs.Acceptance
import BlockScript.Proofs.Course

/-!
# One statement after another

A program that is followed by other tokens is read as if they were not there, and what follows is
read as if it stood alone: the trees come one after the other, and so do the faults. The same is
true of a simple statement in place of the program, whatever is wrong with it. So a fault in a
simple statement has no effect on the statements after it.

The parser leaves no trace of what it read except for where the last token stopped, which is
`Parser.declaration_stopped`. What has to be seen is that it stops where the other tokens begin, and
does so without a look at them. For a program that is `Parser.Reads`, if no `else` follows. In a
simple statement the only semicolon is the last token. No parser of an expression takes a semicolon,
so until it is taken, a token is next, and then `Parser.Coherent` applies. Whoever breaks off before
has the tokens up to the semicolon skipped.

## Main definitions

* `SimpleStatement` — a statement of one line, well formed or not
* `Parser.Contained` — the parser reads up to the semicolon and does not see what follows
* `Parser.Passes` — the parser gets from one state to another at the top level

## Main results

* `Parser.contained_declarationBody` — a simple statement is read without a look at what follows
* `Parser.topLevel_start` — what follows is read as if it stood alone
* `parseTokens_append` — trees and faults come one after the other
-/

namespace BlockScript

/-! ## Simple statements -/

/-- The kinds of tokens that can stand anywhere in a simple statement: they do not end it, and no
other statement starts with them. -/
def Token.Kind.staysInside (kind : Token.Kind) : Bool :=
  match kind with
  | .symbol .semicolon | .symbol .leftBrace | .symbol .rightBrace | .endOfInput => false
  | _ => !kind.startsStatement

/-- The kinds of tokens that a simple statement can start with. -/
def Token.Kind.leads : Token.Kind → Bool
  | .keyword .varWord | .keyword .printWord | .keyword .returnWord => true
  | _ => false

/-- Perhaps one of the keywords `var`, `print` and `return`, then any tokens that do not end the
statement, and a semicolon. -/
inductive SimpleStatement : List Token → Prop
  | bare {middle : List Token} {semicolon : Token}
      (hmiddle : ∀ token ∈ middle, token.kind.staysInside = true)
      (hsemicolon : semicolon.kind = .symbol .semicolon) : SimpleStatement (middle ++ [semicolon])
  | led {keyword : Token} {middle : List Token} {semicolon : Token}
      (hkeyword : keyword.kind.leads = true)
      (hmiddle : ∀ token ∈ middle, token.kind.staysInside = true)
      (hsemicolon : semicolon.kind = .symbol .semicolon) :
      SimpleStatement (keyword :: (middle ++ [semicolon]))

/-- The tokens end with their only semicolon, and no statement starts after the first one. -/
structure Sentence (words : List Token) : Prop where
  last : ∃ semicolon ∈ words.getLast?, semicolon.kind = .symbol .semicolon
  only : semicolons words = 1
  keywords : ∀ token ∈ words.tail, token.kind.startsStatement = false

theorem semicolons_cons (token : Token) (words : List Token) :
    semicolons (token :: words) =
      semicolons words + if token.kind = .symbol .semicolon then 1 else 0 := by
  simp [semicolons, List.countP_cons]

theorem semicolons_eq_zero {words : List Token}
    (h : ∀ token ∈ words, token.kind ≠ .symbol .semicolon) : semicolons words = 0 :=
  List.countP_eq_zero.mpr (by simpa using h)

theorem Token.Kind.ne_of_staysInside {kind : Token.Kind} (h : kind.staysInside = true) :
    kind ≠ .symbol .semicolon ∧ kind ≠ .symbol .leftBrace ∧ kind.startsStatement = false := by
  unfold Token.Kind.staysInside at h
  split at h <;> simp_all

namespace Sentence

variable {words rest : List Token} {token : Token}

theorem ne_nil (h : Sentence words) : words ≠ [] := by
  rintro rfl
  exact absurd h.only (by simp)

/-- After some tokens without the semicolon, there is still a sentence. -/
theorem of_append (h : Sentence (words ++ rest)) (hwords : semicolons words = 0) :
    Sentence rest := by
  have hone : semicolons rest = 1 := by
    have := h.only
    rwa [semicolons_append, hwords, Nat.zero_add] at this
  have hne : rest ≠ [] := by
    rintro rfl
    exact absurd hone (by simp)
  refine ⟨?_, hone, fun token htoken => h.keywords token ?_⟩
  · obtain ⟨semicolon, hlast, hsemicolon⟩ := h.last
    exact ⟨semicolon, by rwa [List.getLast?_append_of_ne_nil _ hne] at hlast, hsemicolon⟩
  · cases words with
    | nil => exact htoken
    | cons first words => exact List.mem_append_right words (List.mem_of_mem_tail htoken)

/-- Nothing comes after the semicolon. -/
theorem eq_nil_of_append (h : Sentence (words ++ rest)) (hwords : semicolons words = 1) :
    rest = [] := by
  by_contra hne
  obtain ⟨semicolon, hlast, hsemicolon⟩ := h.last
  rw [List.getLast?_append_of_ne_nil _ hne] at hlast
  have hpos : 0 < semicolons rest :=
    List.countP_pos_iff.mpr ⟨semicolon, List.mem_of_getLast? hlast, by simpa using hsemicolon⟩
  have hone := h.only
  rw [semicolons_append, hwords] at hone
  omega

theorem of_cons (h : Sentence (token :: rest)) (htoken : token.kind ≠ .symbol .semicolon) :
    Sentence rest := by
  have h : Sentence ([token] ++ rest) := h
  exact h.of_append (by simp [semicolons_cons, htoken])

theorem eq_nil_of_cons (h : Sentence (token :: rest)) (htoken : token.kind = .symbol .semicolon) :
    rest = [] := by
  have h : Sentence ([token] ++ rest) := h
  exact h.eq_nil_of_append (by simp [semicolons_cons, htoken])

/-- A sentence is skipped to its end, whatever follows. -/
theorem exists_skipFrom (h : Sentence (token :: rest)) :
    ∃ last, ∀ more, Parser.skipFrom token (rest ++ more) = (last, more) := by
  induction rest generalizing token with
  | nil =>
    have htoken : token.kind = .symbol .semicolon := by simpa using h.last
    refine ⟨token, fun more => ?_⟩
    cases more with
    | nil => rfl
    | cons next more => simp [Parser.skipFrom, htoken]
  | cons next rest ih =>
    have htoken : token.kind ≠ .symbol .semicolon := fun htoken =>
      List.cons_ne_nil _ _ (h.eq_nil_of_cons htoken)
    have hnext := h.keywords next List.mem_cons_self
    obtain ⟨last, hlast⟩ := ih (h.of_cons htoken)
    refine ⟨last, fun more => ?_⟩
    rw [List.cons_append, Parser.skipFrom, if_neg (by simp [htoken, hnext])]
    exact hlast more

end Sentence

theorem SimpleStatement.sentence {words : List Token} (h : SimpleStatement words) :
    Sentence words := by
  have hmiddle {middle : List Token} {semicolon : Token}
      (hmiddle : ∀ token ∈ middle, token.kind.staysInside = true)
      (hsemicolon : semicolon.kind = .symbol .semicolon) :
      semicolons (middle ++ [semicolon]) = 1 ∧
        ∀ token ∈ middle ++ [semicolon], token.kind.startsStatement = false := by
    refine ⟨?_, List.forall_mem_append.mpr ⟨fun token ht => ?_, ?_⟩⟩
    · have hnone := semicolons_eq_zero fun token ht =>
        (Token.Kind.ne_of_staysInside (hmiddle token ht)).1
      simp [hnone, semicolons_cons, hsemicolon]
    · exact (Token.Kind.ne_of_staysInside (hmiddle token ht)).2.2
    · simp [hsemicolon, Token.Kind.startsStatement]
  obtain ⟨hinside, hsemicolon⟩ | ⟨hkeyword, hinside, hsemicolon⟩ := h
  · obtain ⟨hone, hkeywords⟩ := hmiddle hinside hsemicolon
    refine ⟨by simpa using hsemicolon, hone, fun token ht => ?_⟩
    exact hkeywords token (List.mem_of_mem_tail ht)
  · obtain ⟨hone, hkeywords⟩ := hmiddle hinside hsemicolon
    refine ⟨by simpa [List.getLast?_cons] using hsemicolon, ?_, hkeywords⟩
    rw [semicolons_cons, hone, if_neg]
    rintro hkind
    simp [hkind, Token.Kind.leads] at hkeyword

namespace Parser

variable {α β : Type}

/-! ## Reading a simple statement -/

/-- The parser takes no semicolon. -/
def LeavesSemicolon (p : Parser α) : Prop :=
  ∀ s, ∃ words, s.rest = words ++ (stateAfter (p s)).rest ∧ semicolons words = 0

theorem LeavesSemicolon.of_balanced {p : Parser α} (h : ∀ tokens, Balanced tokens p) :
    LeavesSemicolon p := by
  intro s
  have hs := h s.rest s List.suffix_rfl
  cases hr : p s with
  | ok a s' =>
    rw [hr] at hs
    obtain ⟨words, new, htakes, -, hwords⟩ := hs
    exact ⟨words, htakes.rest, hwords.semicolons⟩
  | error fault s' =>
    rw [hr] at hs
    obtain ⟨words, new, htakes, -, hwords, -⟩ := hs
    exact ⟨words, htakes.rest, Nat.le_zero.mp hwords.semicolons⟩

/-- Where a sentence is read to: past the semicolon, or the parser breaks off before. -/
def EndsSentence : EStateM.Result Located State α → Prop
  | .ok _ s => s.rest = []
  | .error _ s => Sentence s.rest

/-- The parser reads a sentence in the same way whatever comes after it. -/
def Contained (n : Nat) (p : Parser α) : Prop :=
  ∀ s : State, Sentence s.rest → EndsSentence (p s) ∧
    ∀ c : Setting, s.rest.length + c.more.length < n → p (s.widen c) = widen c (p s)

namespace Contained

variable {n : Nat} {p : Parser α} {f : α → Parser β}

/-- What comes before the semicolon. -/
theorem bind (hp : Coherent n p p) (hleaves : LeavesSemicolon p) (hf : ∀ a, Contained n (f a)) :
    Contained n (p >>= f) := by
  intro s hs
  obtain ⟨words, hwords, hnone⟩ := hleaves s
  rw [hwords] at hs
  have hs' := hs.of_append hnone
  have hsame (c : Setting) (hn : s.rest.length + c.more.length < n) :
      p (s.widen c) = widen c (p s) := hp.same c s hn fun hend => absurd hend hs'.ne_nil
  have hle := (hp.forward s).suffix.length_le
  cases hr : p s with
  | error fault s' =>
    rw [hr] at hs' hsame
    refine ⟨?_, fun c hn => ?_⟩
    · rw [bind_apply, hr]
      exact hs'
    · rw [bind_apply, bind_apply, hsame c hn, hr]
      rfl
  | ok a s' =>
    rw [hr] at hs' hsame hle
    have hle : s'.rest.length ≤ s.rest.length := hle
    obtain ⟨hends, hrest⟩ := hf a s' hs'
    refine ⟨?_, fun c hn => ?_⟩
    · rw [bind_apply, hr]
      exact hends
    · rw [bind_apply, bind_apply, hsame c hn, hr]
      exact hrest c (by omega)

/-- The semicolon itself. After it the statement only needs to know where it stopped. -/
theorem semicolon (what : String) (start : Nat) (g : Span → β) : Contained n (do
      let _ ← expect (.symbol .semicolon) what
      return g (← spanFrom start)) := by
  intro s hs
  obtain ⟨token, rest, hrest⟩ := List.exists_cons_of_ne_nil hs.ne_nil
  have hwiden (c : Setting) := widen_rest_cons (c := c) hrest
  by_cases htoken : token.kind = .symbol .semicolon
  · have hexpect (t : State) (rest : List Token) (ht : t.rest = token :: rest) :
        (do
          let _ ← expect (.symbol .semicolon) what
          return g (← spanFrom start) : Parser β) t =
          .ok (g ⟨start, token.span.stop⟩) (t.after [token] rest) := by
      rw [bind_apply, expect, ht]
      simp only [htoken, if_true, State.advance_of_rest ht]
      rfl
    refine ⟨?_, fun c _ => ?_⟩
    · rw [hexpect s rest hrest]
      rw [hrest] at hs
      exact hs.eq_nil_of_cons htoken
    · rw [hexpect s rest hrest, hexpect _ _ (hwiden c), after_widen]
      rfl
  · have hexpect (t : State) (rest : List Token) (ht : t.rest = token :: rest) :
        (do
          let _ ← expect (.symbol .semicolon) what
          return g (← spanFrom start) : Parser β) t = .error ⟨.expected what, token.span⟩ t := by
      rw [bind_apply, expect, ht]
      simp only [htoken, if_false, Parser.failHere, State.here, ht]
    refine ⟨?_, fun c _ => ?_⟩
    · rw [hexpect s rest hrest]
      exact hs
    · rw [hexpect s rest hrest, hexpect _ _ (hwiden c)]
      rfl

end Contained

section

variable {n k : Nat}

theorem leavesSemicolon_expression (k : Nat) : LeavesSemicolon (expression k) :=
  .of_balanced fun tokens => balanced_expression tokens k

theorem contained_exprStatement (h : n ≤ k) : Contained n (exprStatement (expression k)) :=
  .bind (coherent_expression h (Nat.le_refl k)) (leavesSemicolon_expression k) fun _ =>
    .semicolon _ _ _

theorem contained_printStatement (h : n ≤ k) (start : Nat) :
    Contained n (printStatement (expression k) start) :=
  .bind (coherent_expression h (Nat.le_refl k)) (leavesSemicolon_expression k) fun _ =>
    .semicolon _ _ _

theorem contained_returnStatement (h : n ≤ k) (keyword : Span) :
    Contained n (returnStatement (expression k) keyword) := by
  have hexpr := coherent_expression h (Nat.le_refl k)
  have hcheck : LeavesSemicolon (checkReturn keyword) := by
    intro s
    refine ⟨[], ?_, rfl⟩
    unfold checkReturn
    split <;> rfl
  refine .bind (.checkReturn keyword) hcheck fun _ => ?_
  refine .bind (hexpr.unlessNext _)
    (.of_balanced fun tokens => (balanced_expression tokens k).unlessNext _) fun _ => ?_
  exact .semicolon _ _ _

theorem contained_varDeclaration (h : n ≤ k) (start : Nat) :
    Contained n (varDeclaration (expression k) start) := by
  have hexpr := coherent_expression h (Nat.le_refl k)
  refine .bind (.expect _ _)
    (.of_balanced fun tokens => .expect ⟨by simp, by simp, rfl, rfl⟩ _) fun name => ?_
  refine .bind hexpr.initialValue
    (.of_balanced fun tokens => balanced_initialValue (balanced_expression tokens k)) fun _ => ?_
  exact .semicolon _ _ _

/-- Nothing but an expression starts with a token that stays inside, or with a semicolon. -/
theorem declarationBranch_eq_none {token : Token}
    (h : token.kind.staysInside = true ∨ token.kind = .symbol .semicolon) (steps : Nat)
    (expr : Parser Expr) (statement : Parser Stmt) (declaration : Parser (Option Stmt)) :
    declarationBranch steps expr statement declaration token = none := by
  have hbrace : token.kind ≠ .symbol .leftBrace := by
    obtain h | h := h
    · exact (Token.Kind.ne_of_staysInside h).2.1
    · simp [h]
  have hkeyword : token.kind.startsStatement = false := by
    obtain h | h := h
    · exact (Token.Kind.ne_of_staysInside h).2.2
    · simp [h, Token.Kind.startsStatement]
  unfold declarationBranch
  split
  · rename_i hkind
    exact absurd hkeyword (by simp [hkind, Token.Kind.startsStatement, Keyword.startsStatement])
  · rename_i hkind
    exact absurd hkeyword (by simp [hkind, Token.Kind.startsStatement, Keyword.startsStatement])
  · unfold statementBranch
    split <;> simp_all [Token.Kind.startsStatement, Keyword.startsStatement]

/-- How a simple statement goes on after a keyword. -/
theorem exists_contained_branch {token : Token} (h : token.kind.leads = true) (k : Nat) :
    ∃ p, Contained (k + 1) p ∧
      declarationBranch (k + 1) (expression (k + 1)) (statement k) (declaration k) token =
        some p := by
  unfold declarationBranch statementBranch
  unfold Token.Kind.leads at h
  split at h
  · rename_i hkind
    exact ⟨_, contained_varDeclaration (Nat.le_refl _) _, by rw [hkind]⟩
  · rename_i hkind
    exact ⟨_, contained_printStatement (Nat.le_refl _) _, by rw [hkind]⟩
  · rename_i hkind
    exact ⟨_, contained_returnStatement (Nat.le_refl _) _, by rw [hkind]⟩
  · exact nomatch h

/-- **A simple statement is read without a look at what follows.** -/
theorem contained_declarationBody (k : Nat) {s : State} (h : SimpleStatement s.rest) :
    EndsSentence (declarationBody k s) ∧ ∀ c : Setting, s.rest.length + c.more.length < k + 1 →
      declarationBody k (s.widen c) = widen c (declarationBody k s) := by
  have hsentence := h.sentence
  obtain ⟨token, rest, hrest⟩ := List.exists_cons_of_ne_nil hsentence.ne_nil
  have hwiden (c : Setting) := widen_rest_cons (c := c) hrest
  by_cases hlead : token.kind.leads = true
  · obtain ⟨p, hp, hbranch⟩ := exists_contained_branch hlead k
    have htail : Sentence rest := by
      rw [hrest] at hsentence
      refine hsentence.of_cons fun hkind => ?_
      simp [hkind, Token.Kind.leads] at hlead
    obtain ⟨hends, hsame⟩ := hp (s.after [token] rest) htail
    unfold declarationBody
    rw [byHead_of_some hrest hbranch]
    refine ⟨hends, fun c hn => ?_⟩
    rw [byHead_of_some (hwiden c) hbranch, after_widen]
    rw [hrest, List.length_cons] at hn
    exact hsame c (by rw [State.after_rest]; omega)
  · have hinside : token.kind.staysInside = true ∨ token.kind = .symbol .semicolon := by
      rw [hrest] at h
      generalize hwords : token :: rest = words at h
      obtain @⟨middle, semicolon, hmiddle, hsemicolon⟩ | ⟨hkeyword, -, -⟩ := h
      · have hmem : token ∈ middle ++ [semicolon] := hwords ▸ List.mem_cons_self
        obtain hmem | hmem := List.mem_append.mp hmem
        · exact .inl (hmiddle token hmem)
        · exact .inr (List.mem_singleton.mp hmem ▸ hsemicolon)
      · injection hwords with hfirst
        exact absurd (hfirst ▸ hkeyword) hlead
    have hbranch := declarationBranch_eq_none hinside (k + 1) (expression (k + 1)) (statement k)
      (declaration k)
    obtain ⟨hends, hsame⟩ := contained_exprStatement (Nat.le_refl (k + 1)) s hsentence
    unfold declarationBody
    rw [byHead_of_none hrest hbranch]
    refine ⟨hends, fun c hn => ?_⟩
    rw [byHead_of_none (hwiden c) hbranch]
    exact hsame c hn

/-- Whoever breaks off in a sentence has it skipped to its end. -/
theorem State.synchronize_sentence {s : State} (h : Sentence s.rest) :
    s.synchronize.rest = [] ∧ ∀ c : Setting, (s.widen c).synchronize = s.synchronize.widen c := by
  obtain ⟨token, rest, hrest⟩ := List.exists_cons_of_ne_nil h.ne_nil
  rw [hrest] at h
  obtain ⟨last, hlast⟩ := h.exists_skipFrom
  have hnil := hlast []
  rw [List.append_nil] at hnil
  refine ⟨?_, fun c => ?_⟩
  · simp only [State.synchronize, hrest, hnil]
  · simp only [State.synchronize, widen_rest_cons hrest, hrest, hlast, hnil]
    rfl

/-- **A simple statement is done with at its end**, and what follows makes no difference. -/
theorem declaration_simpleStatement (k : Nat) {s : State} (h : SimpleStatement s.rest) :
    ∃ kept s', declaration (k + 1) s = .ok kept s' ∧ s'.rest = [] ∧ s'.depth = s.depth ∧
      ∀ c : Setting, s.rest.length + c.more.length < k + 1 →
        declaration (k + 1) (s.widen c) = .ok kept (s'.widen c) := by
  obtain ⟨hends, hsame⟩ := contained_declarationBody k h
  have hcoherent := ((coherent_statement_declaration (k + 1)).2 _ (Nat.le_refl _)).2
  have hdepth := (hcoherent.forward s).follows.depth
  simp only [declaration_succ, recover] at hdepth ⊢
  cases hr : declarationBody k s with
  | ok tree s' =>
    rw [hr] at hends hsame hdepth
    refine ⟨some tree, s', rfl, hends, hdepth, fun c hn => ?_⟩
    rw [hsame c hn]
    rfl
  | error fault s' =>
    rw [hr] at hends hsame hdepth
    have hrecord : Sentence (s'.record fault).rest := hends
    obtain ⟨hrest, hwiden⟩ := State.synchronize_sentence hrecord
    refine ⟨none, (s'.record fault).synchronize, rfl, hrest, hdepth, fun c hn => ?_⟩
    rw [hsame c hn, ← hwiden c, ← record_widen]
    rfl

end

/-! ## The top level -/

/-- At most `steps` declarations up to the end of the input. -/
def topLevel (n steps : Nat) : Parser Program :=
  declarations (declaration n) (fun s => s.rest.isEmpty) steps

theorem topLevel_of_end {s : State} (hs : s.rest = []) (n steps : Nat) :
    topLevel n steps s = .ok [] s := by
  cases steps with
  | zero => rfl
  | succ steps => rw [topLevel, declarations, hs]; rfl

theorem topLevel_of_rest {s : State} (hs : s.rest ≠ []) (n steps : Nat) :
    topLevel n (steps + 1) s = (do
      let kept ← declaration n
      let others ← topLevel n steps
      pure (kept.toList ++ others) : Parser Program) s := by
  rw [topLevel, declarations, if_neg (by simpa using hs)]
  rfl

/-- At the top level, the parser gets from `s` to `s'` and keeps the trees on its way. -/
def Passes (n : Nat) (s s' : State) (trees : Program) : Prop :=
  ∀ steps, s.rest.length < steps → ∃ steps', s'.rest.length < steps' ∧
    ∀ others t, topLevel n steps' s' = .ok others t → topLevel n steps s = .ok (trees ++ others) t

namespace Passes

variable {n : Nat} {s s' s'' : State} {trees trees' : Program}

theorem refl (n : Nat) (s : State) : Passes n s s [] :=
  fun steps hsteps => ⟨steps, hsteps, fun _ _ h => h⟩

theorem trans (h : Passes n s s' trees) (h' : Passes n s' s'' trees') :
    Passes n s s'' (trees ++ trees') := by
  intro steps hsteps
  obtain ⟨steps', hsteps', hr⟩ := h steps hsteps
  obtain ⟨steps'', hsteps'', hr'⟩ := h' steps' hsteps'
  refine ⟨steps'', hsteps'', fun others t ht => ?_⟩
  rw [List.append_assoc]
  exact hr _ t (hr' others t ht)

/-- One declaration. -/
theorem single {kept : Option Stmt} (hs : s.rest ≠ []) (hr : declaration n s = .ok kept s')
    (hless : s'.rest.length < s.rest.length) : Passes n s s' kept.toList := by
  intro steps hsteps
  obtain ⟨steps, rfl⟩ := Nat.exists_eq_add_of_le' (Nat.lt_of_le_of_lt (Nat.zero_le _) hsteps)
  refine ⟨steps, by omega, fun others t ht => ?_⟩
  rw [topLevel_of_rest hs, bind_apply, hr]
  simp only [bind_apply, ht]
  rfl

/-- The declarations of a program, if no `else` follows. -/
theorem of_parts (parts : List (List Token × Stmt))
    (hparts : ∀ d ∈ parts, Grammar.Statement Grammar.nearestIf .declaration false d.1 d.2)
    {more : List Token} (hmore : Clear (· ≠ .keyword .elseWord) more) {s : State}
    (hs : s.rest = parts.flatMap Prod.fst ++ more) (hn : s.rest.length < n) :
    Passes n s (s.after (parts.flatMap Prod.fst) more) (parts.map Prod.snd) := by
  induction parts generalizing s with
  | nil =>
    rw [List.flatMap_nil, State.after_nil (by simpa using hs)]
    exact refl n s
  | cons d parts ih =>
    obtain ⟨hd, hparts⟩ := List.forall_mem_cons.mp hparts
    rw [List.flatMap_cons, List.append_assoc] at hs
    have hlen := congrArg List.length hs
    rw [List.length_append] at hlen
    have hclear := clear_declarations (fun _ h => h) (fun d hd => (hparts d hd).starts) hmore
    have hread := (readsStmt_of_derives hd n s.lastStop).whole s (parts.flatMap Prod.fst ++ more)
      (by omega) hs rfl nofun hclear
    obtain ⟨token, words, hwords, -⟩ := hd.starts
    have hpos : 0 < d.1.length := by simp [hwords]
    have hfirst := single (by rw [hs, hwords]; simp) hread (by rw [State.after_rest]; omega)
    have hrest := hfirst.trans (ih hparts (s := s.after d.1 (parts.flatMap Prod.fst ++ more)) rfl
      (by rw [State.after_rest]; omega))
    rwa [State.after_after] at hrest

end Passes

/-- **What a list of tokens is read as**, after other faults and with larger bounds. -/
theorem topLevel_start (tokens : List Token) {n steps : Nat}
    (hn : (State.start tokens).rest.length < n)
    (hsteps : (State.start tokens).rest.length < steps) (earlier : List Located) :
    ∃ s, topLevel n steps ((State.start tokens).widen ⟨[], earlier, endOfTokens tokens⟩) =
        .ok (parseTokens tokens).program s ∧
      s.faults = earlier ++ (parseTokens tokens).faults := by
  have hclosed : ClosedByHead fun s => s.rest.isEmpty :=
    ⟨fun c s hs => hs.isEmpty_widen, fun s hs => by rw [hs]; rfl⟩
  obtain ⟨hless, hcoherent⟩ := coherent_statement_declaration ((State.start tokens).rest.length + 1)
  have htop := Coherent.declarations hclosed (hcoherent n hn).2 hless (Nat.le_refl _) hsteps
  have hsame := htop.same ⟨[], earlier, endOfTokens tokens⟩ (.start tokens) (Nat.lt_succ_self _)
    fun _ => ⟨rfl, (htop.forward (.start tokens)).finish.symm⟩
  obtain ⟨s, hr, hfaults, -⟩ := exists_course_program tokens
  rw [program] at hr
  rw [hr] at hsame
  exact ⟨_, hsame, congrArg (earlier ++ ·) hfaults⟩

/-- Where the last token stopped does not matter at the top level. -/
theorem topLevel_stopped {n steps : Nat} {s t : State} {trees : Program}
    (h : topLevel (n + 1) steps s = .ok trees t) (stop : Nat) :
    ∃ t', topLevel (n + 1) steps (s.stopped stop) = .ok trees t' ∧ t'.faults = t.faults := by
  cases steps with
  | zero =>
    injection h with htrees ht
    exact ⟨s.stopped stop, by rw [← htrees]; rfl, by rw [← ht]; rfl⟩
  | succ steps =>
    by_cases hs : s.rest = []
    · rw [topLevel_of_end hs] at h
      injection h with htrees ht
      refine ⟨s.stopped stop, ?_, by rw [← ht]; rfl⟩
      rw [← htrees, topLevel_of_end (s := s.stopped stop) hs]
    · rw [topLevel_of_rest hs, bind_apply] at h
      rw [topLevel_of_rest (show (s.stopped stop).rest ≠ [] from hs), bind_apply,
        declaration_stopped n hs]
      exact ⟨t, h, rfl⟩

end Parser

/-! ## Tokens one after another -/

section

variable {tokens more : List Token}

theorem endOfTokens_append (hend : ∀ token ∈ tokens, token.kind ≠ .endOfInput) (hmore : more ≠ []) :
    endOfTokens (tokens ++ more) = endOfTokens more := by
  have hnone : tokens.find? (·.kind = .endOfInput) = none := by simpa using hend
  simp [endOfTokens, List.find?_append, hnone, List.getLast?_append_of_ne_nil _ hmore]

theorem start_rest_append (hend : ∀ token ∈ tokens, token.kind ≠ .endOfInput) (more : List Token) :
    (Parser.State.start (tokens ++ more)).rest = tokens ++ (Parser.State.start more).rest :=
  List.takeWhile_append_of_pos fun token ht => decide_eq_true (hend token ht)

theorem start_rest_eq_self (hend : ∀ token ∈ tokens, token.kind ≠ .endOfInput) :
    (Parser.State.start tokens).rest = tokens := by
  have h := start_rest_append hend []
  rwa [List.append_nil, show (Parser.State.start []).rest = [] from rfl, List.append_nil] at h

/-- The setting that tokens are put into by others after them. -/
def followedBy (tokens more : List Token) : Parser.Setting :=
  ⟨(Parser.State.start more).rest, [], endOfTokens (tokens ++ more)⟩

theorem start_append (hend : ∀ token ∈ tokens, token.kind ≠ .endOfInput) (more : List Token) :
    Parser.State.start (tokens ++ more) =
      (Parser.State.start tokens).widen (followedBy tokens more) := by
  simp only [Parser.State.widen, followedBy, start_rest_eq_self hend, ← start_rest_append hend more]
  rfl

/-- No `else` is next if the tokens do not begin with one. -/
theorem clear_start (helse : ∀ token ∈ more.head?, token.kind ≠ .keyword .elseWord) :
    Parser.Clear (· ≠ .keyword .elseWord) (Parser.State.start more).rest := by
  cases more with
  | nil => exact Parser.clear_nil _
  | cons token more =>
    simp only [Parser.State.start, List.takeWhile_cons]
    split
    · exact (Parser.clear_cons ..).mpr (helse token rfl)
    · exact Parser.clear_nil _

/-- A parser that gets to the end of the tokens keeps and records what it did on its way. -/
theorem parseTokens_of_passes {s : Parser.State} {trees : Program} {n : Nat}
    (hn : (Parser.State.start tokens).rest.length < n)
    (h : Parser.Passes n (.start tokens) s trees) (hs : s.rest = []) :
    parseTokens tokens = ⟨trees, s.faults⟩ := by
  obtain ⟨steps, -, hread⟩ := h n hn
  obtain ⟨t, ht, hfaults⟩ := Parser.topLevel_start tokens hn hn []
  have hsame : (Parser.State.start tokens).widen ⟨[], [], endOfTokens tokens⟩ = .start tokens := by
    simp [Parser.State.widen, Parser.State.start]
  rw [hsame, hread [] s (Parser.topLevel_of_end hs ..), List.append_nil] at ht
  injection ht with htrees ht
  rw [htrees, ht, hfaults]
  rfl

/-- If the parser gets past the tokens in the same way whether or not others follow, then the others
are read as if they stood alone. -/
theorem parseTokens_append_of_passes (hend : ∀ token ∈ tokens, token.kind ≠ .endOfInput)
    (hmore : more ≠ []) {s : Parser.State} {trees : Program} {n : Nat}
    (hn : (Parser.State.start (tokens ++ more)).rest.length = n)
    (halone : Parser.Passes (n + 1) (.start tokens) s trees) (hs : s.rest = [])
    (hdepth : s.depth = 0)
    (hboth : Parser.Passes (n + 1) ((Parser.State.start tokens).widen (followedBy tokens more))
      (s.widen (followedBy tokens more)) trees) :
    parseTokens (tokens ++ more) =
      ⟨(parseTokens tokens).program ++ (parseTokens more).program,
        (parseTokens tokens).faults ++ (parseTokens more).faults⟩ := by
  have hlen : tokens.length + (Parser.State.start more).rest.length = n := by
    rw [← hn, start_rest_append hend, List.length_append]
  rw [parseTokens_of_passes (by rw [start_rest_eq_self hend]; omega) halone hs]
  -- With the others, the parser goes on from there, and only the stop of the last token differs.
  rw [← start_append hend] at hboth
  obtain ⟨steps, hsteps, hread⟩ := hboth (n + 1) (by omega)
  have hsteps : (Parser.State.start more).rest.length < steps := by
    simpa [Parser.State.widen, followedBy, hs] using hsteps
  have hstate : s.widen (followedBy tokens more) =
      ((Parser.State.start more).widen ⟨[], s.faults, endOfTokens more⟩).stopped s.lastStop := by
    simp [Parser.State.widen, Parser.State.stopped, Parser.State.start, followedBy, hs, hdepth,
      endOfTokens_append hend hmore]
  obtain ⟨t, ht, hfaults⟩ := Parser.topLevel_start more (n := n + 1) (by omega) hsteps s.faults
  obtain ⟨t', ht', hsame⟩ := Parser.topLevel_stopped ht s.lastStop
  rw [← hstate] at ht'
  rw [parseTokens, hn, Parser.program, ← Parser.topLevel, hread _ t' ht']
  exact congrArg (Parsed.mk _) (hsame.trans hfaults)

end

/-- **Faults are isolated to their statement.** Let the tokens be a program, or a simple statement
that may have faults. The parser reads them and any others after them, which do not begin with an
`else`, as it reads both alone: it keeps the trees of the former and then those of the latter, and
it records the faults of the former and then those of the latter. -/
theorem parseTokens_append (tokens more : List Token)
    (hend : ∀ token ∈ tokens, token.kind ≠ .endOfInput)
    (htokens : (parseTokens tokens).faults = [] ∨ SimpleStatement tokens)
    (helse : ∀ token ∈ more.head?, token.kind ≠ .keyword .elseWord) :
    parseTokens (tokens ++ more) =
      ⟨(parseTokens tokens).program ++ (parseTokens more).program,
        (parseTokens tokens).faults ++ (parseTokens more).faults⟩ := by
  by_cases hmore : more = []
  · subst hmore
    rw [List.append_nil, show parseTokens [] = ⟨[], []⟩ from rfl, List.append_nil, List.append_nil]
  have hlen : (Parser.State.start (tokens ++ more)).rest.length =
      (Parser.State.start tokens).rest.length + (followedBy tokens more).more.length := by
    rw [start_append hend]
    exact List.length_append
  obtain hfaults | hsimple := htokens
  · obtain ⟨-, parts, hparts, hwords, -⟩ := exists_program_of_start hfaults
    refine parseTokens_append_of_passes hend hmore rfl
      (.of_parts parts hparts (Parser.clear_nil _) (by rw [hwords, List.append_nil]) (by omega))
      rfl rfl ?_
    exact .of_parts parts hparts (clear_start helse) (by rw [← hwords]; rfl)
      (by rw [← start_append hend]; omega)
  · rw [← start_rest_eq_self hend] at hsimple
    have hne := hsimple.sentence.ne_nil
    have hpos := List.length_pos_iff.mpr hne
    obtain ⟨kept, s, hread, hs, hdepth, hwiden⟩ := Parser.declaration_simpleStatement
      (Parser.State.start (tokens ++ more)).rest.length hsimple
    refine parseTokens_append_of_passes hend hmore rfl (.single hne hread (by rwa [hs])) hs hdepth
      (.single ?_ (hwiden _ (by omega)) ?_)
    · simp [Parser.State.widen, hne]
    · simpa [Parser.State.widen, hs] using hpos

/-- The words `print a b;`, where an operator is missing. -/
def misprint : List Token :=
  [⟨.keyword .printWord, "print", none, 1, ⟨0, 5⟩⟩, ⟨.identifier, "a", none, 1, ⟨6, 7⟩⟩,
    ⟨.identifier, "b", none, 1, ⟨8, 9⟩⟩, ⟨.symbol .semicolon, ";", none, 1, ⟨9, 10⟩⟩]

/-- The words of a statement and of a block that is not closed, `c; { d;`. -/
def openBlock : List Token :=
  [⟨.identifier, "c", none, 2, ⟨11, 12⟩⟩, ⟨.symbol .semicolon, ";", none, 2, ⟨12, 13⟩⟩,
    ⟨.symbol .leftBrace, "\x7b", none, 2, ⟨14, 15⟩⟩, ⟨.identifier, "d", none, 2, ⟨16, 17⟩⟩,
    ⟨.symbol .semicolon, ";", none, 2, ⟨17, 18⟩⟩]

theorem parseTokens_append_openBlock :
    SimpleStatement misprint ∧ (parseTokens misprint).faults ≠ [] ∧
      parseTokens (misprint ++ openBlock) = ⟨[.expr ⟨11, 13⟩ (.ident ⟨11, 12⟩ "c")],
        [⟨.expected "';' after value", ⟨8, 9⟩⟩, ⟨.expected "'\x7d' after block", .empty 18⟩]⟩ := by
  have h : SimpleStatement misprint := @SimpleStatement.led _ [_, _] _ rfl (by decide) rfl
  refine ⟨h, nofun, ?_⟩
  rw [parseTokens_append misprint openBlock (by decide) (.inr h) (by decide)]
  rfl

end BlockScript
