import BlockScript.Parser
import BlockScript.Proofs.Locality

/-!
# Where parsing resumes

When a declaration breaks off, the parser records the fault and skips tokens. The token that the
declaration broke off at is always among them, which makes sure that the parser gets on. After it,
tokens are skipped up to the next keyword that starts a statement, or past the next semicolon.

So no keyword is lost after the offending token. But if the offending token is itself a keyword that
starts a statement, as it is where a semicolon is missing between two statements, then the
statement that it starts is lost with it.

## Main definitions

* `resume`, `discards` — the tokens that are left, and those that are skipped
* `Skipped` — how far skipping goes

## Main results

* `skipped_discards` — the parser skips tokens as `Skipped` says
* `resumes_after_offending` — what follows a declaration that broke off
* `keyword_lost` — a statement that is lost
-/

namespace BlockScript

/-! ## Skipping tokens -/

/-- The tokens that are left where parsing resumes, after it broke off before these tokens. -/
def resume : List Token → List Token
  | token :: rest => (Parser.skipFrom token rest).2
  | [] => []

/-- The tokens that are skipped, after parsing broke off before these tokens. -/
def discards (tokens : List Token) : List Token :=
  tokens.take (tokens.length - (resume tokens).length)

/-- Tokens are skipped up to the first place that could start a statement. What the first one is
does not matter for this. -/
structure Skipped (discarded rest : List Token) : Prop where
  keywords : ∀ token ∈ discarded.tail, token.kind.startsStatement = false
  semicolons : ∀ token ∈ discarded.dropLast, token.kind ≠ .symbol .semicolon
  stops : rest = [] ∨ (∃ last, discarded.getLast? = some last ∧ last.kind = .symbol .semicolon) ∨
    ∃ next, rest.head? = some next ∧ next.kind.startsStatement = true

theorem resume_suffix (tokens : List Token) : resume tokens <:+ tokens := by
  cases tokens with
  | nil => exact List.suffix_rfl
  | cons token rest =>
    exact (Parser.skipFrom_suffix token rest).trans (List.suffix_cons token rest)

theorem discards_of_append {tokens discarded : List Token}
    (h : tokens = discarded ++ resume tokens) : discards tokens = discarded := by
  have hlength : tokens.length - (resume tokens).length = discarded.length := by
    have := congrArg List.length h
    rw [List.length_append] at this
    omega
  rw [discards, hlength]
  nth_rewrite 1 [h]
  exact List.take_left

theorem discards_append_resume (tokens : List Token) :
    discards tokens ++ resume tokens = tokens := by
  obtain ⟨discarded, h⟩ := resume_suffix tokens
  rw [discards_of_append h.symm, h]

/-- What is skipped after one token, by induction on the tokens. -/
theorem exists_skipped (token : Token) (tokens : List Token) :
    ∃ others, tokens = others ++ (Parser.skipFrom token tokens).2 ∧
      Skipped (token :: others) (Parser.skipFrom token tokens).2 := by
  induction tokens generalizing token with
  | nil => exact ⟨[], rfl, by simp, by simp, .inl rfl⟩
  | cons next rest ih =>
    rw [Parser.skipFrom]
    split
    · rename_i hstop
      refine ⟨[], rfl, by simp, by simp, .inr ?_⟩
      rw [Bool.or_eq_true, decide_eq_true_eq] at hstop
      obtain hsemicolon | hkeyword := hstop
      · exact .inl ⟨token, rfl, hsemicolon⟩
      · exact .inr ⟨next, rfl, hkeyword⟩
    · rename_i hgo
      rw [Bool.or_eq_true, not_or, decide_eq_true_eq, Bool.not_eq_true] at hgo
      obtain ⟨others, htokens, hskipped⟩ := ih next
      refine ⟨next :: others, by rw [List.cons_append, ← htokens], ?_, ?_, ?_⟩
      · exact List.forall_mem_cons.mpr ⟨hgo.2, hskipped.keywords⟩
      · exact List.forall_mem_cons.mpr ⟨hgo.1, hskipped.semicolons⟩
      · exact hskipped.stops

/-- **Skipping.** The offending token is skipped, and others up to the next statement. -/
theorem skipped_discards (token : Token) (tokens : List Token) :
    ∃ others, discards (token :: tokens) = token :: others ∧
      Skipped (token :: others) (resume (token :: tokens)) := by
  obtain ⟨others, htokens, hskipped⟩ := exists_skipped token tokens
  exact ⟨others, discards_of_append (congrArg (token :: ·) htokens), hskipped⟩

namespace Parser

theorem State.synchronize_rest (s : State) : s.synchronize.rest = resume s.rest := by
  rw [State.synchronize]
  cases hs : s.rest with
  | nil => simp [hs, resume]
  | cons token rest => rfl

theorem State.synchronize_faults (s : State) : s.synchronize.faults = s.faults := by
  rw [State.synchronize]
  cases s.rest <;> rfl

end Parser

/-! ## After a declaration that broke off -/

/-- **After a declaration that broke off**, the fault is recorded, at the offending token, and
parsing goes on after the tokens that are skipped. The offending token is one of them. A keyword
that starts a statement is skipped exactly if it is the offending token. -/
theorem resumes_after_offending (n : Nat) (s s' : Parser.State) (fault : Located)
    (h : Parser.declarationBody n s = .error fault s') :
    ∃ t, Parser.declaration (n + 1) s = .ok none t ∧ t.faults = s'.faults ++ [fault] ∧
      fault.span = s'.here ∧ (s'.rest = [] → t.rest = []) ∧
      ∀ offending rest, s'.rest = offending :: rest → ∃ others,
        rest = others ++ t.rest ∧ Skipped (offending :: others) t.rest ∧
        ((∀ token ∈ offending :: others, token.kind.startsStatement = false) ↔
          offending.kind.startsStatement = false) := by
  have hplace := ((Parser.coherent_declarationBody (Nat.le_refl n)).forward s).place fault s' h
  refine ⟨(s'.record fault).synchronize, ?_, ?_, hplace.1, fun hend => ?_,
    fun offending rest hrest => ?_⟩
  · rw [Parser.declaration_succ, Parser.recover, h]
  · exact Parser.State.synchronize_faults (s'.record fault)
  · exact (Parser.State.synchronize_rest (s'.record fault)).trans (congrArg resume hend)
  · have hsame : (s'.record fault).synchronize.rest = resume (offending :: rest) :=
      (Parser.State.synchronize_rest (s'.record fault)).trans (congrArg resume hrest)
    obtain ⟨others, hothers, hskipped⟩ := exists_skipped offending rest
    rw [hsame]
    refine ⟨others, hothers, hskipped, fun h => h offending List.mem_cons_self, fun h => ?_⟩
    exact List.forall_mem_cons.mpr ⟨h, hskipped.keywords⟩

/-- The words `a b; print c;`, where an operator is missing. -/
def missingOperator : List Token :=
  [⟨.identifier, "a", none, 1, ⟨0, 1⟩⟩, ⟨.identifier, "b", none, 1, ⟨2, 3⟩⟩,
    ⟨.symbol .semicolon, ";", none, 1, ⟨3, 4⟩⟩, ⟨.keyword .printWord, "print", none, 1, ⟨5, 10⟩⟩,
    ⟨.identifier, "c", none, 1, ⟨11, 12⟩⟩, ⟨.symbol .semicolon, ";", none, 1, ⟨12, 13⟩⟩]

theorem resumes_after_offending_name :
    ∃ s' t others, Parser.declarationBody 6 (.start missingOperator) =
        .error ⟨.expected "';' after expression", ⟨2, 3⟩⟩ s' ∧
      s'.rest = missingOperator.drop 1 ∧
      Parser.declaration 7 (.start missingOperator) = .ok none t ∧
      missingOperator.drop 2 = others ++ t.rest ∧
      Skipped (⟨.identifier, "b", none, 1, ⟨2, 3⟩⟩ :: others) t.rest := by
  have h : Parser.declarationBody 6 (.start missingOperator) =
      .error ⟨.expected "';' after expression", ⟨2, 3⟩⟩
        ⟨missingOperator.drop 1, .empty 13, 1, 0, []⟩ := rfl
  obtain ⟨t, hread, -, -, -, hrest⟩ := resumes_after_offending 6 _ _ _ h
  obtain ⟨others, hothers, hskipped, -⟩ := hrest _ _ rfl
  exact ⟨_, t, others, h, rfl, hread, hothers, hskipped⟩

/-- The words `print a print b;`, where a semicolon is missing. -/
def missingSemicolon : List Token :=
  [⟨.keyword .printWord, "print", none, 1, ⟨0, 5⟩⟩, ⟨.identifier, "a", none, 1, ⟨6, 7⟩⟩,
    ⟨.keyword .printWord, "print", none, 1, ⟨8, 13⟩⟩, ⟨.identifier, "b", none, 1, ⟨14, 15⟩⟩,
    ⟨.symbol .semicolon, ";", none, 1, ⟨15, 16⟩⟩]

/-- **A statement that is lost.** The first statement breaks off at the second `print`, which starts
a statement, but that one is skipped to its end, and nothing is kept. -/
theorem keyword_lost :
    ∃ s' t offending rest, Parser.declarationBody 5 (.start missingSemicolon) =
        .error ⟨.expected "';' after value", offending.span⟩ s' ∧
      s'.rest = offending :: rest ∧ s'.rest.length < missingSemicolon.length ∧
      offending.kind.startsStatement = true ∧
      Parser.declaration 6 (.start missingSemicolon) = .ok none t ∧ t.rest = [] ∧
      parseTokens missingSemicolon = ⟨[], [⟨.expected "';' after value", offending.span⟩]⟩ :=
  ⟨⟨missingSemicolon.drop 2, .empty 16, 7, 0, []⟩, _,
    ⟨.keyword .printWord, "print", none, 1, ⟨8, 13⟩⟩, missingSemicolon.drop 3, rfl, rfl, by decide,
    rfl, rfl, rfl, rfl⟩

end BlockScript
