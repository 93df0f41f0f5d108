import BlockScript.Proofs.Course
import BlockScript.Proofs.Spacing

/-!
# Braces that recovery runs over

If everything in a source is closed, and the last token closes a statement or a block, then more
input has nothing to close. Still the source may count as incomplete: recovery skips tokens after a
fault without regard to braces, and if a closing brace is among them, then the block that it belongs
to is not closed any more. In the same way recovery can run over an opening brace.

This is the only reason. Along the course of parsing, each brace is read as one end of a block that
is closed, or as the beginning of one that is not, or it is skipped. So with as many opening as
closing braces in the source, there is a block that is not closed exactly if the tokens that are
skipped hold more closing than opening braces.

## Main definitions

* `nests` — whether all parentheses and braces are closed in the right order
* `skippedTokens` — the tokens of a source that recovery skips
* `Accounts` — where all the braces of some tokens have gone

## Main results

* `surplus_of_nests` — what is properly nested closes at the end what it opened
* `Course.accounts` — no brace is lost
* `isComplete_iff_braces` — a source with all closed is complete unless recovery runs over braces
* `incomplete_of_skipped_brace` — a closing brace that recovery runs over
-/

namespace BlockScript

/-! ## Proper nesting -/

/-- The parentheses and braces of the tokens are properly nested, where the symbols in `pending`
still close what was opened before. -/
def nests : (pending : List Symbol) → List Token → Bool
  | pending, [] => pending.isEmpty
  | pending, token :: rest =>
    match token.kind with
    | .symbol .leftParen => nests (.rightParen :: pending) rest
    | .symbol .leftBrace => nests (.rightBrace :: pending) rest
    | .symbol .rightParen => pending.head? = some .rightParen && nests pending.tail rest
    | .symbol .rightBrace => pending.head? = some .rightBrace && nests pending.tail rest
    | _ => nests pending rest

/-- How many more braces the words open than they close. -/
def braces (words : List Token) : Int := surplus .leftBrace .rightBrace words

@[simp] theorem braces_nil : braces [] = 0 := rfl

@[simp] theorem braces_append (words words' : List Token) :
    braces (words ++ words') = braces words + braces words' := surplus_append words words'

theorem braces_of_braceless {words : List Token} (h : Braceless words) : braces words = 0 :=
  surplus_eq_zero h

/-- What a kind of token adds to the braces. -/
def Token.Kind.braces : Token.Kind → Int
  | .symbol .leftBrace => 1
  | .symbol .rightBrace => -1
  | _ => 0

theorem braces_cons (token : Token) (words : List Token) :
    braces (token :: words) = token.kind.braces + braces words := by
  simp only [braces, surplus, Token.Kind.braces]
  grind

/-- What is pending after one token: an opening symbol adds to it, a closing one is taken off. -/
theorem exists_nests_of_cons {pending : List Symbol} {token : Token} {rest : List Token}
    (h : nests pending (token :: rest) = true) :
    ∃ pending', nests pending' rest = true ∧
      (pending'.count .rightParen : Int) = pending.count .rightParen + token.kind.parens ∧
      (pending'.count .rightBrace : Int) = pending.count .rightBrace + token.kind.braces := by
  unfold nests at h
  split at h
  · rename_i hkind
    rw [hkind]
    exact ⟨_, h, by simp [Token.Kind.parens], by simp [Token.Kind.braces]⟩
  · rename_i hkind
    rw [hkind]
    exact ⟨_, h, by simp [Token.Kind.parens], by simp [Token.Kind.braces]⟩
  · rename_i hkind
    rw [Bool.and_eq_true, decide_eq_true_eq] at h
    obtain ⟨tail, rfl⟩ := List.head?_eq_some_iff.mp h.1
    rw [hkind]
    refine ⟨tail, h.2, ?_, by simp [Token.Kind.braces]⟩
    simp only [List.count_cons_self, Token.Kind.parens]
    omega
  · rename_i hkind
    rw [Bool.and_eq_true, decide_eq_true_eq] at h
    obtain ⟨tail, rfl⟩ := List.head?_eq_some_iff.mp h.1
    rw [hkind]
    refine ⟨tail, h.2, by simp [Token.Kind.parens], ?_⟩
    simp only [List.count_cons_self, Token.Kind.braces]
    omega
  · have hnone : token.kind.parens = 0 ∧ token.kind.braces = 0 := by
      unfold Token.Kind.parens Token.Kind.braces
      grind
    exact ⟨pending, h, by omega, by omega⟩

/-- What is pending is all that the tokens close beyond what they open. -/
theorem surplus_of_nests {pending : List Symbol} {tokens : List Token}
    (h : nests pending tokens = true) :
    parens tokens = -(pending.count .rightParen : Int) ∧
      braces tokens = -(pending.count .rightBrace : Int) := by
  induction tokens generalizing pending with
  | nil =>
    rw [nests, List.isEmpty_iff] at h
    subst h
    exact ⟨rfl, rfl⟩
  | cons token rest ih =>
    obtain ⟨pending', hrest, hparens, hbraces⟩ := exists_nests_of_cons h
    obtain ⟨hparens', hbraces'⟩ := ih hrest
    rw [parens_cons, braces_cons]
    omega

theorem nests_suffix {pending : List Symbol} {tokens suffix : List Token}
    (h : nests pending tokens = true) (hsuffix : suffix <:+ tokens) :
    ∃ pending', nests pending' suffix = true := by
  induction tokens generalizing pending with
  | nil =>
    rw [List.suffix_nil.mp hsuffix]
    exact ⟨pending, h⟩
  | cons token rest ih =>
    obtain rfl | hsuffix := List.suffix_cons_iff.mp hsuffix
    · exact ⟨pending, h⟩
    · obtain ⟨pending', hrest, -⟩ := exists_nests_of_cons h
      exact ih hrest hsuffix

/-! ## Tokens with nothing left open -/

/-- Each end of the tokens closes at least what it opens, and the last one ends a statement or a
block. -/
structure Settled (tokens : List Token) : Prop where
  parens : ∀ suffix, suffix <:+ tokens → parens suffix ≤ 0
  last : ∀ token, tokens.getLast? = some token →
    token.kind = .symbol .semicolon ∨ token.kind = .symbol .rightBrace

namespace Settled

variable {words rest : List Token}

theorem suffix (h : Settled words) (hsuffix : rest <:+ words) : Settled rest := by
  refine ⟨fun suffix hsuffix' => h.parens suffix (hsuffix'.trans hsuffix), fun token htoken => ?_⟩
  obtain ⟨front, rfl⟩ := hsuffix
  exact h.last token (by rw [List.getLast?_append, htoken, Option.some_or])

theorem of_append (h : Settled (words ++ rest)) : Settled rest := h.suffix (List.suffix_append _ _)

/-- After a token that ends no statement and no block there are others. -/
theorem ne_nil {token : Token} (h : Settled (words ++ [token] ++ rest))
    (hsemicolon : token.kind ≠ .symbol .semicolon) (hbrace : token.kind ≠ .symbol .rightBrace) :
    rest ≠ [] := by
  rintro rfl
  obtain hkind | hkind := h.last token (by simp)
  · exact hsemicolon hkind
  · exact hbrace hkind

/-- A stretch breaks off before the last token. -/
theorem ne_nil_of_broken (h : Settled (words ++ rest)) (hwords : Broken words)
    (hne : words ++ rest ≠ []) : rest ≠ [] := by
  rintro rfl
  rw [List.append_nil] at h hne
  have hparens := h.parens words List.suffix_rfl
  obtain hbegun | hbegun := hwords
  · have hmem := List.getLast_mem hne
    obtain hkind | hkind := h.last _ (List.getLast?_eq_some_getLast hne)
    · have hcount : 0 < semicolons words :=
        List.countP_pos_iff.mpr ⟨_, hmem, decide_eq_true hkind⟩
      have := hbegun.semicolons
      omega
    · exact (hbegun.braceless _ hmem).2 hkind
  · have := hbegun.parens
    omega

end Settled

/-! ## Where the braces go -/

/-- The tokens that are skipped after the faults. The offending token is the one that the fault is
about. -/
def skippedAfter (tokens : List Token) (faults : List Located) : List Token :=
  (faults.filter (·.fault.breaksOff)).flatMap fun fault =>
    discards (tokens.dropWhile (·.span ≠ fault.span))

/-- How many of the faults break off at the end of the input. -/
def brokenAtEnd (finish : Span) (faults : List Located) : Nat :=
  faults.countP fun fault => fault.fault.breaksOff && fault.span = finish

/-- No two tokens are in the same place, and none is at the end of the input. -/
structure Apart (tokens : List Token) (finish : Span) : Prop where
  spans : tokens.Pairwise fun a b => a.span ≠ b.span
  finish : ∀ token ∈ tokens, token.span ≠ finish

section

variable {tokens rest : List Token} {finish : Span} {fault : Located} {new new' : List Located}

@[simp] theorem skippedAfter_append : skippedAfter tokens (new ++ new') =
    skippedAfter tokens new ++ skippedAfter tokens new' := by
  rw [skippedAfter, List.filter_append, List.flatMap_append]
  rfl

@[simp] theorem brokenAtEnd_append : brokenAtEnd finish (new ++ new') =
    brokenAtEnd finish new + brokenAtEnd finish new' := List.countP_append

/-- Nothing is skipped after a fault that the parser goes on after. -/
theorem skippedAfter_of_placed (finish : Span) (h : Parser.Placed tokens new) :
    skippedAfter tokens new = [] ∧ brokenAtEnd finish new = 0 := by
  have hnew : ∀ fault ∈ new, fault.fault.breaksOff = false := by
    intro fault hfault
    have hgoes := (h fault hfault).1
    unfold Fault.goesOn at hgoes
    split at hgoes <;> simp_all [Fault.breaksOff]
  constructor
  · rw [skippedAfter, List.filter_eq_nil_iff.mpr fun fault hfault => by simp [hnew fault hfault]]
    rfl
  · exact List.countP_eq_zero.mpr fun fault hfault => by simp [hnew fault hfault]

/-- The tokens from the offending one on. -/
theorem dropWhile_of_apart (h : Apart tokens finish) (hin : rest <:+ tokens) :
    tokens.dropWhile (·.span ≠ spot finish rest) = rest := by
  obtain ⟨front, rfl⟩ := hin
  obtain ⟨-, -, hspans⟩ := List.pairwise_append.mp h.spans
  have hfront : ∀ token ∈ front, decide (token.span ≠ spot finish rest) = true := by
    intro token htoken
    cases rest with
    | nil => exact decide_eq_true (h.finish token (List.mem_append_left _ htoken))
    | cons next rest => exact decide_eq_true (hspans token htoken next List.mem_cons_self)
  rw [List.dropWhile_append_of_pos hfront]
  cases rest with
  | nil => rfl
  | cons next rest => rw [List.dropWhile_cons_of_neg (by simp [spot])]

/-- One brace is missing at the end of the input, if a body broke off there. -/
def owed : Option Located → List Token → Int
  | some _, [] => 1
  | _, _ => 0

@[simp] theorem owed_none : owed none rest = 0 := by cases rest <;> rfl

@[simp] theorem owed_nil : owed (some fault) [] = 1 := rfl

theorem owed_of_ne_nil {outcome : Option Located} (h : rest ≠ []) : owed outcome rest = 0 := by
  cases rest with
  | nil => exact absurd rfl h
  | cons token rest => cases outcome <;> rfl

/-- What is skipped after a declaration that broke off. -/
theorem braces_of_dropped (h : Apart tokens finish) (hin : rest <:+ tokens)
    (hspan : fault.span = spot finish rest) (hfault : fault.fault.breaksOff = true) :
    braces rest + owed (some fault) rest =
      braces (resume rest) + braces (skippedAfter tokens [fault]) + brokenAtEnd finish [fault] := by
  have hskipped : skippedAfter tokens [fault] = discards rest := by
    have hone : skippedAfter tokens [fault] =
        discards (tokens.dropWhile (·.span ≠ fault.span)) := by
      simp [skippedAfter, hfault]
    rw [hone, hspan, dropWhile_of_apart h hin]
  have hsum := congrArg braces (discards_append_resume rest)
  rw [braces_append] at hsum
  have hend : (brokenAtEnd finish [fault] : Int) = owed (some fault) rest := by
    cases rest with
    | nil => simp [brokenAtEnd, hfault, hspan, spot, owed]
    | cons token rest =>
      have hne : token.span ≠ finish := h.finish token (hin.subset List.mem_cons_self)
      simp [brokenAtEnd, hspan, spot, owed, hne]
  rw [hskipped, hend]
  omega

end

/-- Where all the braces of some tokens have gone, on a course that settled tokens take: to the
tokens that are left, to those that are skipped, and to blocks that are not closed. -/
structure Accounts (tokens : List Token) (finish : Span) (rest : List Token)
    (outcome : Option Located) (new : List Located) (rest' : List Token) : Prop where
  places : ∀ fault ∈ new, fault.Inside tokens ∨ fault.fault.breaksOff = true ∧ fault.span = finish
  sum : braces rest = braces rest' + braces (skippedAfter tokens new) + brokenAtEnd finish new +
    owed outcome rest'

theorem braces_of_opening {words : List Token} (h : Opening words) : braces words = 1 := by
  obtain ⟨front, brace, rfl, hfront, hbrace⟩ := h
  rw [braces_append, braces_of_braceless hfront, braces_cons, hbrace]
  rfl

theorem braces_of_keyword {token : Token} {word : Keyword} (h : token.kind = .keyword word)
    (rest : List Token) : braces (token :: rest) = braces rest := by
  rw [braces_cons, h]
  exact Int.zero_add _

theorem braces_of_rightBrace {brace : Token} (h : brace.kind = .symbol .rightBrace)
    (rest : List Token) : braces (brace :: rest) = braces rest - 1 := by
  rw [braces_cons, h]
  exact Int.add_comm _ _

theorem Course.inside_or_atEnd {tokens : List Token} {finish : Span} {part : Part}
    {rest rest' : List Token} {fault : Located} {new : List Located}
    (h : Course tokens finish part rest (some fault) new rest') (hin : rest' <:+ tokens) :
    fault.Inside tokens ∨ fault.fault.breaksOff = true ∧ fault.span = finish := by
  obtain ⟨hspan, hfault⟩ := h.place
  by_cases hnil : rest' = []
  · rw [hnil] at hspan
    exact .inr ⟨hfault, hspan⟩
  · exact .inl (h.inside hin hnil)

/-- **No brace is lost.** -/
theorem Course.accounts {tokens : List Token} {finish : Span} {part : Part}
    {rest rest' : List Token} {outcome : Option Located} {new : List Located}
    (hapart : Apart tokens finish) (h : Course tokens finish part rest outcome new rest')
    (hin : rest <:+ tokens)
    (hsettled : Settled rest) (hne : part = .body → rest ≠ []) :
    Accounts tokens finish rest outcome new rest' := by
  induction h with
  | line hwords hnew =>
    obtain ⟨hskipped, hend⟩ := skippedAfter_of_placed finish hnew
    refine ⟨fun fault hfault => .inl (hnew.inside fault hfault), ?_⟩
    rw [braces_append, braces_of_braceless hwords.stretch.braceless, hskipped, hend]
    simp
  | broken hwords hnew hspan hfault =>
    have hrest := hsettled.ne_nil_of_broken hwords (hne rfl)
    obtain ⟨hskipped, hend⟩ := skippedAfter_of_placed finish (hnew hrest)
    refine ⟨fun fault hfault => .inl ((hnew hrest).inside fault hfault), ?_⟩
    rw [braces_append, braces_of_braceless hwords.braceless, hskipped, hend, owed_of_ne_nil hrest]
    simp
  | headed hwords hnew hbody ih =>
    obtain ⟨hskipped, hend⟩ := skippedAfter_of_placed finish hnew
    have hbraces := braces_of_braceless hwords.braceless
    obtain ⟨front, closing, rfl, -, hclosing⟩ := hwords
    have hrest := hsettled.ne_nil (by simp [hclosing]) (by simp [hclosing])
    obtain ⟨hplaces, hsum⟩ := ih ((List.suffix_append _ _).trans hin) hsettled.of_append
      fun _ => hrest
    refine ⟨List.forall_mem_append.mpr ⟨fun f hf => .inl (hnew.inside f hf), hplaces⟩, ?_⟩
    rw [braces_append, hbraces, skippedAfter_append, hskipped, brokenAtEnd_append, hend,
      List.nil_append]
    omega
  | orElse hyes htoken hno ihyes ihno =>
    obtain ⟨hplaces, hsum⟩ := ihyes hin hsettled hne
    have hafter := hsettled.suffix hyes.suffix
    have hrest := (show Settled ([] ++ [_] ++ _) from hafter).ne_nil (by simp [htoken])
      (by simp [htoken])
    obtain ⟨hplaces', hsum'⟩ := ihno (((List.suffix_cons _ _).trans hyes.suffix).trans hin)
      (hafter.suffix (List.suffix_cons _ _)) fun _ => hrest
    refine ⟨List.forall_mem_append.mpr ⟨hplaces, hplaces'⟩, ?_⟩
    rw [braces_of_keyword htoken, owed_none] at hsum
    rw [skippedAfter_append, braces_append, brokenAtEnd_append, hsum]
    omega
  | block hwords hnew hdeclarations hbrace ih =>
    obtain ⟨hskipped, hend⟩ := skippedAfter_of_placed finish hnew
    obtain ⟨hplaces, hsum⟩ := ih ((List.suffix_append _ _).trans hin) hsettled.of_append nofun
    refine ⟨List.forall_mem_append.mpr ⟨fun f hf => .inl (hnew.inside f hf), hplaces⟩, ?_⟩
    rw [braces_of_rightBrace hbrace, owed_none] at hsum
    rw [braces_append, braces_of_opening hwords, skippedAfter_append, hskipped, brokenAtEnd_append,
      hend, List.nil_append, owed_none]
    omega
  | unclosed hwords hnew hdeclarations hspan hfault ih =>
    obtain ⟨hskipped, hend⟩ := skippedAfter_of_placed finish hnew
    obtain ⟨hplaces, hsum⟩ := ih ((List.suffix_append _ _).trans hin) hsettled.of_append nofun
    refine ⟨List.forall_mem_append.mpr ⟨fun f hf => .inl (hnew.inside f hf), hplaces⟩, ?_⟩
    rw [braces_append, braces_of_opening hwords, skippedAfter_append, hskipped, brokenAtEnd_append,
      hend, List.nil_append, owed_nil]
    rw [owed_none] at hsum
    omega
  | stop hstop => exact ⟨fun _ h => absurd h List.not_mem_nil, by simp [skippedAfter, brokenAtEnd]⟩
  | kept hstop hbody hothers ihbody ihothers =>
    obtain ⟨hplaces, hsum⟩ := ihbody hin hsettled fun _ hnil => hstop (.inl hnil)
    obtain ⟨hplaces', hsum'⟩ := ihothers (hbody.suffix.trans hin) (hsettled.suffix hbody.suffix)
      nofun
    refine ⟨List.forall_mem_append.mpr ⟨hplaces, hplaces'⟩, ?_⟩
    rw [owed_none] at hsum hsum'
    rw [skippedAfter_append, braces_append, brokenAtEnd_append, hsum, owed_none]
    omega
  | dropped hstop hbody hothers ihbody ihothers =>
    obtain ⟨hplaces, hsum⟩ := ihbody hin hsettled fun _ hnil => hstop (.inl hnil)
    have hin' := hbody.suffix.trans hin
    have hafter := (resume_suffix _).trans hbody.suffix
    obtain ⟨hplaces', hsum'⟩ := ihothers (hafter.trans hin) (hsettled.suffix hafter) nofun
    obtain ⟨hspan, hfault⟩ := hbody.place
    have hdropped := braces_of_dropped hapart hin' hspan hfault
    refine ⟨List.forall_mem_append.mpr ⟨hplaces,
      List.forall_mem_cons.mpr ⟨hbody.inside_or_atEnd hin', hplaces'⟩⟩, ?_⟩
    rw [List.append_cons, skippedAfter_append, skippedAfter_append, braces_append, braces_append,
      brokenAtEnd_append, brokenAtEnd_append, owed_none]
    rw [owed_none] at hsum'
    omega

/-! ## Sources -/

/-- The tokens of a source that recovery skips, after all the faults that a declaration was given up
over. -/
def skippedTokens (source : String) : List Token :=
  skippedAfter (words source) (read source).parsed.faults

theorem apart_words (source : String) : Apart (words source) (lastToken source).span := by
  obtain ⟨hwords, -, hlast⟩ := List.pairwise_append.mp (pairwise_starts source)
  refine ⟨hwords.imp fun hlt heq => ?_, fun token htoken heq => ?_⟩
  · rw [heq] at hlt
    exact Nat.lt_irrefl _ hlt
  · have hlt := hlast token htoken _ (List.mem_singleton_self _)
    rw [heq] at hlt
    exact Nat.lt_irrefl _ hlt

theorem settled_words {source : String} (hnests : nests [] (words source) = true)
    (hlast : ∀ token, (words source).getLast? = some token →
      token.kind = .symbol .semicolon ∨ token.kind = .symbol .rightBrace) :
    Settled (words source) := by
  refine ⟨fun suffix hsuffix => ?_, hlast⟩
  obtain ⟨pending, hpending⟩ := nests_suffix hnests hsuffix
  have hparens := (surplus_of_nests hpending).1
  omega

/-- A fault of the parser is inside of the source, or it is one that more input could mend. -/
theorem atEnd_eq_true_iff {source : String} {fault : Located}
    (h : fault.Inside (words source) ∨
      fault.fault.breaksOff = true ∧ fault.span = (lastToken source).span) :
    fault.atEnd source.utf8ByteSize = true ↔
      fault.fault.breaksOff = true ∧ fault.span = (lastToken source).span := by
  obtain ⟨hfault, token, htoken, hspan⟩ | hend := h
  · have hwithin := word_start_lt htoken
    have hne : fault.span.start ≠ source.utf8ByteSize := by
      rw [hspan]
      omega
    have hne' : fault.span ≠ (lastToken source).span := fun heq => hne (by rw [heq]; rfl)
    simp [Located.atEnd, hfault, hne, hne']
  · simp [Located.atEnd, hend, lastToken, Token.endOfInput, Span.empty]

/-- **A source with nothing left open** is complete exactly if recovery skips as many opening as
closing braces. So whatever else is wrong with it, no fault of it could be mended by more input. -/
theorem isComplete_iff_braces (source : String) (hscan : (scan source).faults = [])
    (hnests : nests [] (words source) = true)
    (hlast : ∀ token, (words source).getLast? = some token →
      token.kind = .symbol .semicolon ∨ token.kind = .symbol .rightBrace) :
    isComplete source = true ↔ braces (skippedTokens source) = 0 := by
  have hcourse := course_parseTokens (words source ++ [lastToken source])
  have hfinish : endOfTokens (words source ++ [lastToken source]) = (lastToken source).span :=
    (closes_words source).start_finish
  rw [(closes_words source).start_rest, hfinish] at hcourse
  obtain ⟨hplaces, hsum⟩ := hcourse.accounts (apart_words source) List.suffix_rfl
    (settled_words hnests hlast) nofun
  have hbraces : braces (words source) = 0 := (surplus_of_nests hnests).2
  rw [hbraces, braces_nil, owed_none] at hsum
  have hzero : braces (skippedTokens source) = 0 ↔ brokenAtEnd (lastToken source).span
      (parseTokens (words source ++ [lastToken source])).faults = 0 := by
    rw [skippedTokens, show (read source).parsed.faults =
      (parseTokens (words source ++ [lastToken source])).faults from rfl]
    omega
  rw [hzero, isComplete_iff, hscan, brokenAtEnd, List.countP_eq_zero]
  constructor
  · rintro ⟨-, hcomplete⟩ fault hfault hbroken
    rw [Bool.and_eq_true, decide_eq_true_eq] at hbroken
    have hend := (atEnd_eq_true_iff (hplaces fault hfault)).mpr hbroken
    rw [hcomplete fault hfault] at hend
    exact nomatch hend
  · intro hnone
    refine ⟨fun fault hfault => absurd hfault List.not_mem_nil, fun fault hfault => ?_⟩
    rw [← Bool.not_eq_true, atEnd_eq_true_iff (hplaces fault hfault)]
    simpa using hnone fault hfault

/-- Recovery after the offending `b` stops past the semicolon, so the block is closed. -/
theorem isComplete_iff_braces_operator :
    (scan "\x7b a b; \x7d").faults = [] ∧ nests [] (words "\x7b a b; \x7d") = true ∧
      (words "\x7b a b; \x7d").getLast? = some ⟨.symbol .rightBrace, "\x7d", none, 1, ⟨7, 8⟩⟩ ∧
      (skippedTokens "\x7b a b; \x7d").map Token.kind = [.identifier, .symbol .semicolon] ∧
      isComplete "\x7b a b; \x7d" = true := by
  have hscan : (scan "\x7b a b; \x7d").faults = [] := by decide +kernel
  have hnests : nests [] (words "\x7b a b; \x7d") = true := by decide +kernel
  have hlast : (words "\x7b a b; \x7d").getLast? =
      some ⟨.symbol .rightBrace, "\x7d", none, 1, ⟨7, 8⟩⟩ := by with_unfolding_all rfl
  refine ⟨hscan, hnests, hlast, by decide +kernel, ?_⟩
  refine (isComplete_iff_braces "\x7b a b; \x7d" hscan hnests fun token htoken => ?_).mpr
    (by decide +kernel)
  rw [hlast] at htoken
  cases htoken
  exact .inr rfl

/-- **A closing brace that recovery runs over.** Nothing is open in this source, but the closing
brace is skipped as the offending token, so that the block misses it. -/
theorem incomplete_of_skipped_brace :
    (scan "\x7b print \x7d").faults = [] ∧ nests [] (words "\x7b print \x7d") = true ∧
      (words "\x7b print \x7d").getLast?.map Token.kind = some (.symbol .rightBrace) ∧
      isComplete "\x7b print \x7d" = false := by
  have hfaults : (parseTokens (words "\x7b print \x7d" ++ [lastToken "\x7b print \x7d"])).faults =
      [⟨.expectedExpression, ⟨8, 9⟩⟩, ⟨.expected "'\x7d' after block", ⟨9, 9⟩⟩] := by
    with_unfolding_all rfl
  have hlast : ⟨.expected "'\x7d' after block", ⟨9, 9⟩⟩ ∈
      (parseTokens (words "\x7b print \x7d" ++ [lastToken "\x7b print \x7d"])).faults := by
    rw [hfaults]
    exact List.mem_cons_of_mem _ List.mem_cons_self
  exact ⟨by decide +kernel, by decide +kernel, by decide +kernel,
    isComplete_eq_false (.inr hlast) (by decide)⟩

end BlockScript
