import BlockScript.Proofs.Course
import BlockScript.Proofs.LongestMatch
import BlockScript.Proofs.Spacing

/-!
# A way out of every input

However broken an input is, three semicolons and enough closing braces after it bring the parser to
an end that it can accept or refuse: no fault is at the end of the input.

The semicolons are for the statement that the input breaks off in. The header of a `for` loop can
take two of them, and the third one is left for recovery to stop at. Without it recovery would run
over the braces, and the blocks that are still open would miss them. After the semicolons each brace
closes one block, and at the end those that are left over are refused one and all.

## Main definitions

* `Ending` — tokens that end in semicolons and enough closing braces
* `Slack` — such tokens, where recovery cannot run over the braces of open blocks

## Main results

* `Slack.resume` — recovery leaves enough braces
* `Course.endsWell` — parsing finds no fault at the end of such tokens
* `exists_complete` — every source can be continued to a complete one
-/

namespace BlockScript

/-! ## Tokens with an end to them -/

/-- Tokens in three parts: any, then semicolons, then closing braces, with a brace for each token of
the first part and `c` more. -/
structure Ends (c : Nat) (front semis braces : List Token) : Prop where
  isSemicolon : ∀ token ∈ semis, token.kind = .symbol .semicolon
  isBrace : ∀ token ∈ braces, token.kind = .symbol .rightBrace
  three : front ≠ [] → semis.length = 3
  enough : front.length + c ≤ braces.length

/-- The tokens end in semicolons and enough closing braces for `c` open blocks. -/
def Ending (c : Nat) (rest : List Token) : Prop :=
  ∃ front semis braces, rest = front ++ (semis ++ braces) ∧ Ends c front semis braces

/-- Moreover, there is something before the braces, if any of them is needed. -/
def Slack (c : Nat) (rest : List Token) : Prop :=
  ∃ front semis braces, rest = front ++ (semis ++ braces) ∧ Ends c front semis braces ∧
    rest ≠ [] ∧ (c ≠ 0 → front ++ semis ≠ [])

theorem Slack.ending {c : Nat} {rest : List Token} (h : Slack c rest) : Ending c rest := by
  obtain ⟨front, semis, braces, hrest, hends, -⟩ := h
  exact ⟨front, semis, braces, hrest, hends⟩

namespace Ends

variable {c : Nat} {front semis braces words rest : List Token}

theorem of_front (h : Ends c (words ++ front) semis braces) : Ends c front semis braces := by
  refine ⟨h.isSemicolon, h.isBrace, fun hne => h.three (by simp [hne]), ?_⟩
  have := h.enough
  rw [List.length_append] at this
  omega

theorem of_semis (h : Ends c front (words ++ semis) braces) : Ends c [] semis braces := by
  refine ⟨fun token htoken => h.isSemicolon token (by simp [htoken]), h.isBrace, by simp, ?_⟩
  have := h.enough
  rw [List.length_nil]
  omega

/-- Words without braces are taken from the first part, or from all of it and some semicolons. -/
theorem split (h : Ends c front semis braces) (hwords : Braceless words)
    (heq : words ++ rest = front ++ (semis ++ braces)) :
    (∃ front', front = words ++ front' ∧ rest = front' ++ (semis ++ braces)) ∨
      ∃ used left, used ≠ [] ∧ words = front ++ used ∧ semis = used ++ left ∧
        rest = left ++ braces := by
  obtain ⟨front', hfront, hrest⟩ | ⟨used, hused, hsplit⟩ := List.append_eq_append_iff.mp heq
  · exact .inl ⟨front', hfront, hrest⟩
  · by_cases hnil : used = []
    · subst hnil
      exact .inl ⟨[], by simpa using hused.symm, by simpa using hsplit.symm⟩
    · refine .inr ?_
      obtain ⟨left, hsemis, hrest⟩ | ⟨left, hleft, hbraces⟩ :=
        List.append_eq_append_iff.mp hsplit.symm
      · exact ⟨used, left, hnil, hused, hsemis, hrest⟩
      · -- What is used beyond the semicolons would be braces.
        have hleftNil : left = [] := by
          refine List.eq_nil_iff_forall_not_mem.mpr fun token htoken => ?_
          have hbrace := h.isBrace token (by rw [hbraces]; exact List.mem_append_left rest htoken)
          have hword : token ∈ words := by
            rw [hused, hleft]
            simp [htoken]
          exact (hwords token hword).2 hbrace
        subst hleftNil
        exact ⟨used, [], hnil, hused, by simpa using hleft.symm, by simpa using hbraces.symm⟩

/-- Words that end with neither a semicolon nor a closing brace are taken from the first part. -/
theorem split_last {last : Token} (h : Ends c front semis braces)
    (hsemicolon : last.kind ≠ .symbol .semicolon) (hbrace : last.kind ≠ .symbol .rightBrace)
    (heq : words ++ [last] ++ rest = front ++ (semis ++ braces)) :
    ∃ front', rest = front' ++ (semis ++ braces) ∧
      Ends (c + words.length + 1) front' semis braces ∧ semis ≠ [] := by
  have hsplit : ∃ front', front = words ++ [last] ++ front' ∧
      rest = front' ++ (semis ++ braces) := by
    obtain ⟨front', hfront, hrest⟩ | ⟨used, hused, hsplit⟩ := List.append_eq_append_iff.mp heq
    · exact ⟨front', hfront, hrest⟩
    · have hnil : used = [] := by
        by_contra hne
        obtain ⟨others, token, rfl⟩ := List.eq_nil_or_concat' used |>.resolve_left hne
        have hlast : last = token := by
          have := congrArg List.getLast? hused
          simpa using this
        have hmem : token ∈ semis ++ braces := by simp [hsplit]
        obtain hmem | hmem := List.mem_append.mp hmem
        · exact hsemicolon (hlast ▸ h.isSemicolon token hmem)
        · exact hbrace (hlast ▸ h.isBrace token hmem)
      subst hnil
      exact ⟨[], by simpa using hused.symm, by simpa using hsplit.symm⟩
  obtain ⟨front', rfl, rfl⟩ := hsplit
  have hthree : semis.length = 3 := h.three (by simp)
  refine ⟨front', rfl, ⟨h.isSemicolon, h.isBrace, fun _ => hthree, ?_⟩, ?_⟩
  · have := h.enough
    simp only [List.length_append, List.length_cons, List.length_nil] at this
    omega
  · rintro rfl
    exact absurd hthree (by decide)

end Ends

section

variable {c : Nat} {words rest : List Token}

/-- What is left after words without braces. -/
theorem Ending.of_append (h : Ending c (words ++ rest)) (hwords : Braceless words) :
    Ending c rest := by
  obtain ⟨front, semis, braces, heq, hends⟩ := h
  obtain ⟨front', rfl, rfl⟩ | ⟨used, left, -, rfl, rfl, rfl⟩ := hends.split hwords heq
  · exact ⟨front', semis, braces, rfl, hends.of_front⟩
  · exact ⟨[], left, braces, rfl, hends.of_semis⟩

/-- Where a stretch breaks off there is still a semicolon, or nothing was taken. -/
theorem Slack.of_broken (h : Slack c (words ++ rest)) (hwords : Broken words) : Slack c rest := by
  obtain ⟨front, semis, braces, heq, hends, hne, hslack⟩ := h
  obtain ⟨front', rfl, rfl⟩ | ⟨used, left, hused, rfl, rfl, rfl⟩ := hends.split hwords.braceless heq
  · by_cases hfront : words ++ front' = []
    · obtain ⟨rfl, rfl⟩ := List.append_eq_nil_iff.mp hfront
      exact ⟨[], semis, braces, rfl, hends, hne, hslack⟩
    · have hthree := hends.three hfront
      have hsemis : semis ≠ [] := by
        rintro rfl
        exact absurd hthree (by decide)
      exact ⟨front', semis, braces, rfl, hends.of_front, by simp [hsemis], by simp [hsemis]⟩
  · have hkind : ∀ token ∈ used, token.kind = .symbol .semicolon := fun token htoken =>
      hends.isSemicolon token (by simp [htoken])
    have hcount : semicolons used = used.length :=
      List.countP_eq_length.mpr fun token htoken => decide_eq_true (hkind token htoken)
    have hparens : parens used = 0 :=
      surplus_eq_zero fun token htoken => by simp [hkind token htoken]
    have hpos : 0 < used.length := List.length_pos_iff.mpr hused
    -- The semicolons are in a header, which began before them, and takes two of them at most.
    have hbegun : Begun 1 2 (front ++ used) := by
      refine hwords.resolve_left fun hbegun => ?_
      have := hbegun.semicolons
      rw [semicolons_append] at this
      omega
    have hfront : front ≠ [] := by
      rintro rfl
      have := hbegun.parens
      rw [List.nil_append, hparens] at this
      omega
    have hleft : left ≠ [] := by
      rintro rfl
      have hthree := hends.three hfront
      have := hbegun.semicolons
      rw [semicolons_append] at this
      rw [List.append_nil] at hthree
      omega
    exact ⟨[], left, braces, rfl, hends.of_semis, by simp [hleft], by simp [hleft]⟩

/-- What is left after words that end with neither a semicolon nor a closing brace. -/
theorem Ending.slack_of_append {last : Token} (h : Ending c (words ++ [last] ++ rest))
    (hsemicolon : last.kind ≠ .symbol .semicolon) (hbrace : last.kind ≠ .symbol .rightBrace) :
    Slack (c + words.length + 1) rest := by
  obtain ⟨front, semis, braces, heq, hends⟩ := h
  obtain ⟨front', rfl, hends', hne⟩ := hends.split_last hsemicolon hbrace heq
  exact ⟨front', semis, braces, rfl, hends', by simp [hne], by simp [hne]⟩

theorem Slack.ne_nil (h : Slack c rest) : rest ≠ [] := by
  obtain ⟨-, -, -, -, -, hne, -⟩ := h
  exact hne

theorem Slack.mono {d : Nat} (h : Slack c rest) (hc : c ≠ 0) (hd : d ≤ c) : Slack d rest := by
  obtain ⟨front, semis, braces, hrest, hends, hne, hslack⟩ := h
  refine ⟨front, semis, braces, hrest, ⟨hends.isSemicolon, hends.isBrace, hends.three, ?_⟩, hne,
    fun _ => hslack hc⟩
  have := hends.enough
  omega

/-- **Recovery leaves enough braces.** It stops at the first semicolon, if not before. -/
theorem Slack.resume (h : Slack c rest) : Ending c (resume rest) := by
  obtain ⟨front, semis, braces, hrest, hends, hne, hslack⟩ := h
  obtain ⟨token, tokens, rfl⟩ := List.exists_cons_of_ne_nil hne
  by_cases hbefore : front ++ semis = []
  · obtain ⟨rfl, rfl⟩ := List.append_eq_nil_iff.mp hbefore
    have hc : c = 0 := by
      by_contra hc
      exact hslack hc hbefore
    refine ⟨[], [], BlockScript.resume (token :: tokens), rfl, by simp, fun token' htoken' => ?_,
      by simp, by simp [hc]⟩
    have hmem := (resume_suffix (token :: tokens)).subset htoken'
    rw [hrest] at hmem
    exact hends.isBrace token' (by simpa using hmem)
  · have hsemis : semis ≠ [] := by
      rintro rfl
      exact absurd (hends.three (by simpa using hbefore)) (by decide)
    obtain ⟨semicolon, semis, rfl⟩ := List.exists_cons_of_ne_nil hsemis
    obtain ⟨others, hdiscards, hskipped⟩ := skipped_discards token tokens
    have hsplit : token :: others ++ BlockScript.resume (token :: tokens) =
        front ++ (semicolon :: (semis ++ braces)) := by
      rw [← hdiscards, discards_append_resume, hrest]
      rfl
    generalize BlockScript.resume (token :: tokens) = left at hsplit
    obtain ⟨front', rfl, rfl⟩ | ⟨used, hused, hleft⟩ := List.append_eq_append_iff.mp hsplit
    · exact ⟨front', semicolon :: semis, braces, rfl, hends.of_front⟩
    · obtain ⟨rfl, rfl⟩ | ⟨others', rfl, hothers⟩ := List.cons_eq_append_iff.mp hleft
      · exact ⟨[], semicolon :: semis, braces, rfl,
          (show Ends c front ([] ++ semicolon :: semis) braces from hends).of_semis⟩
      · -- Only the last token that is skipped can be a semicolon.
        have hlast : others' = [] := by
          by_contra hne
          have hmem : semicolon ∈ (token :: others).dropLast := by
            rw [hused, List.dropLast_append_of_ne_nil (by simp), List.dropLast_cons_of_ne_nil hne]
            simp
          exact hskipped.semicolons semicolon hmem (hends.isSemicolon semicolon List.mem_cons_self)
        subst hlast
        exact ⟨[], semis, braces, hothers.symm,
          (show Ends c front ([semicolon] ++ semis) braces from hends).of_semis⟩

/-- A block that stops here has its closing brace. -/
theorem Ending.of_stops (h : Ending (c + 1) rest) (hstop : Stops true rest) :
    ∃ brace rest', rest = brace :: rest' ∧ Ending c rest' := by
  obtain ⟨front, semis, braces, rfl, hends⟩ := h
  have henough := hends.enough
  obtain hnil | ⟨-, brace, rest', hrest, hbrace⟩ := hstop
  · obtain ⟨-, -, rfl⟩ : front = [] ∧ semis = [] ∧ braces = [] := by simpa using hnil
    rw [List.length_nil] at henough
    omega
  · refine ⟨brace, rest', hrest, ?_⟩
    obtain ⟨rfl, htail⟩ | ⟨front, rfl, rfl⟩ := List.append_eq_cons_iff.mp hrest
    · obtain ⟨rfl, rfl⟩ | ⟨semis, rfl, rfl⟩ := List.append_eq_cons_iff.mp htail
      · refine ⟨[], [], rest', rfl, by simp, fun token htoken => ?_, by simp, ?_⟩
        · exact hends.isBrace token (by simp [htoken])
        · rw [List.length_cons, List.length_nil] at henough
          rw [List.length_nil]
          omega
      · exact nomatch hbrace.symm.trans (hends.isSemicolon brace List.mem_cons_self)
    · refine ⟨front, semis, braces, rfl, hends.isSemicolon, hends.isBrace,
        fun _ => hends.three (by simp), ?_⟩
      rw [List.length_cons] at henough
      omega

/-- Where another declaration follows, recovery cannot run over the braces of open blocks. -/
theorem Ending.slack {nested : Bool} (h : Ending c rest) (hstop : ¬ Stops nested rest)
    (hnested : c ≠ 0 → nested = true) : Slack c rest := by
  obtain ⟨front, semis, braces, rfl, hends⟩ := h
  refine ⟨front, semis, braces, rfl, hends, fun hnil => hstop (.inl hnil), fun hc hnil => ?_⟩
  obtain ⟨rfl, rfl⟩ := List.append_eq_nil_iff.mp hnil
  cases braces with
  | nil => exact hstop (.inl rfl)
  | cons brace braces =>
    exact hstop (.inr ⟨hnested hc, brace, braces, rfl, hends.isBrace brace List.mem_cons_self⟩)

end

/-! ## Courses that come to an end -/

/-- What a body leaves of tokens with an end to them. -/
def Leaves (c : Nat) : Option Located → List Token → Prop
  | none => Ending c
  | some _ => Slack c

/-- What a course leaves of tokens with an end to them, and where its faults are. -/
def EndsWell (tokens : List Token) :
    Part → List Token → Option Located → List Located → List Token → Prop
  | .body, rest, outcome, new, rest' =>
    ∀ c, Slack c rest → (∀ fault ∈ new, fault.Inside tokens) ∧ Leaves c outcome rest'
  | .declarations nested, rest, _, new, rest' => ∀ c, (c ≠ 0 → nested = true) → Ending c rest →
      (∀ fault ∈ new, fault.Inside tokens) ∧
        ∀ c', c = c' + 1 → ∃ brace rest'', rest' = brace :: rest'' ∧ Ending c' rest''

/-- **Parsing comes to an end before the end of the input.** -/
theorem Course.endsWell {tokens : List Token} {finish : Span} {part : Part}
    {rest rest' : List Token} {outcome : Option Located} {new : List Located}
    (h : Course tokens finish part rest outcome new rest') (hin : rest <:+ tokens) :
    EndsWell tokens part rest outcome new rest' := by
  induction h with
  | line hwords hnew =>
    intro c hslack
    exact ⟨hnew.inside, hslack.ending.of_append hwords.stretch.braceless⟩
  | broken hwords hnew hspan hfault =>
    intro c hslack
    have hrest := hslack.of_broken hwords
    exact ⟨(hnew hrest.ne_nil).inside, hrest⟩
  | headed hwords hnew hbody ih =>
    intro c hslack
    obtain ⟨front, closing, rfl, -, hclosing⟩ := hwords
    have hrest := hslack.ending.slack_of_append (by simp [hclosing]) (by simp [hclosing])
    obtain ⟨hinside, hleaves⟩ := ih ((List.suffix_append _ _).trans hin) c
      (hrest.mono (by omega) (by omega))
    exact ⟨List.forall_mem_append.mpr ⟨hnew.inside, hinside⟩, hleaves⟩
  | orElse hyes htoken hno ihyes ihno =>
    intro c hslack
    obtain ⟨hinside, hending⟩ := ihyes hin c hslack
    have hrest := (show Ending c ([] ++ [_] ++ _) from hending).slack_of_append
      (by simp [htoken]) (by simp [htoken])
    obtain ⟨hinside', hleaves⟩ := ihno (((List.suffix_cons _ _).trans hyes.suffix).trans hin) c
      (hrest.mono (by omega) (by omega))
    exact ⟨List.forall_mem_append.mpr ⟨hinside, hinside'⟩, hleaves⟩
  | block hwords hnew hdeclarations hbrace ih =>
    intro c hslack
    obtain ⟨front, opening, rfl, -, hopening⟩ := hwords
    have hrest := hslack.ending.slack_of_append (by simp [hopening]) (by simp [hopening])
    obtain ⟨hinside, hclosed⟩ := ih ((List.suffix_append _ _).trans hin) (c + 1) (fun _ => rfl)
      (hrest.mono (by omega) (by omega)).ending
    obtain ⟨brace, rest'', heq, hending⟩ := hclosed c rfl
    injection heq with hbrace' hrest'
    exact ⟨List.forall_mem_append.mpr ⟨hnew.inside, hinside⟩, hrest' ▸ hending⟩
  | unclosed hwords hnew hdeclarations hspan hfault ih =>
    intro c hslack
    obtain ⟨front, opening, rfl, -, hopening⟩ := hwords
    have hrest := hslack.ending.slack_of_append (by simp [hopening]) (by simp [hopening])
    obtain ⟨-, hclosed⟩ := ih ((List.suffix_append _ _).trans hin) (c + 1) (fun _ => rfl)
      (hrest.mono (by omega) (by omega)).ending
    obtain ⟨brace, rest'', heq, -⟩ := hclosed c rfl
    exact nomatch heq
  | stop hstop =>
    intro c hnested hending
    refine ⟨fun _ h => absurd h List.not_mem_nil, ?_⟩
    rintro c' rfl
    rw [hnested (by simp)] at hstop
    exact hending.of_stops hstop
  | kept hstop hbody hothers ihbody ihothers =>
    intro c hnested hending
    obtain ⟨hinside, hending'⟩ := ihbody hin c (hending.slack hstop hnested)
    obtain ⟨hinside', hclosed⟩ := ihothers (hbody.suffix.trans hin) c hnested hending'
    exact ⟨List.forall_mem_append.mpr ⟨hinside, hinside'⟩, hclosed⟩
  | dropped hstop hbody hothers ihbody ihothers =>
    intro c hnested hending
    obtain ⟨hinside, hslack⟩ := ihbody hin c (hending.slack hstop hnested)
    have hin' := hbody.suffix.trans hin
    obtain ⟨hinside', hclosed⟩ := ihothers ((resume_suffix _).trans hin') c hnested hslack.resume
    have hfault := hbody.inside hin' hslack.ne_nil
    refine ⟨List.forall_mem_append.mpr ⟨hinside, ?_⟩, hclosed⟩
    exact List.forall_mem_cons.mpr ⟨hfault, hinside'⟩

/-! ## Sources -/

namespace Piece

/-- A quote closes the string literal that a text leaves open. -/
theorem marks_closeString (cs : List Char) (start line : Nat)
    (hopen : marks openString? start line cs ≠ []) :
    marks openString? start line (cs ++ ['\n', '"']) = [] := by
  match cs with
  | [] => exact absurd (marks_nil start line) hopen
  | c :: cs =>
    by_cases hc : isBlank c = true
    · rw [marks_blank skipsBlanks_openString? hc] at hopen
      rw [List.cons_append, marks_blank skipsBlanks_openString? hc]
      exact marks_closeString cs _ _ hopen
    · by_cases hfirst : (first c cs).1.cls = .openString
      · obtain ⟨-, heq⟩ | ⟨rfl, hquote, -⟩ := first_of_fault (.inr hfirst)
        · rw [heq] at hfirst
          exact nomatch hfirst
        · have hdrop : (cs ++ ['\n', '"']).dropWhile (· ≠ '"') = ['"'] := by
            rw [List.dropWhile_append_of_pos (by simpa using hquote)]
            rfl
          rw [List.cons_append, marks_cons, (first_of_string rfl _).2, quotation, hdrop]
          exact marks_nil _ _
      · have hlen : (first c cs).2.length ≤ cs.length := Nat.le_of_lt_succ (length_first_lt c cs)
        have hnone : openString? ⟨(first c cs).1, start, line⟩ = none := by
          rw [openString?, if_neg hfirst]
        rw [marks_cons, hnone] at hopen
        rw [List.cons_append, marks_cons, first_lineBreak (by simpa using hc) hfirst, hnone]
        exact marks_closeString (first c cs).2 _ _ hopen
termination_by cs.length

/-- Symbols that are one character each, however they go on. -/
theorem marks_replicate {c : Char} {symbol : Symbol}
    (hfirst : ∀ cs, first c cs = (⟨.token (.symbol symbol), [c]⟩, cs)) (n : Nat) (start line : Nat)
    (cs : List Char) :
    ∃ tokens start' line', marks Placed.token? start line (List.replicate n c ++ cs) =
        tokens ++ marks Placed.token? start' line' cs ∧
      marks Placed.fault? start line (List.replicate n c ++ cs) =
        marks Placed.fault? start' line' cs ∧
      tokens.length = n ∧ ∀ token ∈ tokens, token.kind = .symbol symbol := by
  induction n generalizing start line with
  | zero => exact ⟨[], start, line, rfl, rfl, rfl, by simp⟩
  | succ n ih =>
    obtain ⟨tokens, start', line', htokens, hfaults, hlength, hkind⟩ :=
      ih (start + Text.byteLength [c]) (line + Text.lineFeeds [c])
    rw [List.replicate_succ, List.cons_append, marks_cons, marks_cons, hfirst, htokens, hfaults]
    refine ⟨_ :: tokens, start', line', rfl, rfl, by simp [hlength], ?_⟩
    exact List.forall_mem_cons.mpr ⟨rfl, hkind⟩

theorem first_semicolon (cs : List Char) :
    first ';' cs = (⟨.token (.symbol .semicolon), [';']⟩, cs) := rfl

theorem first_rightBrace (cs : List Char) :
    first '\x7d' cs = (⟨.token (.symbol .rightBrace), ['\x7d']⟩, cs) := rfl

end Piece

theorem ne_unterminatedString {source : String}
    (h : Piece.marks Piece.openString? 0 1 source.toList = []) :
    ∀ fault ∈ (scan source).faults, fault.fault ≠ .unterminatedString := by
  intro fault hfault heq
  obtain ⟨placed, hplaced, hfault⟩ := List.mem_filterMap.mp hfault
  have hnone := List.filterMap_eq_nil_iff.mp h placed hplaced
  rw [Piece.Placed.fault?] at hfault
  split at hfault
  · cases hfault
    cases heq
  · rename_i hcls
    rw [Piece.openString?, if_pos hcls] at hnone
    cases hnone
  · cases hfault

/-- Three semicolons and `n` closing braces. -/
def wayOut (n : Nat) : String :=
  String.ofList (List.replicate 3 ';' ++ List.replicate n '\x7d')

/-- The tokens of a way out. -/
theorem words_wayOut (n : Nat) :
    ∃ semis braces, words (wayOut n) = semis ++ braces ∧ (scan (wayOut n)).faults = [] ∧
      semis.length = 3 ∧ (∀ token ∈ semis, token.kind = .symbol .semicolon) ∧
      braces.length = n ∧ ∀ token ∈ braces, token.kind = .symbol .rightBrace := by
  obtain ⟨semis, start, line, hsemis, hfaults, hthree, hsemicolon⟩ :=
    Piece.marks_replicate Piece.first_semicolon 3 0 1 (List.replicate n '\x7d' ++ [])
  obtain ⟨braces, start', line', hbraces, hfaults', hlength, hbrace⟩ :=
    Piece.marks_replicate Piece.first_rightBrace n start line []
  rw [hbraces, Piece.marks_nil, List.append_nil, List.append_nil] at hsemis
  rw [hfaults', Piece.marks_nil, List.append_nil] at hfaults
  refine ⟨semis, braces, ?_, ?_, hthree, hsemicolon, hlength, hbrace⟩
  · rw [words, wayOut, String.toList_ofList, hsemis]
  · rw [scan_faults, wayOut, String.toList_ofList, hfaults]

/-- The tokens of a source with a way out after it. -/
theorem ending_words {source : String}
    (h : ∀ fault ∈ (scan source).faults, fault.fault ≠ .unterminatedString) :
    Ending 0 (words (source ++ "\n" ++ wayOut (words source).length)) := by
  obtain ⟨semis, braces, hwords, -, hthree, hsemicolon, hlength, hbrace⟩ :=
    words_wayOut (words source).length
  rw [words_lineBreak h, hwords, List.map_append]
  refine ⟨words source, _, _, rfl, ?_, ?_, fun _ => by rw [List.length_map, hthree], ?_⟩
  · exact List.forall_mem_map.mpr hsemicolon
  · exact List.forall_mem_map.mpr hbrace
  · rw [List.length_map, hlength]
    exact Nat.le_refl _

/-- A source that leaves no string literal open is complete with a way out after it. -/
theorem isComplete_wayOut {source : String}
    (h : ∀ fault ∈ (scan source).faults, fault.fault ≠ .unterminatedString) :
    isComplete (source ++ "\n" ++ wayOut (words source).length) = true := by
  have hending := ending_words h
  obtain ⟨-, -, -, hnone, -⟩ := words_wayOut (words source).length
  have hscan := scan_faults_lineBreak h (wayOut (words source).length)
  rw [hnone, List.map_nil, List.append_nil] at hscan
  generalize source ++ "\n" ++ wayOut (words source).length = whole at hending hscan
  refine isComplete_iff.mpr ⟨fun fault hfault => ?_, fun fault hfault => ?_⟩
  · have hwithin := within_of_mem_faults hfault
    rw [hscan] at hfault
    have hne : fault.span.start ≠ whole.utf8ByteSize := by omega
    simp [Located.atEnd, h fault hfault, hne]
  · have hcourse := course_parseTokens (words whole ++ [lastToken whole])
    rw [(closes_words whole).start_rest] at hcourse
    obtain ⟨hinside, -⟩ := hcourse.endsWell List.suffix_rfl 0 (by simp) hending
    obtain ⟨hfault', token, htoken, hspan⟩ := hinside fault hfault
    have hwithin := word_start_lt htoken
    have hne : fault.span.start ≠ whole.utf8ByteSize := by
      rw [hspan]
      omega
    simp [Located.atEnd, hfault', hne]

/-- **Every source can be continued to a complete one**, after a line break. If it leaves a string
literal open, then that one is closed first. -/
theorem exists_complete (s : String) : ∃ t, isComplete (s ++ "\n" ++ t) = true := by
  by_cases hopen : Piece.marks Piece.openString? 0 1 s.toList = []
  · exact ⟨_, isComplete_wayOut (ne_unterminatedString hopen)⟩
  · have hclosed : Piece.marks Piece.openString? 0 1 (s ++ "\n\"").toList = [] := by
      rw [String.toList_append]
      exact Piece.marks_closeString s.toList 0 1 hopen
    have hcomplete := isComplete_wayOut (ne_unterminatedString hclosed)
    refine ⟨"\"" ++ "\n" ++ wayOut (words (s ++ "\n\"")).length, ?_⟩
    have hquote : "\n" ++ "\"" = "\n\"" := rfl
    rw [← hquote] at hcomplete ⊢
    simpa only [String.append_assoc] using hcomplete

end BlockScript
