import Mathlib.Data.List.TakeWhile
import BlockScript.Proofs.Coverage

/-!
# The longest match

Every token is the longest text at its place that is in any pattern, and it is of the kind whose
pattern it is in, where a keyword is preferred to an identifier. A fault lies where no text is in
any pattern.

What the scanner takes at one place was compared with the patterns in `Piece.length_le_first`. Here
it is only carried over from texts to places in a source.

## Main definitions

* `restAt` — what is left of a source from an offset on
* `Token.Carries` — the literal of a token
* `Token.Fits` — the token is the longest match at its place
* `Located.Exact` — the faults are where nothing matches

## Main results

* `fits_scan` — the tokens of a source fit, and its faults are exact
-/

namespace BlockScript

/-! ## Offsets in a source -/

/-- What is left of a source from an offset on. -/
def restAt (source : String) (offset : Nat) : List Char :=
  (Span.textIn ⟨offset, source.utf8ByteSize⟩ source).toList

theorem restAt_of_append {source : String} {before after : List Char}
    (h : source.toList = before ++ after) : restAt source (Text.byteLength before) = after := by
  have hwhole : source.toList = before ++ (after ++ []) := by rw [h, List.append_nil]
  have htext : (Span.after before after).textIn source = String.ofList after := textIn_after hwhole
  have hlength : source.utf8ByteSize = Text.byteLength before + Text.byteLength after := by
    rw [Text.utf8ByteSize_eq_byteLength, h, Text.byteLength_append]
  rw [restAt, hlength]
  exact (congrArg String.toList htext).trans String.toList_ofList

/-- At an offset inside of a text there is one of its characters. -/
theorem exists_mem_of_isBoundary {source : String} {before mid after : List Char}
    (h : source.toList = before ++ (mid ++ after)) {offset : Nat}
    (hoffset : IsBoundary source offset)
    (hstart : (Span.after before mid).start ≤ offset)
    (hstop : offset < (Span.after before mid).stop) :
    ∃ c ∈ mid, ∃ rest, restAt source offset = c :: rest := by
  obtain ⟨before', after', hsource, rfl⟩ := exists_of_isBoundary hoffset
  rw [restAt_of_append hsource]
  rw [h] at hsource
  simp only [Span.after] at hstart hstop
  -- What is left begins with what is left of the text.
  obtain ⟨tail, head, htail, hmid, rfl⟩ : ∃ tail head, tail ≠ [] ∧ mid = head ++ tail ∧
      after' = tail ++ after := by
    obtain ⟨head, rfl, hmid⟩ | ⟨head, rfl, hmid⟩ := List.append_eq_append_iff.mp hsource
    · obtain ⟨tail, rfl, -⟩ | ⟨tail, rfl, rfl⟩ := List.append_eq_append_iff.mp hmid
      · simp only [Text.byteLength_append] at hstop
        omega
      · refine ⟨tail, head, ?_, rfl, rfl⟩
        rintro rfl
        simp at hstop
    · have hhead : head = [] := by
        by_contra hne
        have hpos := Text.byteLength_pos hne
        rw [Text.byteLength_append] at hstart
        omega
      subst hhead
      refine ⟨mid, [], ?_, rfl, hmid⟩
      rintro rfl
      simp at hstop
  cases tail with
  | nil => exact absurd rfl htail
  | cons c tail => exact ⟨c, by simp [hmid], tail ++ after, rfl⟩

/-! ## Tokens -/

/-- The literal of a token of some kind and text: a string has the text between its quotes, a number
the value of its digits, and no other token has one. -/
inductive Token.Carries : Token.Kind → List Char → Option Literal → Prop where
  | string (inner : List Char) :
      Carries .string ('"' :: (inner ++ ['"'])) (some (.text (String.ofList inner)))
  | whole {u : List Char} (hu : u ∈ digits) :
      Carries .number u (some (.number (.ofScientific (Nat.ofDigitChars 10 u 0) true 0)))
  | fraction {u v : List Char} (hu : u ∈ digits) (hv : v ∈ digits) :
      Carries .number (u ++ '.' :: v)
        (some (.number (.ofScientific (Nat.ofDigitChars 10 (u ++ v) 0) true v.length)))
  | other {kind : Token.Kind} (text : List Char) (hstring : kind ≠ .string)
      (hnumber : kind ≠ .number) : Carries kind text none

/-- The token is the longest match at its place, of the right kind and with its literal. -/
structure Token.Fits (source : String) (token : Token) : Prop where
  here : token.lexeme.toList <+: restAt source token.span.start
  pattern : token.lexeme.toList ∈ token.kind.pattern
  longest : ∀ (cls : Piece.Class), ∀ w ∈ cls.pattern, w <+: restAt source token.span.start →
    w.length ≤ token.lexeme.toList.length
  keyword : ∀ keyword, token.kind = .keyword keyword ↔ token.lexeme = keyword.spelling
  literal : Token.Carries token.kind token.lexeme.toList token.literal

namespace Piece

theorem point_notMem_digits {u : List Char} (hu : u ∈ digits) : ∀ c ∈ u, c ≠ '.' := by
  obtain ⟨d, ds, rfl, hd, hds⟩ := mem_digits.mp hu
  intro c hc hpoint
  subst hpoint
  have hdigit : Numeral.isDigit '.' = true := by
    rcases List.mem_cons.mp hc with rfl | hc
    · exact hd
    · exact hds _ hc
  exact absurd hdigit (by decide)

theorem carries_literal? {kind : Token.Kind} {text : List Char} (h : text ∈ kind.pattern) :
    Token.Carries kind text (literal? kind text) := by
  by_cases hstring : kind = .string
  · subst hstring
    obtain ⟨inner, rfl, -⟩ := mem_pattern_string.mp h
    have hinner : (('"' :: (inner ++ ['"'])).drop 1).dropLast = inner := by simp
    rw [literal?, hinner]
    exact .string inner
  by_cases hnumber : kind = .number
  · subst hnumber
    obtain ⟨u, hu, hcases⟩ := mem_pattern_number.mp h
    have hpos : ∀ c ∈ u, decide (c ≠ '.') = true := by simpa using point_notMem_digits hu
    rw [literal?, Numeral.ofLiteral]
    obtain rfl | ⟨v, hv, rfl⟩ := hcases
    · rw [List.takeWhile_eq_self_iff.mpr hpos, List.dropWhile_eq_nil_iff.mpr hpos, List.drop_nil,
        List.append_nil]
      exact .whole hu
    · rw [List.takeWhile_append_of_pos hpos, List.dropWhile_append_of_pos hpos,
        List.takeWhile_cons_of_neg (by simp), List.dropWhile_cons_of_neg (by simp), List.append_nil,
        List.drop_succ_cons, List.drop_zero]
      exact .fraction hu hv
  · have hnone : literal? kind text = none := by
      cases kind <;> first | rfl | contradiction
    rw [hnone]
    exact .other text hstring hnumber

theorem ofSpelling?_spelling (keyword : Keyword) :
    Keyword.ofSpelling? keyword.spelling = some keyword := by
  cases keyword <;> rfl

/-- A piece that spells a keyword is that keyword. -/
theorem first_of_spelling {c : Char} {cs : List Char} {keyword : Keyword}
    (h : (first c cs).1.text = keyword.spelling.toList) :
    (first c cs).1.cls = .token (.keyword keyword) := by
  obtain ⟨d, ds, hspelling, hd, -⟩ := mem_pattern_identifier.mp (keyword_mem_identifier keyword)
  have hhead := head?_first c cs
  rw [h, hspelling] at hhead
  obtain rfl : d = c := Option.some.inj hhead
  obtain ⟨-, heq⟩ := first_of_word (lead_of_isWordStart hd) cs
  rw [heq] at h ⊢
  show Class.token (wordKind (word d cs).1.text) = _
  rw [wordKind, h, String.ofList_toList, ofSpelling?_spelling]

end Piece

theorem fits_of_mem_words {source : String} {token : Token} (h : token ∈ words source) :
    token.Fits source := by
  obtain ⟨placed, hplaced, htoken⟩ := List.mem_filterMap.mp h
  obtain ⟨before, c, rest, hsource, hpiece, hspan⟩ := Piece.exists_of_mem_ofSource hplaced
  obtain ⟨hcls, hlexeme, hliteral⟩ := Piece.Placed.of_token? htoken
  have hrest : restAt source token.span.start = c :: rest := by
    rw [Piece.Placed.span_of_token? htoken, hspan]
    exact restAt_of_append hsource
  have htext : token.lexeme.toList = (Piece.first c rest).1.text := by
    rw [hlexeme, Piece.Placed.text, String.toList_ofList, hpiece]
  have hkind : (Piece.first c rest).1.cls = .token token.kind := hpiece ▸ hcls
  have hpattern : token.lexeme.toList ∈ token.kind.pattern := by
    have hmem := Piece.first_mem_pattern c rest (by simp [hkind]) (by simp [hkind])
    rw [hkind] at hmem
    exact htext ▸ hmem
  constructor
  case here =>
    rw [hrest, htext]
    exact ⟨_, Piece.first_append c rest⟩
  case pattern => exact hpattern
  case longest =>
    intro cls w hw hbegins
    rw [htext]
    exact Piece.length_le_first hw (hrest ▸ hbegins)
  case keyword =>
    intro keyword
    constructor
    · intro heq
      rw [heq] at hpattern
      exact String.toList_inj.mp hpattern
    · intro heq
      have hspelled := Piece.first_of_spelling (htext.symm.trans (congrArg String.toList heq))
      exact Piece.Class.token.inj (hkind.symm.trans hspelled)
  case literal =>
    rw [hliteral, hpiece, ← htext]
    exact Piece.carries_literal? hpattern

/-! ## Faults -/

/-- Nothing that a token, a blank or a comment can be stands at the offset, nor does a quote. -/
def NothingAt (source : String) (offset : Nat) : Prop :=
  (restAt source offset).head? ≠ some '"' ∧
    ∀ (cls : Piece.Class), ∀ w ∈ cls.pattern, ¬ w <+: restAt source offset

/-- Unexpected text is where nothing can stand, and is not split up. A string literal is
unterminated if there is no other quote in the rest of the source, which it then is all of. -/
structure Located.Exact (source : String) (faults : List Located) : Prop where
  nothing : ∀ fault ∈ faults, (∃ text, fault.fault = .unexpectedText text) →
    ∀ offset, IsBoundary source offset → fault.span.start ≤ offset → offset < fault.span.stop →
      NothingAt source offset
  apart : ∀ fault ∈ faults, (∃ text, fault.fault = .unexpectedText text) →
    ∀ other ∈ faults, (∃ text, other.fault = .unexpectedText text) →
      fault.span.stop ≠ other.span.start
  quote : ∀ fault ∈ faults, fault.fault = .unterminatedString →
    fault.span.stop = source.utf8ByteSize ∧
      ∃ rest, restAt source fault.span.start = '"' :: rest ∧ '"' ∉ rest
  last : ∀ fault ∈ faults, fault.fault = .unterminatedString →
    ∃ others, faults = others ++ [fault] ∧ ∀ other ∈ others, other.fault ≠ .unterminatedString

namespace Piece

/-- A piece that is a fault is a run of characters that lead to nothing, or all of the text, which
has no other quote in it. -/
theorem first_of_fault {c : Char} {cs : List Char}
    (h : (first c cs).1.cls = .unexpected ∨ (first c cs).1.cls = .openString) :
    (Lead.of c = .nothing ∧ first c cs = run .unexpected isUnexpected c cs) ∨
      (c = '"' ∧ (∀ d ∈ cs, d ≠ '"') ∧ first c cs = (⟨.openString, c :: cs⟩, [])) := by
  cases hlead : Lead.of c with
  | blank => simp [(first_of_blank hlead cs).2, run] at h
  | word => simp [(first_of_word hlead cs).2, word] at h
  | number => simp [(first_of_number hlead cs).2, number_cls] at h
  | string =>
    obtain ⟨rfl, heq⟩ := first_of_string hlead cs
    obtain ⟨u, rest, -, -, hstring⟩ | ⟨hquote, hopen⟩ := quotation_cases '"' cs
    · simp [heq, hstring] at h
    · exact .inr ⟨rfl, hquote, heq.trans hopen⟩
  | symbol =>
    obtain ⟨-, -, heq⟩ | ⟨symbol, rest, -, -, heq⟩ | ⟨-, -, symbol, -, heq⟩ :=
      first_of_symbol hlead cs
    · simp [heq, run] at h
    · simp [heq] at h
    · simp [heq] at h
  | nothing => exact .inl ⟨rfl, first_of_nothing hlead cs⟩

end Piece

/-- Where a fault of a source comes from. -/
theorem exists_of_mem_faults {source : String} {fault : Located}
    (h : fault ∈ (scan source).faults) :
    ∃ before c rest, source.toList = before ++ c :: rest ∧
      fault.span = .after before (Piece.first c rest).1.text ∧
      ((∃ text, fault.fault = .unexpectedText text) ∧ Piece.Lead.of c = .nothing ∧
          Piece.first c rest = Piece.run .unexpected Piece.isUnexpected c rest ∨
        fault.fault = .unterminatedString ∧ c = '"' ∧ '"' ∉ rest ∧
          Piece.first c rest = (⟨.openString, c :: rest⟩, [])) := by
  obtain ⟨placed, hplaced, hfault⟩ := List.mem_filterMap.mp h
  obtain ⟨before, c, rest, hsource, hpiece, hspan⟩ := Piece.exists_of_mem_ofSource hplaced
  obtain ⟨hplace, hcases⟩ := Piece.Placed.of_fault? hfault
  refine ⟨before, c, rest, hsource, by rw [hplace, hspan, hpiece], ?_⟩
  rw [hpiece] at hcases
  obtain ⟨hcls, hfault⟩ | ⟨hcls, hfault⟩ := hcases
  · obtain ⟨hlead, heq⟩ | ⟨-, -, heq⟩ := Piece.first_of_fault (.inl hcls)
    · exact .inl ⟨⟨_, hfault⟩, hlead, heq⟩
    · rw [heq] at hcls
      exact nomatch hcls
  · obtain ⟨-, heq⟩ | ⟨hquote, hrest, heq⟩ := Piece.first_of_fault (.inr hcls)
    · rw [heq] at hcls
      exact nomatch hcls
    · exact .inr ⟨hfault, hquote, fun hmem => hrest _ hmem rfl, heq⟩

/-- Unexpected text is made of characters that lead to nothing, and none comes after it. -/
theorem exists_of_unexpected {source : String} {fault : Located}
    (h : fault ∈ (scan source).faults) (hfault : ∃ text, fault.fault = .unexpectedText text) :
    ∃ before mid after, source.toList = before ++ (mid ++ after) ∧ fault.span = .after before mid ∧
      mid ≠ [] ∧ (∀ c ∈ mid, Piece.Lead.of c = .nothing) ∧
      ∀ c ∈ after.head?, Piece.Lead.of c ≠ .nothing := by
  obtain ⟨before, c, rest, hsource, hspan, ⟨-, hlead, heq⟩ | ⟨hopen, -⟩⟩ := exists_of_mem_faults h
  · rw [heq, Piece.run] at hspan
    refine ⟨before, _, rest.dropWhile Piece.isUnexpected, ?_, hspan, List.cons_ne_nil _ _,
      List.forall_mem_cons.mpr ⟨hlead, fun d hd => ?_⟩, fun d hd => ?_⟩
    · rw [hsource, List.cons_append, List.takeWhile_append_dropWhile]
    · exact Piece.isUnexpected_iff.mp (List.mem_takeWhile_imp hd)
    · intro hnothing
      have hnot := List.head?_dropWhile_not Piece.isUnexpected rest
      rw [hd] at hnot
      simp [Piece.isUnexpected_iff.mpr hnothing] at hnot
  · obtain ⟨text, htext⟩ := hfault
    cases htext.symm.trans hopen

/-- An unterminated string literal is what is left of the source from a quote on. -/
theorem of_unterminatedString {source : String} {fault : Located}
    (h : fault ∈ (scan source).faults) (hfault : fault.fault = .unterminatedString) :
    fault.span.stop = source.utf8ByteSize ∧
      ∃ rest, restAt source fault.span.start = '"' :: rest ∧ '"' ∉ rest := by
  obtain ⟨before, c, rest, hsource, hspan, ⟨⟨text, htext⟩, -⟩ | ⟨-, rfl, hrest, heq⟩⟩ :=
    exists_of_mem_faults h
  · exact nomatch htext.symm.trans hfault
  · rw [heq] at hspan
    rw [hspan]
    refine ⟨?_, rest, restAt_of_append hsource, hrest⟩
    rw [Text.utf8ByteSize_eq_byteLength, hsource, Text.byteLength_append]
    rfl

theorem within_of_mem_faults {source : String} {fault : Located}
    (h : fault ∈ (scan source).faults) :
    fault.span.start < fault.span.stop ∧ fault.span.stop ≤ source.utf8ByteSize := by
  obtain ⟨before, c, rest, hsource, hspan, -⟩ := exists_of_mem_faults h
  have hlength := congrArg Text.byteLength hsource
  rw [← Piece.first_append, Text.byteLength_append, Text.byteLength_append,
    ← Text.utf8ByteSize_eq_byteLength] at hlength
  have hpos := Text.byteLength_pos (Piece.first_text_ne_nil c rest)
  simp only [hspan, Span.after]
  omega

theorem nothingAt_of_lead {source : String} {offset : Nat} {c : Char} {rest : List Char}
    (h : restAt source offset = c :: rest) (hc : Piece.Lead.of c = .nothing) :
    NothingAt source offset := by
  rw [NothingAt, h]
  constructor
  · intro hquote
    obtain rfl : c = '"' := Option.some.inj hquote
    exact nomatch hc
  · intro cls w hw hbegins
    obtain ⟨d, u, rfl, -⟩ := Piece.mem_lead_pattern hw
    obtain ⟨rfl, -⟩ := List.cons_prefix_cons.mp hbegins
    exact Piece.not_mem_pattern hc hw

theorem exact_faults (source : String) : Located.Exact source (scan source).faults := by
  constructor
  case nothing =>
    intro fault hmem hfault offset hoffset hstart hstop
    obtain ⟨before, mid, after, hsource, hspan, -, hmid, -⟩ := exists_of_unexpected hmem hfault
    rw [hspan] at hstart hstop
    obtain ⟨c, hc, rest, hrest⟩ := exists_mem_of_isBoundary hsource hoffset hstart hstop
    exact nothingAt_of_lead hrest (hmid c hc)
  case apart =>
    intro fault hmem hfault other hother hunexpected hstop
    obtain ⟨before, mid, after, hsource, hspan, -, -, hafter⟩ := exists_of_unexpected hmem hfault
    obtain ⟨before', mid', after', hsource', hspan', hne, hmid', -⟩ :=
      exists_of_unexpected hother hunexpected
    have hrest : restAt source fault.span.stop = after := by
      rw [← List.append_assoc] at hsource
      rw [hspan, Span.after, ← Text.byteLength_append]
      exact restAt_of_append hsource
    rw [hstop, hspan', Span.after, restAt_of_append hsource'] at hrest
    obtain ⟨c, cs, rfl⟩ := List.exists_cons_of_ne_nil hne
    exact hafter c (by rw [← hrest]; rfl) (hmid' c List.mem_cons_self)
  case quote => exact fun fault hmem hfault => of_unterminatedString hmem hfault
  case last =>
    intro fault hmem hfault
    obtain ⟨hend, -⟩ := of_unterminatedString hmem hfault
    obtain ⟨others, later, hfaults⟩ := List.append_of_mem hmem
    have hsorted := pairwise_faults source
    rw [hfaults, List.pairwise_append, List.pairwise_cons] at hsorted
    obtain ⟨-, ⟨hlater, -⟩, hothers⟩ := hsorted
    -- A later fault would lie behind the end of the source.
    have hnone : later = [] := by
      refine List.eq_nil_iff_forall_not_mem.mpr fun other hother => ?_
      have hmem' : other ∈ (scan source).faults := by simp [hfaults, hother]
      have hwithin := within_of_mem_faults hmem'
      have := hlater other hother
      omega
    subst hnone
    refine ⟨others, hfaults, fun other hother hopen => ?_⟩
    have hmem' : other ∈ (scan source).faults := by simp [hfaults, hother]
    have hbefore := hothers other hother fault List.mem_cons_self
    have := (of_unterminatedString hmem' hopen).1
    have := within_of_mem_faults hmem
    omega

/-- **Tokens are the longest matches, and faults are exact.** -/
theorem fits_scan (source : String) :
    (∀ token ∈ (scan source).tokens, token.kind ≠ .endOfInput → token.Fits source) ∧
      Located.Exact source (scan source).faults := by
  refine ⟨fun token htoken hkind => ?_, exact_faults source⟩
  have hwords : token ∈ words source ++ [lastToken source] := htoken
  rcases List.mem_append.mp hwords with hword | hlast
  · exact fits_of_mem_words hword
  · rw [List.mem_singleton.mp hlast] at hkind
    exact absurd rfl hkind

end BlockScript
