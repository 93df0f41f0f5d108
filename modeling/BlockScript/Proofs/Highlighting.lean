import Mathlib.Data.List.Chain
import Mathlib.Data.List.TakeWhile
import BlockScript.Highlight
import BlockScript.Proofs.Coverage

/-!
# Highlighting shows the line

The stretches of a highlighted line make up the line. Each token is one of them, in the colour of
its kind, and so is each fault, in red. What is left stands between two of those, or at an end of
the line; it is dark if there is a comment in it and light if it is only blanks.

A line is cut by the places of its tokens and faults, so all of this depends on where those are.
They follow one after the other, and start and stop between characters (`Fits`). Then what is cut
out has the length of its place (`utf8ByteSize_textIn`) and two neighbours make up what they cover
together (`textIn_append_textIn`).

To find a comment it is enough to look at the beginning of a gap, even if the gap goes over several
lines: before the first comment there are only blanks (`Layout.blank_or_comment`). Blanks of the
language are white space, but there is more white space than that. None of it matters, since in a
gap it can only stand inside of a comment.

## Main definitions

* `Highlight.placed` — stretches with the places where they are shown
* `Highlight.IsMark` — the places of tokens and faults
* `Highlight.Shows` — what is asked of the stretches of a line

## Main results

* `Highlight.placed_highlight` — where the stretches of a line are shown
* `shows_highlight` — a highlighted line shows the line in its colours
-/

namespace BlockScript

/-! ## Texts between boundaries -/

section Boundaries

variable {source : String} {a b c : Nat}

/-- Of two beginnings of a text, the longer one goes on from the shorter one. -/
theorem exists_append_of_byteLength_le {before after before' after' : List Char}
    (h : before ++ after = before' ++ after')
    (hle : Text.byteLength before ≤ Text.byteLength before') :
    ∃ mid, before' = before ++ mid ∧ after = mid ++ after' := by
  rcases List.append_eq_append_iff.mp h with hmid | ⟨mid, rfl, rfl⟩
  · exact hmid
  · rw [Text.byteLength_append] at hle
    have hmid : mid = [] := by
      by_contra hne
      have := Text.byteLength_pos hne
      omega
    subst hmid
    exact ⟨[], by simp, by simp⟩

theorem textIn_of_append {before mid after : List Char}
    (h : source.toList = before ++ (mid ++ after)) :
    (⟨Text.byteLength before, Text.byteLength (before ++ mid)⟩ : Span).textIn source =
      String.ofList mid := by
  rw [Text.byteLength_append]
  exact textIn_after h

/-- The text has the length of its place. -/
theorem utf8ByteSize_textIn (ha : IsBoundary source a) (hb : IsBoundary source b) (hab : a ≤ b) :
    a + ((⟨a, b⟩ : Span).textIn source).utf8ByteSize = b := by
  obtain ⟨before, after, hsource, rfl⟩ := exists_of_isBoundary ha
  obtain ⟨upTo, rest, hsource', rfl⟩ := exists_of_isBoundary hb
  obtain ⟨mid, rfl, rfl⟩ := exists_append_of_byteLength_le (hsource.symm.trans hsource') hab
  rw [textIn_of_append hsource, Text.utf8ByteSize_eq_byteLength, String.toList_ofList,
    Text.byteLength_append]

/-- The texts at two places, one right after the other, make up the text that they cover. -/
theorem textIn_append_textIn (ha : IsBoundary source a) (hb : IsBoundary source b)
    (hc : IsBoundary source c) (hab : a ≤ b) (hbc : b ≤ c) :
    (⟨a, b⟩ : Span).textIn source ++ (⟨b, c⟩ : Span).textIn source =
      (⟨a, c⟩ : Span).textIn source := by
  obtain ⟨before, after, hsource, rfl⟩ := exists_of_isBoundary ha
  obtain ⟨upTo, rest, hsource', rfl⟩ := exists_of_isBoundary hb
  obtain ⟨upTo', rest', hsource'', rfl⟩ := exists_of_isBoundary hc
  obtain ⟨mid, rfl, rfl⟩ := exists_append_of_byteLength_le (hsource.symm.trans hsource') hab
  obtain ⟨mid', rfl, rfl⟩ := exists_append_of_byteLength_le (hsource'.symm.trans hsource'') hbc
  have hboth : source.toList = before ++ ((mid ++ mid') ++ rest') := by simp [hsource]
  rw [textIn_of_append hsource, textIn_of_append hsource', List.append_assoc before,
    textIn_of_append hboth, String.ofList_append]

theorem isBoundary_zero (source : String) : IsBoundary source 0 :=
  isBoundary_of_append (List.nil_append source.toList).symm

theorem isBoundary_utf8ByteSize (source : String) : IsBoundary source source.utf8ByteSize := by
  rw [Text.utf8ByteSize_eq_byteLength]
  exact isBoundary_of_append (List.append_nil source.toList).symm

theorem textIn_whole (source : String) :
    (⟨0, source.utf8ByteSize⟩ : Span).textIn source = source := by
  have hsource : source.toList = [] ++ (source.toList ++ []) := by simp
  have htext := textIn_of_append hsource
  rwa [List.nil_append, ← Text.utf8ByteSize_eq_byteLength, String.ofList_toList] at htext

end Boundaries

/-! ## Comments in gaps -/

namespace Highlight

theorem isSpace_of_isBlank {c : Char} (h : Piece.isBlank c = true) : Text.isSpace c = true := by
  simp only [Piece.isBlank, Bool.or_eq_true, decide_eq_true_eq] at h
  rcases h with (((rfl | rfl) | rfl) | rfl) | rfl <;> decide

theorem gapColour_of_blank {gap : String} (h : ∀ c ∈ gap.toList, Piece.isBlank c = true) :
    gapColour gap = .lightGray := by
  have hdrop : gap.toList.dropWhile Text.isSpace = [] :=
    List.dropWhile_eq_nil_iff.mpr fun c hc => isSpace_of_isBlank (h c hc)
  rw [gapColour, hdrop]
  rfl

end Highlight

/-- Before the first comment there are only blanks. -/
theorem Layout.blank_or_comment {p : Prop} {cs : List Char} (h : Layout p cs) :
    (∀ c ∈ cs, Piece.isBlank c = true) ∨
      ['/', '/'].isPrefixOf (cs.dropWhile Text.isSpace) = true := by
  induction h with
  | nil => exact .inl (List.forall_mem_nil _)
  | blank hc _ ih =>
    rw [List.dropWhile_cons_of_pos (Highlight.isSpace_of_isBlank hc), List.forall_mem_cons]
    exact ih.imp_left fun hrest => ⟨hc, hrest⟩
  | comment => exact .inr rfl

theorem Layout.gapColour_of_comment {p : Prop} {gap : String} (h : Layout p gap.toList)
    (hcomment : ['/', '/'] <:+: gap.toList) : Highlight.gapColour gap = .darkGray := by
  rcases h.blank_or_comment with hblank | hstarts
  · have hslash := hblank '/' (hcomment.subset List.mem_cons_self)
    exact absurd hslash (by decide)
  · rw [Highlight.gapColour, if_pos hstarts]

namespace Highlight

/-! ## Where stretches are shown -/

/-- Stretches with the places where they are shown, the first at `start`. -/
def placed (start : Nat) : List (Colour × String) → List (Span × Colour × String)
  | [] => []
  | (colour, text) :: parts =>
    (⟨start, start + text.utf8ByteSize⟩, colour, text) :: placed (start + text.utf8ByteSize) parts

/-- The place is that of a token or of a fault. -/
def IsMark (line : String) (span : Span) : Prop :=
  (∃ token ∈ (scan line).tokens, token.kind ≠ .endOfInput ∧ token.span = span) ∨
    ∃ fault ∈ (scan line).faults, fault.span = span

/-- To leave out what is empty moves nothing. -/
theorem placed_filter (start : Nat) (parts : List (Colour × String)) :
    placed start (parts.filter fun part => !part.2.isEmpty) =
      (placed start parts).filter fun part => !part.2.2.isEmpty := by
  induction parts generalizing start with
  | nil => rfl
  | cons part parts ih =>
    obtain ⟨colour, text⟩ := part
    by_cases hempty : text = ""
    · subst hempty
      simpa [placed] using ih start
    · simp [placed, hempty, ih]

theorem join_filter (parts : List (Colour × String)) :
    String.join ((parts.filter fun part => !part.2.isEmpty).map Prod.snd) =
      String.join (parts.map Prod.snd) := by
  induction parts with
  | nil => rfl
  | cons part parts ih =>
    obtain ⟨colour, text⟩ := part
    by_cases hempty : text = ""
    · subst hempty
      simpa using ih
    · simp [hempty, ih]

/-- Places one after the other from an offset on, which all start and stop between characters. -/
inductive Fits (line : String) : Nat → List Span → Prop where
  | nil {start : Nat} (hstart : IsBoundary line start) (hle : start ≤ line.utf8ByteSize) :
      Fits line start []
  | cons {start : Nat} {span : Span} {spans : List Span} (hstart : IsBoundary line start)
      (hle : start ≤ span.start) (hspan : IsBoundary line span.start)
      (hlt : span.start < span.stop) (hspans : Fits line span.stop spans) :
      Fits line start (span :: spans)

theorem Fits.isBoundary {line : String} {start : Nat} {spans : List Span}
    (h : Fits line start spans) : IsBoundary line start := by
  cases h with
  | nil hstart => exact hstart
  | cons hstart => exact hstart

theorem Fits.le {line : String} {start : Nat} {spans : List Span} (h : Fits line start spans) :
    start ≤ line.utf8ByteSize := by
  induction h with
  | nil _ hle => exact hle
  | cons _ hle _ hlt _ ih => omega

section Marks

variable {line : String} {start : Nat} {marks : List (Colour × Span)}

/-- What is cut out makes up the rest of the line. -/
theorem join_stretches (h : Fits line start (marks.map Prod.snd)) :
    String.join ((stretches line start marks).map Prod.snd) =
      (⟨start, line.utf8ByteSize⟩ : Span).textIn line := by
  induction marks generalizing start with
  | nil => simp [stretches, gap]
  | cons mark marks ih =>
    obtain ⟨colour, span⟩ := mark
    cases h with
    | cons hstart hle hspan hlt hspans =>
      have hend := isBoundary_utf8ByteSize line
      have hrest := textIn_append_textIn hspan hspans.isBoundary hend hlt.le hspans.le
      simp only [stretches, gap, List.map_cons, String.join_cons, ih hspans, hrest]
      exact textIn_append_textIn hstart hspan hend hle (hlt.le.trans hspans.le)

/-- The stretches of a line with the places that they were cut out at. -/
def cuts (line : String) (start : Nat) : List (Colour × Span) → List (Span × Colour × String)
  | [] => [(⟨start, line.utf8ByteSize⟩, gap line ⟨start, line.utf8ByteSize⟩)]
  | (colour, span) :: marks =>
    (⟨start, span.start⟩, gap line ⟨start, span.start⟩) :: (span, colour, span.textIn line) ::
      cuts line span.stop marks

/-- What is cut out at a place is shown at this place. -/
theorem placed_stretches (h : Fits line start (marks.map Prod.snd)) :
    placed start (stretches line start marks) = cuts line start marks := by
  induction marks generalizing start with
  | nil =>
    have hsize := utf8ByteSize_textIn h.isBoundary (isBoundary_utf8ByteSize line) h.le
    simp [stretches, placed, cuts, gap, hsize]
  | cons mark marks ih =>
    obtain ⟨colour, span⟩ := mark
    cases h with
    | cons hstart hle hspan hlt hspans =>
      have hgap := utf8ByteSize_textIn hstart hspan hle
      have hmark := utf8ByteSize_textIn hspan hspans.isBoundary hlt.le
      simp [stretches, placed, cuts, gap, hgap, hmark, ih hspans]

theorem mem_cuts_of_mem {mark : Colour × Span} (h : mark ∈ marks) :
    (mark.2, mark.1, mark.2.textIn line) ∈ cuts line start marks := by
  induction marks generalizing start with
  | nil => exact absurd h List.not_mem_nil
  | cons first marks ih =>
    obtain ⟨colour, span⟩ := first
    rw [cuts]
    rcases List.mem_cons.mp h with rfl | h
    · exact List.mem_cons_of_mem _ List.mem_cons_self
    · exact List.mem_cons_of_mem _ (List.mem_cons_of_mem _ (ih h))

/-- What is cut out is a mark or a gap. -/
theorem of_mem_cuts {part : Span × Colour × String} (h : part ∈ cuts line start marks) :
    part.1 ∈ marks.map Prod.snd ∨
      part.1 ∈ Span.gaps line.utf8ByteSize start (marks.map Prod.snd) ∧
        part.2 = gap line part.1 := by
  induction marks generalizing start with
  | nil =>
    rw [cuts, List.mem_singleton] at h
    subst h
    exact .inr ⟨List.mem_singleton_self _, rfl⟩
  | cons first marks ih =>
    obtain ⟨colour, span⟩ := first
    rw [cuts, List.mem_cons, List.mem_cons] at h
    rw [List.map_cons, Span.gaps]
    rcases h with rfl | rfl | h
    · exact .inr ⟨List.mem_cons_self, rfl⟩
    · exact .inl List.mem_cons_self
    · refine (ih h).imp (List.mem_cons_of_mem _) fun hgap => ?_
      exact ⟨List.mem_cons_of_mem _ hgap.1, hgap.2⟩

/-- Of two neighbours among what is not empty, one is a mark. -/
theorem isChain_cuts (h : Fits line start (marks.map Prod.snd)) {P : Span → Prop}
    (hmarks : ∀ mark ∈ marks, P mark.2) :
    ((cuts line start marks).filter fun part => !part.2.2.isEmpty).IsChain
      fun a b => P a.1 ∨ P b.1 := by
  induction marks generalizing start with
  | nil =>
    rw [cuts, List.filter_cons]
    split <;> simp
  | cons mark marks ih =>
    obtain ⟨colour, span⟩ := mark
    obtain ⟨hmark, hmarks⟩ := List.forall_mem_cons.mp hmarks
    cases h with
    | cons hstart hle hspan hlt hspans =>
      have htext : span.textIn line ≠ "" := by
        intro hempty
        have hsize := utf8ByteSize_textIn hspan hspans.isBoundary hlt.le
        rw [hempty, String.utf8ByteSize_empty] at hsize
        omega
      -- The mark stays, and whatever comes before and after it has it as a neighbour.
      have hrest := (ih hspans hmarks).cons (x := (span, colour, span.textIn line))
        fun _ _ => .inl hmark
      rw [cuts, List.filter_cons, List.filter_cons_of_pos (by simpa using htext)]
      split
      · exact List.isChain_cons_cons.mpr ⟨.inr hmark, hrest⟩
      · exact hrest

end Marks

/-! ## The marks of a line -/

theorem map_snd_mark? (placed : Piece.Placed) : (mark? placed).map Prod.snd = placed.mark? := by
  obtain ⟨⟨cls, text⟩, start, line⟩ := placed
  cases cls <;> rfl

theorem map_snd_marks (line : String) :
    ((Piece.ofSource line).filterMap mark?).map Prod.snd =
      (Piece.ofSource line).filterMap Piece.Placed.mark? := by
  rw [List.map_filterMap]
  exact congrArg (List.filterMap · _) (funext map_snd_mark?)

theorem mem_tokens_iff {line : String} {token : Token} :
    token ∈ (scan line).tokens ∧ token.kind ≠ .endOfInput ↔ token ∈ words line := by
  have htokens : (scan line).tokens = words line ++ [lastToken line] := rfl
  rw [htokens, List.mem_append, List.mem_singleton]
  constructor
  · rintro ⟨htoken | rfl, hkind⟩
    · exact htoken
    · exact absurd (closes_words line).last hkind
  · exact fun htoken => ⟨.inl htoken, (closes_words line).words token htoken⟩

/-- The places of tokens and faults are those that a line is cut at. -/
theorem isMark_iff {line : String} {span : Span} :
    IsMark line span ↔ span ∈ ((Piece.ofSource line).filterMap mark?).map Prod.snd := by
  rw [map_snd_marks, ← places_scan, places, List.mem_merge, List.mem_map, List.mem_map, IsMark]
  simp only [← mem_tokens_iff, and_assoc]

theorem fits_of_pairwise {line : String} {start : Nat} {spans : List Span}
    (hsorted : spans.Pairwise fun a b => a.stop ≤ b.start)
    (hspans : ∀ span ∈ spans, span.start < span.stop ∧ IsBoundary line span.start ∧
      IsBoundary line span.stop ∧ span.stop ≤ line.utf8ByteSize)
    (hstart : IsBoundary line start) (hle : start ≤ line.utf8ByteSize)
    (hfirst : ∀ span ∈ spans, start ≤ span.start) : Fits line start spans := by
  induction spans generalizing start with
  | nil => exact .nil hstart hle
  | cons span spans ih =>
    obtain ⟨hnext, hsorted⟩ := List.pairwise_cons.mp hsorted
    obtain ⟨⟨hlt, hspan, hstop, hsize⟩, hspans⟩ := List.forall_mem_cons.mp hspans
    exact .cons hstart (hfirst span List.mem_cons_self) hspan hlt
      (ih hsorted hspans hstop hsize hnext)

/-- **A line can be cut at the places of its tokens and faults.** -/
theorem fits_marks (line : String) :
    Fits line 0 (((Piece.ofSource line).filterMap mark?).map Prod.snd) := by
  rw [map_snd_marks]
  refine fits_of_pairwise (pairwise_marks line) (fun span hspan => ?_) (isBoundary_zero line)
    (Nat.zero_le _) fun _ _ => Nat.zero_le _
  obtain ⟨placed, hplaced, rfl⟩ := mem_marks hspan
  obtain ⟨before, after, hsource, -, hplace⟩ := Piece.exists_text_of_mem_ofSource hplaced
  refine ⟨nonempty_marks hspan, hplace ▸ (isBoundary_after hsource).1,
    hplace ▸ (isBoundary_after hsource).2, ?_⟩
  rw [hplace, Text.utf8ByteSize_eq_byteLength, hsource, Text.byteLength_append,
    Text.byteLength_append]
  simp only [Span.after]
  omega

/-- **Each stretch is shown where it was cut out.** -/
theorem placed_highlight (line : String) :
    placed 0 (highlight line) =
      (cuts line 0 ((Piece.ofSource line).filterMap mark?)).filter
        fun part => !part.2.2.isEmpty := by
  rw [highlight, placed_filter, placed_stretches (fits_marks line)]

/-- A piece with a colour of its own is shown in it. -/
theorem mem_placed_highlight {line : String} {piece : Piece.Placed} {colour : Colour}
    (hpiece : piece ∈ Piece.ofSource line) (hcolour : piece.piece.cls.colour? = some colour) :
    (piece.span, colour, piece.text) ∈ placed 0 (highlight line) := by
  obtain ⟨-, -, -, htext, -⟩ := Piece.exists_text_of_mem_ofSource hpiece
  have hmark : (colour, piece.span) ∈ (Piece.ofSource line).filterMap mark? :=
    List.mem_filterMap.mpr ⟨piece, hpiece, by rw [mark?, hcolour]; rfl⟩
  have hcut : (piece.span, colour, piece.span.textIn line) ∈
      cuts line 0 ((Piece.ofSource line).filterMap mark?) := mem_cuts_of_mem hmark
  rw [Piece.textIn_of_mem_ofSource hpiece] at hcut
  rw [placed_highlight, List.mem_filter]
  exact ⟨hcut, by simpa [Piece.Placed.text] using htext⟩

/-- What is asked of the stretches that a line is shown as. -/
structure Shows (line : String) (parts : List (Colour × String)) : Prop where
  /-- There is something to see of each. -/
  nonempty : ∀ part ∈ parts, part.2 ≠ ""
  /-- Together they are the line. -/
  whole : String.join (parts.map Prod.snd) = line
  /-- Each token is a stretch of its own, in the colour of its kind. -/
  tokens : ∀ token ∈ (scan line).tokens, token.kind ≠ .endOfInput →
    (token.span, token.kind.colour, token.lexeme) ∈ placed 0 parts
  /-- Each fault is a stretch of its own, in red. -/
  faults : ∀ fault ∈ (scan line).faults,
    (fault.span, .red, fault.span.textIn line) ∈ placed 0 parts
  /-- Of two neighbours one is a token or a fault. -/
  apart : (placed 0 parts).IsChain fun a b => IsMark line a.1 ∨ IsMark line b.1
  /-- All others are blanks and comments, dark if there is a comment and light if not. -/
  gaps : ∀ part ∈ placed 0 parts, ¬IsMark line part.1 →
    Layout (part.1.stop = line.utf8ByteSize) part.2.2.toList ∧
      (['/', '/'] <:+: part.2.2.toList → part.2.1 = .darkGray) ∧
      ((∀ c ∈ part.2.2.toList, Piece.isBlank c = true) → part.2.1 = .lightGray)

end Highlight

open Highlight in
/-- **A highlighted line shows the line in its colours.** -/
theorem shows_highlight (line : String) : Shows line (highlight line) where
  nonempty part hpart := by simpa using (List.mem_filter.mp hpart).2
  whole := by
    rw [highlight, join_filter, join_stretches (fits_marks line), textIn_whole]
  tokens token htoken hkind := by
    have hword := mem_tokens_iff.mp ⟨htoken, hkind⟩
    obtain ⟨piece, hpiece, htoken⟩ := List.mem_filterMap.mp hword
    obtain ⟨hcls, htext, -⟩ := Piece.Placed.of_token? htoken
    rw [htext, Piece.Placed.span_of_token? htoken]
    exact mem_placed_highlight hpiece (by rw [hcls]; rfl)
  faults fault hfault := by
    obtain ⟨piece, hpiece, hfault⟩ := List.mem_filterMap.mp hfault
    obtain ⟨hspan, hcls⟩ := Piece.Placed.of_fault? hfault
    rw [hspan, Piece.textIn_of_mem_ofSource hpiece]
    rcases hcls with ⟨hcls, -⟩ | ⟨hcls, -⟩ <;>
      exact mem_placed_highlight hpiece (by rw [hcls]; rfl)
  apart := by
    rw [placed_highlight]
    exact isChain_cuts (fits_marks line) fun mark hmark =>
      isMark_iff.mpr (List.mem_map_of_mem hmark)
  gaps part hpart hmark := by
    rw [placed_highlight] at hpart
    rcases of_mem_cuts (List.mem_of_mem_filter hpart) with hmem | ⟨hgap, htext⟩
    · exact absurd (isMark_iff.mpr hmem) hmark
    · rw [map_snd_marks] at hgap
      have hlayout := layout_of_mem_gaps hgap
      rw [htext]
      exact ⟨hlayout, hlayout.gapColour_of_comment, gapColour_of_blank⟩

example : highlight "var  s = \"a // b" =
    [(.lightPurple, "var"), (.lightGray, "  "), (.lightRed, "s"), (.lightGray, " "),
      (.lightGray, "="), (.lightGray, " "), (.red, "\"a // b")] := by
  with_unfolding_all rfl

end BlockScript
