import Mathlib.Data.String.Basic
import BlockScript.Proofs.Patterns
import BlockScript.Proofs.Extent

/-!
# Nothing is lost

The tokens and the faults of a source, taken together and in the order of their places, cover all of
it but blanks and comments. They do not overlap, each lies between two characters of the source and
not inside of one, and each has the text that stands at its place.

The scanner keeps blanks and comments as pieces like any other, so that all places are those of
pieces that make up the source (`Piece.exists_of_mem_ofSource`), and a gap between two marks is a
row of pieces that leave no mark (`Piece.exists_of_mem_gaps`). What is left to see is that the text
of such a row is layout: a comment in it must go on to the end of its line.

## Main definitions

* `IsBoundary` — where places in a source start and stop
* `Span.gaps` — the places between places
* `Layout` — texts of blanks and comments
* `Tiles` — tokens and faults that make up a source, with layout between them

## Main results

* `Piece.layout_of_split` — pieces that leave no mark are layout
* `tiles_scan` — the tokens and the faults of a source make it up
-/

namespace BlockScript

/-! ## Texts at places -/

/-- The offset lies between two characters of the source, or at one of its ends. -/
def IsBoundary (source : String) (offset : Nat) : Prop :=
  String.Pos.Raw.IsValid source ⟨offset⟩

theorem isBoundary_of_append {source : String} {before after : List Char}
    (h : source.toList = before ++ after) : IsBoundary source (Text.byteLength before) := by
  refine String.Pos.Raw.isValid_iff_exists_append.mpr
    ⟨String.ofList before, String.ofList after, ?_, rfl⟩
  rw [← String.ofList_append, ← h, String.ofList_toList]

theorem exists_of_isBoundary {source : String} {offset : Nat} (h : IsBoundary source offset) :
    ∃ before after, source.toList = before ++ after ∧ offset = Text.byteLength before := by
  obtain ⟨before, after, rfl, hoffset⟩ := String.Pos.Raw.isValid_iff_exists_append.mp h
  refine ⟨before.toList, after.toList, String.toList_append, ?_⟩
  rw [← Text.utf8ByteSize_eq_byteLength]
  exact congrArg String.Pos.Raw.byteIdx hoffset

/-- Where the text `mid` stands after `before`. -/
def Span.after (before mid : List Char) : Span :=
  ⟨Text.byteLength before, Text.byteLength before + Text.byteLength mid⟩

section

variable {source : String} {before mid after : List Char}
  (h : source.toList = before ++ (mid ++ after))
include h

theorem textIn_after : (Span.after before mid).textIn source = String.ofList mid := by
  have key := String.extract_of_valid before mid after
  rw [List.append_assoc, ← h, String.ofList_toList, ← String.utf8ByteSize_ofList,
    ← String.utf8ByteSize_ofList] at key
  exact key

theorem isBoundary_after :
    IsBoundary source (Span.after before mid).start ∧
      IsBoundary source (Span.after before mid).stop := by
  refine ⟨isBoundary_of_append h, ?_⟩
  rw [← List.append_assoc] at h
  rw [Span.after, ← Text.byteLength_append]
  exact isBoundary_of_append h

end

/-! ## Layout -/

/-- Blanks and comments. A comment goes on to a line feed, or to the end of the text if this is the
end of the source. -/
inductive Layout (atEnd : Prop) : List Char → Prop where
  | nil : Layout atEnd []
  | blank {c : Char} {rest : List Char} (hc : Piece.isBlank c = true) (hrest : Layout atEnd rest) :
      Layout atEnd (c :: rest)
  | comment {body rest : List Char} (hbody : '\n' ∉ body)
      (hends : rest.head? = some '\n' ∨ rest = [] ∧ atEnd) (hrest : Layout atEnd rest) :
      Layout atEnd ('/' :: '/' :: (body ++ rest))

theorem Layout.imp {p q : Prop} (hpq : p → q) {cs : List Char} (h : Layout p cs) : Layout q cs := by
  induction h with
  | nil => exact .nil
  | blank hc _ ih => exact .blank hc ih
  | comment hbody hends _ ih => exact .comment hbody (hends.imp_right (And.imp_right hpq)) ih

theorem Layout.blanks {p : Prop} {cs rest : List Char} (hcs : ∀ c ∈ cs, Piece.isBlank c = true)
    (h : Layout p rest) : Layout p (cs ++ rest) := by
  induction cs with
  | nil => exact h
  | cons c cs ih =>
    obtain ⟨hc, hcs⟩ := List.forall_mem_cons.mp hcs
    exact .blank hc (ih hcs)

namespace Piece

/-- Blanks and comments leave no mark. -/
def Class.isLayout : Class → Bool
  | .blank | .comment => true
  | _ => false

/-- A comment goes on to the end of its line. -/
theorem first_of_comment {c : Char} {cs : List Char} (h : (first c cs).1.cls = .comment) :
    ∃ body, (first c cs).1.text = '/' :: '/' :: body ∧ '\n' ∉ body ∧
      ∀ d ∈ (first c cs).2.head?, d = '\n' := by
  have htext : (first c cs).1.text ∈ Class.comment.pattern := by
    rw [← h]
    exact first_mem_pattern c cs (by simp [h]) (by simp [h])
  obtain ⟨body, hbody, hline⟩ := mem_pattern_comment.mp htext
  refine ⟨body, hbody, fun hbreak => hline _ hbreak rfl, fun d hd => ?_⟩
  by_contra hne
  -- With any other character after it, there would be a longer comment.
  obtain ⟨rest, hrest⟩ := List.head?_eq_some_iff.mp hd
  have happend := first_append c cs
  rw [hrest, hbody] at happend
  have hlonger : '/' :: '/' :: (body ++ [d]) ∈ Class.comment.pattern := by
    refine mem_pattern_comment.mpr ⟨_, rfl, List.forall_mem_append.mpr ⟨hline, ?_⟩⟩
    simpa using hne
  have hlength := length_le_first hlonger (show _ <+: c :: cs from ⟨rest, by simp [← happend]⟩)
  simp [hbody] at hlength

/-! ## Rows of pieces -/

theorem exists_of_split_cons {cs : List Char} {p : Piece} {ps : List Piece}
    (h : split cs = p :: ps) :
    ∃ c rest, cs = c :: rest ∧ p = (first c rest).1 ∧ ps = split (first c rest).2 := by
  cases cs with
  | nil => simp [split] at h
  | cons c rest =>
    rw [split] at h
    obtain ⟨hp, hps⟩ := List.cons.inj h
    exact ⟨c, rest, rfl, hp.symm, hps.symm⟩

/-- What comes after some of the pieces of a text is cut the same when it stands alone. -/
theorem split_of_append {cs : List Char} {ps qs : List Piece} (h : split cs = ps ++ qs) :
    split (qs.flatMap text) = qs := by
  induction ps generalizing cs with
  | nil => rw [← show split cs = qs from h, flatMap_split]
  | cons p ps ih =>
    obtain ⟨c, rest, -, -, hrest⟩ := exists_of_split_cons h
    exact ih hrest.symm

theorem head?_first (c : Char) (cs : List Char) : (first c cs).1.text.head? = some c := by
  have happend := first_append c cs
  cases htext : (first c cs).1.text with
  | nil => exact absurd htext (first_text_ne_nil c cs)
  | cons d ds =>
    rw [htext] at happend
    rw [(List.cons.inj happend).1]
    rfl

/-- A line feed after a comment is layout as well. -/
theorem head?_of_comment {cs : List Char} {row rest : List Piece} (h : split cs = row ++ rest)
    (hrest : ∀ p ∈ rest.head?, p.cls.isLayout = false) (hcs : ∀ d ∈ cs.head?, d = '\n') :
    (row.flatMap text).head? = some '\n' ∨ row.flatMap text = [] ∧ rest = [] := by
  cases row with
  | nil =>
    cases rest with
    | nil => exact .inr ⟨rfl, rfl⟩
    | cons p rest =>
      obtain ⟨c, cs, rfl, rfl, -⟩ := exists_of_split_cons h
      obtain rfl := hcs c rfl
      have hblank := hrest _ rfl
      rw [first_of_isBlank (by decide)] at hblank
      exact nomatch hblank
  | cons p row =>
    obtain ⟨c, cs, rfl, rfl, -⟩ := exists_of_split_cons h
    obtain rfl := hcs c rfl
    rw [List.flatMap_cons, List.head?_append, head?_first]
    exact .inl rfl

/-- **Pieces that leave no mark are layout**, if a mark or nothing comes after them. -/
theorem layout_of_split {cs : List Char} {row rest : List Piece} (h : split cs = row ++ rest)
    (hrow : ∀ p ∈ row, p.cls.isLayout = true) (hrest : ∀ p ∈ rest.head?, p.cls.isLayout = false) :
    Layout (rest = []) (row.flatMap text) := by
  induction row generalizing cs with
  | nil => exact .nil
  | cons p row ih =>
    obtain ⟨c, cs, rfl, rfl, hsplit⟩ := exists_of_split_cons h
    obtain ⟨hp, hrow⟩ := List.forall_mem_cons.mp hrow
    have hlayout := ih hsplit.symm hrow
    rw [List.flatMap_cons]
    cases hcls : (first c cs).1.cls with
    | blank =>
      have htext := first_mem_pattern c cs (by simp [hcls]) (by simp [hcls])
      rw [hcls] at htext
      obtain ⟨d, ds, htext, hd, hds⟩ := mem_pattern_blank.mp htext
      rw [htext]
      exact .blanks (List.forall_mem_cons.mpr ⟨hd, hds⟩) hlayout
    | comment =>
      obtain ⟨body, htext, hbody, hend⟩ := first_of_comment hcls
      rw [htext]
      exact .comment hbody (head?_of_comment hsplit.symm hrest hend) hlayout
    | token kind => simp [hcls, Class.isLayout] at hp
    | unexpected => simp [hcls, Class.isLayout] at hp
    | openString => simp [hcls, Class.isLayout] at hp

end Piece

/-! ## Gaps -/

/-- The places that are left free from `start` up to `length`, if the given ones are taken. -/
def Span.gaps (length : Nat) : Nat → List Span → List Span
  | start, [] => [⟨start, length⟩]
  | start, span :: spans => ⟨start, span.start⟩ :: gaps length span.stop spans

namespace Piece

/-- The place of a piece that is a token or a fault. -/
def Placed.mark? (placed : Placed) : Option Span :=
  if placed.piece.cls.isLayout then none else some placed.span

theorem totalLength_append (ps qs : List Piece) :
    totalLength (ps ++ qs) = totalLength ps + totalLength qs := by
  simp [totalLength]

/-- **A gap is a row of pieces that leave no mark**, with a mark or nothing after it. Here `row` is
what has been passed of the gap that starts after `before`. -/
theorem exists_of_mem_gaps (before row : List Piece) {all ps : List Piece} {start line : Nat}
    {gap : Span} (hall : all = before ++ (row ++ ps))
    (hstart : start = totalLength (before ++ row)) (hrow : ∀ p ∈ row, p.cls.isLayout = true)
    (h : gap ∈ Span.gaps (totalLength all) (totalLength before)
      ((place start line ps).filterMap Placed.mark?)) :
    ∃ before' row' rest, all = before' ++ (row' ++ rest) ∧
      (∀ p ∈ row', p.cls.isLayout = true) ∧ (∀ p ∈ rest.head?, p.cls.isLayout = false) ∧
      gap = .after (before'.flatMap text) (row'.flatMap text) := by
  induction ps generalizing before row start line with
  | nil =>
    rw [place, List.filterMap_nil, Span.gaps, List.mem_singleton] at h
    refine ⟨before, row, [], hall, hrow, by simp, ?_⟩
    rw [h, hall, List.append_nil, totalLength_append]
    rfl
  | cons p ps ih =>
    have hnext : start + Text.byteLength p.text = totalLength (before ++ (row ++ [p])) := by
      simp [hstart, totalLength, Nat.add_assoc]
    rw [place, List.filterMap_cons, Placed.mark?] at h
    cases hp : p.cls.isLayout with
    | true =>
      simp only [hp, if_true] at h
      refine ih before (row ++ [p]) (by simp [hall]) hnext ?_ h
      exact List.forall_mem_append.mpr ⟨hrow, List.forall_mem_singleton.mpr hp⟩
    | false =>
      simp only [hp, Bool.false_eq_true, if_false, Span.gaps, List.mem_cons] at h
      obtain rfl | h := h
      · refine ⟨before, row, p :: ps, hall, hrow, by simpa using hp, ?_⟩
        rw [Placed.span, hstart, totalLength_append]
        rfl
      · rw [Placed.span, hnext] at h
        exact ih (before ++ (row ++ [p])) [] (by simp [hall]) (by simp) (by simp) h

/-! ## Marks in their places -/

/-- The number of line feeds in a sequence of pieces. -/
def totalLines (ps : List Piece) : Nat := Text.lineFeeds (ps.flatMap text)

theorem exists_of_mem_place {start line : Nat} {ps : List Piece} {placed : Placed}
    (h : placed ∈ place start line ps) :
    ∃ before after, ps = before ++ placed.piece :: after ∧
      placed.start = start + totalLength before ∧ placed.line = line + totalLines before := by
  induction ps generalizing start line with
  | nil => exact absurd h List.not_mem_nil
  | cons p ps ih =>
    rw [place, List.mem_cons] at h
    obtain rfl | h := h
    · exact ⟨[], ps, rfl, rfl, rfl⟩
    · obtain ⟨before, after, rfl, hstart, hline⟩ := ih h
      refine ⟨p :: before, after, rfl, ?_, ?_⟩
      · simp [hstart, totalLength, Nat.add_assoc]
      · simp [hline, totalLines, Nat.add_assoc]

/-- A piece of a source is the first one of the text from its start on. -/
theorem exists_of_mem_ofSource {source : String} {placed : Placed} (h : placed ∈ ofSource source) :
    ∃ before c rest, source.toList = before ++ c :: rest ∧ placed.piece = (first c rest).1 ∧
      placed.span = .after before placed.piece.text := by
  obtain ⟨before, after, hsplit, hstart, -⟩ := exists_of_mem_place h
  obtain ⟨c, rest, hrest, hpiece, -⟩ := exists_of_split_cons (split_of_append hsplit)
  refine ⟨before.flatMap text, c, rest, ?_, hpiece, ?_⟩
  · rw [← hrest, ← List.flatMap_append, ← hsplit, flatMap_split]
  · rw [Placed.span, hstart, Nat.zero_add]
    rfl

/-- A piece of a source has the text that stands at its place. -/
theorem exists_text_of_mem_ofSource {source : String} {placed : Placed}
    (h : placed ∈ ofSource source) :
    ∃ before after, source.toList = before ++ (placed.piece.text ++ after) ∧
      placed.piece.text ≠ [] ∧ placed.span = .after before placed.piece.text := by
  obtain ⟨before, c, rest, hsource, hpiece, hspan⟩ := exists_of_mem_ofSource h
  refine ⟨before, (first c rest).2, ?_, ?_, hspan⟩
  · rw [hsource, hpiece, first_append]
  · rw [hpiece]
    exact first_text_ne_nil c rest

theorem textIn_of_mem_ofSource {source : String} {placed : Placed} (h : placed ∈ ofSource source) :
    placed.span.textIn source = placed.text := by
  obtain ⟨before, after, hsource, -, hspan⟩ := exists_text_of_mem_ofSource h
  rw [hspan, textIn_after hsource, Placed.text]

theorem Placed.of_token? {placed : Placed} {token : Token} (h : placed.token? = some token) :
    placed.piece.cls = .token token.kind ∧ token.lexeme = placed.text ∧
      token.literal = literal? token.kind placed.piece.text := by
  rw [Placed.token?] at h
  split at h
  · rename_i kind hkind
    injection h with h
    subst h
    exact ⟨hkind, rfl, rfl⟩
  · cases h

theorem Placed.of_fault? {placed : Placed} {fault : Located} (h : placed.fault? = some fault) :
    fault.span = placed.span ∧
      (placed.piece.cls = .unexpected ∧ fault.fault = .unexpectedText placed.text ∨
        placed.piece.cls = .openString ∧ fault.fault = .unterminatedString) := by
  rw [Placed.fault?] at h
  split at h
  · rename_i hcls
    injection h with h
    subst h
    exact ⟨rfl, .inl ⟨hcls, rfl⟩⟩
  · rename_i hcls
    injection h with h
    subst h
    exact ⟨rfl, .inr ⟨hcls, rfl⟩⟩
  · cases h

/-- A piece that leaves a mark is either a token or a fault. -/
theorem Placed.mark?_cases (placed : Placed) :
    placed.token?.map Token.span = placed.mark? ∧ placed.fault?.map Located.span = none ∨
      placed.token?.map Token.span = none ∧ placed.fault?.map Located.span = placed.mark? := by
  obtain ⟨⟨cls, text⟩, start, line⟩ := placed
  cases cls with
  | token kind => exact .inl ⟨rfl, rfl⟩
  | blank => exact .inl ⟨rfl, rfl⟩
  | comment => exact .inl ⟨rfl, rfl⟩
  | unexpected => exact .inr ⟨rfl, rfl⟩
  | openString => exact .inr ⟨rfl, rfl⟩

theorem Placed.span_of_mark? {placed : Placed} {span : Span} (h : placed.mark? = some span) :
    span = placed.span := by
  rw [Placed.mark?] at h
  split at h
  · exact nomatch h
  · exact (Option.some.inj h).symm

end Piece

/-- Whether the first place starts no later than the second. -/
def Span.startsFirst (a b : Span) : Bool := a.start ≤ b.start

/-- Merging puts two selections of places back in order, if all of them were in order. -/
theorem merge_filterMap {α : Type} {f g h : α → Option Span} {l : List α}
    (hcases : ∀ a, f a = h a ∧ g a = none ∨ f a = none ∧ g a = h a)
    (hsorted : (l.filterMap h).Pairwise fun x y => x.start < y.start) :
    (l.filterMap f).merge (l.filterMap g) Span.startsFirst = l.filterMap h := by
  have hsub : ∀ l : List α, ∀ y, y ∈ l.filterMap f ∨ y ∈ l.filterMap g → y ∈ l.filterMap h := by
    intro l y hy
    simp only [List.mem_filterMap] at hy ⊢
    grind
  induction l with
  | nil => simp
  | cons a l ih =>
    cases hx : h a with
    | none =>
      obtain ⟨hf, hg⟩ : f a = none ∧ g a = none := by grind
      rw [List.filterMap_cons_none hx] at hsorted
      rw [List.filterMap_cons_none hx, List.filterMap_cons_none hf, List.filterMap_cons_none hg]
      exact ih hsorted
    | some x =>
      rw [List.filterMap_cons_some hx] at hsorted ⊢
      obtain ⟨hfirst, hsorted⟩ := List.pairwise_cons.mp hsorted
      rw [← ih hsorted]
      obtain ⟨hf, hg⟩ | ⟨hf, hg⟩ := hcases a
      · rw [List.filterMap_cons_some (hf.trans hx), List.filterMap_cons_none hg]
        cases hright : l.filterMap g with
        | nil => simp
        | cons y ys =>
          have hlt := hfirst y (hsub l y (.inr (by simp [hright])))
          rw [List.cons_merge_cons, if_pos (by simp [Span.startsFirst, hlt.le])]
      · rw [List.filterMap_cons_none hf, List.filterMap_cons_some (hg.trans hx)]
        cases hleft : l.filterMap f with
        | nil => simp
        | cons y ys =>
          have hlt := hfirst y (hsub l y (.inl (by simp [hleft])))
          rw [List.cons_merge_cons, if_neg (by simp [Span.startsFirst, hlt])]

/-- The places of tokens and faults, from left to right. -/
def places (tokens : List Token) (faults : List Located) : List Span :=
  (tokens.map Token.span).merge (faults.map Located.span) Span.startsFirst

/-- The tokens and the faults make up the source, with nothing but layout between them. -/
structure Tiles (source : String) (tokens : List Token) (faults : List Located) : Prop where
  tokensInOrder : tokens.Pairwise fun a b => a.span.stop ≤ b.span.start
  faultsInOrder : faults.Pairwise fun a b => a.span.stop ≤ b.span.start
  inOrder : (places tokens faults).Pairwise fun a b => a.stop ≤ b.start
  nonempty : ∀ span ∈ places tokens faults, span.start < span.stop
  boundaries : ∀ span ∈ places tokens faults,
    IsBoundary source span.start ∧ IsBoundary source span.stop
  lexemes : ∀ token ∈ tokens, token.lexeme = token.span.textIn source
  texts : ∀ fault ∈ faults, ∀ text, fault.fault = .unexpectedText text →
    text = fault.span.textIn source
  layout : ∀ gap ∈ Span.gaps source.utf8ByteSize 0 (places tokens faults),
    Layout (gap.stop = source.utf8ByteSize) (gap.textIn source).toList

theorem mem_marks {source : String} {span : Span}
    (h : span ∈ (Piece.ofSource source).filterMap Piece.Placed.mark?) :
    ∃ placed ∈ Piece.ofSource source, span = placed.span := by
  obtain ⟨placed, hplaced, hspan⟩ := List.mem_filterMap.mp h
  exact ⟨placed, hplaced, Piece.Placed.span_of_mark? hspan⟩

theorem pairwise_marks (source : String) :
    ((Piece.ofSource source).filterMap Piece.Placed.mark?).Pairwise fun a b =>
      a.stop ≤ b.start := by
  refine List.pairwise_filterMap.mpr ((Piece.pairwise_place _ _ _).imp ?_)
  intro p q hpq a ha b hb
  rw [Piece.Placed.span_of_mark? ha, Piece.Placed.span_of_mark? hb]
  exact hpq

theorem nonempty_marks {source : String} {span : Span}
    (h : span ∈ (Piece.ofSource source).filterMap Piece.Placed.mark?) : span.start < span.stop := by
  obtain ⟨placed, hplaced, rfl⟩ := mem_marks h
  obtain ⟨-, -, -, htext, -⟩ := Piece.exists_text_of_mem_ofSource hplaced
  exact Nat.lt_add_of_pos_right (Text.byteLength_pos htext)

theorem places_scan (source : String) :
    places (words source) (scan source).faults =
      (Piece.ofSource source).filterMap Piece.Placed.mark? := by
  have hsorted : ((Piece.ofSource source).filterMap Piece.Placed.mark?).Pairwise fun a b =>
      a.start < b.start := by
    refine (pairwise_marks source).imp_of_mem fun ha _ hab => ?_
    exact Nat.lt_of_lt_of_le (nonempty_marks ha) hab
  rw [← merge_filterMap Piece.Placed.mark?_cases hsorted, places, scan_faults, words, Piece.marks,
    Piece.marks, List.map_filterMap, List.map_filterMap]
  rfl

theorem pairwise_faults (source : String) :
    (scan source).faults.Pairwise fun a b => a.span.stop ≤ b.span.start := by
  refine List.pairwise_filterMap.mpr ((Piece.pairwise_place _ _ _).imp ?_)
  intro p q hpq a ha b hb
  rw [(Piece.Placed.of_fault? ha).1, (Piece.Placed.of_fault? hb).1]
  exact hpq

theorem layout_of_mem_gaps {source : String} {gap : Span}
    (h : gap ∈ Span.gaps source.utf8ByteSize 0
      ((Piece.ofSource source).filterMap Piece.Placed.mark?)) :
    Layout (gap.stop = source.utf8ByteSize) (gap.textIn source).toList := by
  have htotal : Piece.totalLength (Piece.split source.toList) = source.utf8ByteSize := by
    rw [Piece.totalLength, Piece.flatMap_split, Text.utf8ByteSize_eq_byteLength]
  rw [← htotal] at h
  have hall := (List.nil_append (Piece.split source.toList)).symm
  obtain ⟨before, row, rest, hsplit, hrow, hrest, rfl⟩ :=
    Piece.exists_of_mem_gaps [] [] hall rfl (by simp) h
  have hsource : source.toList =
      before.flatMap Piece.text ++ (row.flatMap Piece.text ++ rest.flatMap Piece.text) := by
    rw [← List.flatMap_append, ← List.flatMap_append, ← hsplit, Piece.flatMap_split]
  rw [textIn_after hsource, String.toList_ofList]
  refine (Piece.layout_of_split (Piece.split_of_append hsplit) hrow hrest).imp ?_
  rintro rfl
  rw [Text.utf8ByteSize_eq_byteLength, hsource]
  simp [Span.after]

/-- **Scanning loses nothing.** The last token of a source is an empty one at its end, and the other
tokens and the faults make up the source, up to blanks and comments. -/
theorem tiles_scan (source : String) :
    ∃ tokens last, (scan source).tokens = tokens ++ [last] ∧
      last.kind = .endOfInput ∧ last.span = .empty source.utf8ByteSize ∧
      (∀ token ∈ tokens, token.kind ≠ .endOfInput) ∧
      Tiles source tokens (scan source).faults := by
  refine ⟨words source, lastToken source, rfl, rfl, rfl, (closes_words source).1, ?_⟩
  constructor
  case tokensInOrder => exact (inOrder_words source).sorted
  case faultsInOrder => exact pairwise_faults source
  case inOrder => exact places_scan source ▸ pairwise_marks source
  case nonempty => exact places_scan source ▸ fun span hspan => nonempty_marks hspan
  case boundaries =>
    intro span hspan
    rw [places_scan] at hspan
    obtain ⟨placed, hplaced, rfl⟩ := mem_marks hspan
    obtain ⟨before, after, hsource, -, hplace⟩ := Piece.exists_text_of_mem_ofSource hplaced
    exact hplace ▸ isBoundary_after hsource
  case lexemes =>
    intro token htoken
    obtain ⟨placed, hplaced, htoken⟩ := List.mem_filterMap.mp htoken
    rw [Piece.Placed.span_of_token? htoken, Piece.textIn_of_mem_ofSource hplaced]
    exact (Piece.Placed.of_token? htoken).2.1
  case texts =>
    intro fault hfault text htext
    obtain ⟨placed, hplaced, hfault⟩ := List.mem_filterMap.mp hfault
    obtain ⟨hspan, ⟨-, hunexpected⟩ | ⟨-, hopen⟩⟩ := Piece.Placed.of_fault? hfault
    · rw [hspan, Piece.textIn_of_mem_ofSource hplaced]
      exact Fault.unexpectedText.inj (htext.symm.trans hunexpected)
    · exact nomatch htext.symm.trans hopen
  case layout => exact places_scan source ▸ fun gap hgap => layout_of_mem_gaps hgap

end BlockScript
