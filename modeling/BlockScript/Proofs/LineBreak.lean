import BlockScript.Token.Scan

/-!
# A line break separates

What is written after a line break is scanned as if it stood alone, except that it lies further
down. The tokens of `s ++ "\n" ++ t` are those of `s` and those of `t`, the latter moved by the
length of `s` and the line break, and the same goes for the faults. The one exception is a string
literal that `s` leaves open, since it goes on into `t`.

Cut into pieces, the two sources are not simply put together: blanks at the end of `s`, the line
break and blanks at the beginning of `t` are one piece. But blanks leave no mark, so `marks` goes
through the text by blanks one at a time (`marks_blank`), and by other pieces as a whole
(`first_lineBreak`).

## Main results

* `Piece.marks_lineBreak` — what is read off a text with a line break in it
* `words_lineBreak`, `scan_faults_lineBreak` — the same of the tokens and the faults of a source
* `scan_lineBreak` — the scan of a source with a line break in it
-/

namespace BlockScript

namespace Piece

variable {α : Type} {select : Placed → Option α}

/-! ### Marks -/

/-- What `select` reads off the pieces of a text, of which the first lies at `start` on `line`. -/
def marks (select : Placed → Option α) (start line : Nat) (cs : List Char) : List α :=
  (place start line (split cs)).filterMap select

@[simp] theorem marks_nil (start line : Nat) : marks select start line [] = [] := by
  rw [marks, split]
  rfl

theorem marks_cons (start line : Nat) (c : Char) (cs : List Char) :
    marks select start line (c :: cs) =
      (select ⟨(first c cs).1, start, line⟩).toList ++
        marks select (start + Text.byteLength (first c cs).1.text)
          (line + Text.lineFeeds (first c cs).1.text) (first c cs).2 := by
  rw [marks, split, place, List.filterMap_cons]
  cases select ⟨(first c cs).1, start, line⟩ <;> rfl

/-- Blanks leave no mark. -/
def SkipsBlanks (select : Placed → Option α) : Prop :=
  ∀ placed : Placed, placed.piece.cls = .blank → select placed = none

theorem first_of_isBlank {c : Char} (hc : isBlank c = true) (cs : List Char) :
    first c cs = (⟨.blank, c :: cs.takeWhile isBlank⟩, cs.dropWhile isBlank) := by
  rw [first, if_pos hc, run]

/-- All blanks at the beginning of a text can be passed over. -/
theorem marks_dropWhile (h : SkipsBlanks select) (start line : Nat) (cs : List Char) :
    marks select start line cs =
      marks select (start + Text.byteLength (cs.takeWhile isBlank))
        (line + Text.lineFeeds (cs.takeWhile isBlank)) (cs.dropWhile isBlank) := by
  cases cs with
  | nil => rfl
  | cons c cs =>
    by_cases hc : isBlank c = true
    · rw [marks_cons, first_of_isBlank hc, h _ rfl, List.takeWhile_cons_of_pos hc,
        List.dropWhile_cons_of_pos hc]
      rfl
    · rw [List.takeWhile_cons_of_neg hc, List.dropWhile_cons_of_neg hc]
      rfl

/-- One blank can be passed over. -/
theorem marks_blank (h : SkipsBlanks select) {c : Char} (hc : isBlank c = true) (start line : Nat)
    (cs : List Char) :
    marks select start line (c :: cs) =
      marks select (start + c.utf8Size) (line + Text.lineFeeds [c]) cs := by
  rw [marks_dropWhile h start line, marks_dropWhile h _ _ cs, List.takeWhile_cons_of_pos hc,
    List.dropWhile_cons_of_pos hc, ← List.singleton_append, Text.lineFeeds_append,
    Text.byteLength_append]
  simp only [Text.byteLength_cons, Text.byteLength_nil, Nat.add_zero, Nat.add_assoc]

/-! ### The first piece before a line break -/

theorem takeWhile_lineBreak {p : Char → Bool} (hp : p '\n' = false) (cs ds : List Char) :
    (cs ++ '\n' :: ds).takeWhile p = cs.takeWhile p := by
  induction cs with
  | nil => simp [hp]
  | cons c cs ih => rw [List.cons_append, List.takeWhile_cons, List.takeWhile_cons, ih]

theorem dropWhile_lineBreak {p : Char → Bool} (hp : p '\n' = false) (cs ds : List Char) :
    (cs ++ '\n' :: ds).dropWhile p = cs.dropWhile p ++ '\n' :: ds := by
  induction cs with
  | nil => simp [hp]
  | cons c cs ih =>
    rw [List.cons_append, List.dropWhile_cons, List.dropWhile_cons, ih]
    split <;> rfl

/-- The piece is the same if a line break comes after the text. -/
def Unmoved (take : List Char → Piece × List Char) (cs ds : List Char) : Prop :=
  take (cs ++ '\n' :: ds) = ((take cs).1, (take cs).2 ++ '\n' :: ds)

theorem unmoved_run (cls : Class) {p : Char → Bool} (hp : p '\n' = false) (c : Char)
    (cs ds : List Char) : Unmoved (run cls p c) cs ds := by
  rw [Unmoved, run, run, takeWhile_lineBreak hp, dropWhile_lineBreak hp]

theorem unmoved_word (c : Char) (cs ds : List Char) : Unmoved (word c) cs ds := by
  have hp : isWordPart '\n' = false := by decide
  rw [Unmoved, word, word, takeWhile_lineBreak hp, dropWhile_lineBreak hp]

theorem unmoved_number (c : Char) (cs ds : List Char) : Unmoved (number c) cs ds := by
  have hp : Numeral.isDigit '\n' = false := by decide
  rw [Unmoved, number, number, takeWhile_lineBreak hp, dropWhile_lineBreak hp]
  -- The point and the digit after it are both before the line break, or there is no such pair.
  rcases cs.dropWhile Numeral.isDigit with _ | ⟨a, _ | ⟨b, rest⟩⟩
  · rfl
  · by_cases ha : a = '.'
    · subst ha
      simp [hp]
    · simp [ha]
  · by_cases ha : a = '.'
    · subst ha
      by_cases hb : Numeral.isDigit b = true
      · simp [hb, takeWhile_lineBreak hp, dropWhile_lineBreak hp]
      · simp [hb]
    · simp [ha]

theorem unmoved_quotation {q : Char} {cs : List Char}
    (h : (quotation q cs).1.cls ≠ .openString) (ds : List Char) : Unmoved (quotation q) cs ds := by
  unfold quotation at h
  rw [Unmoved, quotation, quotation]
  cases hd : cs.dropWhile (· ≠ '"') with
  | nil => rw [hd] at h; exact absurd rfl h
  | cons close rest =>
    -- The closing quote is in `cs`, and what comes after it does not matter.
    have hlen : (cs.takeWhile (· ≠ '"')).length ≠ cs.length := by
      have := congrArg List.length (List.takeWhile_append_dropWhile (p := (· ≠ '"')) (l := cs))
      rw [List.length_append, hd, List.length_cons] at this
      omega
    rw [List.dropWhile_append, hd, List.takeWhile_append, if_neg hlen]
    rfl

theorem unmoved_symbolOrUnexpected (c : Char) (cs ds : List Char) :
    Unmoved (symbolOrUnexpected c) cs ds := by
  have hp : isUnexpected '\n' = false := by decide
  have hrun := unmoved_run .unexpected hp c cs ds
  rw [Unmoved] at hrun ⊢
  unfold symbolOrUnexpected
  rcases cs with _ | ⟨a, cs⟩
  · cases Symbol.withEqual? c <;> cases Symbol.ofChar? c <;> simp_all
  · by_cases ha : a = '='
    · subst ha
      cases Symbol.withEqual? c <;> cases Symbol.ofChar? c <;> simp_all
    · cases Symbol.withEqual? c <;> cases Symbol.ofChar? c <;> simp_all

/-- A piece that is no blank and no open string ends where it did, if a line break and more come
after the text. -/
theorem first_lineBreak {c : Char} {cs : List Char} (hc : isBlank c = false)
    (h : (first c cs).1.cls ≠ .openString) (ds : List Char) : Unmoved (first c) cs ds := by
  have hslash : ((cs ++ '\n' :: ds).head? = some '/') = (cs.head? = some '/') := by
    cases cs <;> simp
  have hquote : c = '"' → (quotation c cs).1.cls ≠ .openString := by
    rintro rfl
    exact h
  unfold Unmoved first
  simp only [hc, hslash, Bool.false_eq_true, if_false]
  split
  · exact unmoved_run .comment (by decide) c cs ds
  · split
    · exact unmoved_word c cs ds
    · split
      · exact unmoved_number c cs ds
      · split
        · exact unmoved_quotation (hquote ‹_›) ds
        · exact unmoved_symbolOrUnexpected c cs ds

/-! ### Texts with a line break -/

/-- The place of a string literal that is never closed. -/
def openString? (placed : Placed) : Option Placed :=
  if placed.piece.cls = .openString then some placed else none

theorem skipsBlanks_openString? : SkipsBlanks openString? := fun placed h => by
  simp [openString?, h]

/-- **A line break separates.** Unless a string literal is open at its end, what comes before a line
break and what comes after it are read off apart. -/
theorem marks_lineBreak (h : SkipsBlanks select) (cs ds : List Char) (start line : Nat)
    (hopen : marks openString? start line cs = []) :
    marks select start line (cs ++ '\n' :: ds) =
      marks select start line cs ++
        marks select (start + Text.byteLength cs + 1) (line + Text.lineFeeds cs + 1) ds := by
  match cs with
  | [] =>
    have hblank : isBlank '\n' = true := by decide
    rw [List.nil_append, marks_blank h hblank, marks_nil, List.nil_append]
    rfl
  | c :: cs =>
    by_cases hc : isBlank c = true
    · rw [marks_blank skipsBlanks_openString? hc] at hopen
      have hlines : Text.lineFeeds (c :: cs) = Text.lineFeeds [c] + Text.lineFeeds cs :=
        Text.lineFeeds_append [c] cs
      rw [List.cons_append, marks_blank h hc, marks_blank h hc, marks_lineBreak h cs ds _ _ hopen,
        Text.byteLength_cons, hlines, Nat.add_assoc start, Nat.add_assoc line]
    · rw [marks_cons, List.append_eq_nil_iff] at hopen
      have hfirst : (first c cs).1.cls ≠ .openString := by
        intro heq
        simp [openString?, heq] at hopen
      have htext := first_append c cs
      have hlen : (first c cs).2.length ≤ cs.length := Nat.le_of_lt_succ (length_first_lt c cs)
      rw [List.cons_append, marks_cons, marks_cons, first_lineBreak (by simpa using hc) hfirst ds,
        marks_lineBreak h (first c cs).2 ds _ _ hopen.2, List.append_assoc, ← htext,
        Text.byteLength_append, Text.lineFeeds_append, Nat.add_assoc start, Nat.add_assoc line]
termination_by cs.length

/-! ### Moving pieces -/

/-- The same piece further down. -/
def Placed.move (offset lines : Nat) (placed : Placed) : Placed :=
  ⟨placed.piece, placed.start + offset, placed.line + lines⟩

theorem place_move (start line offset lines : Nat) (ps : List Piece) :
    place (start + offset) (line + lines) ps = (place start line ps).map (.move offset lines) := by
  induction ps generalizing start line with
  | nil => rfl
  | cons p ps ih =>
    rw [place, place, List.map_cons, Nat.add_right_comm start, Nat.add_right_comm line, ih]
    rfl

/-- If what is read off a piece moves with the piece, so do the marks. -/
theorem marks_move {offset lines : Nat} {move : α → α}
    (h : ∀ placed : Placed, select (placed.move offset lines) = (select placed).map move)
    (start line : Nat) (cs : List Char) :
    marks select (start + offset) (line + lines) cs = (marks select start line cs).map move := by
  rw [marks, place_move, List.filterMap_map, marks, List.map_filterMap]
  exact congrArg (List.filterMap · _) (funext h)

end Piece

/-! ## Sources -/

/-- The tokens of a source, without the end of input. -/
def words (source : String) : List Token := Piece.marks Piece.Placed.token? 0 1 source.toList

/-- The token that ends a source. -/
def lastToken (source : String) : Token :=
  .endOfInput source.utf8ByteSize (1 + Text.lineFeeds source.toList)

theorem scan_faults (source : String) :
    (scan source).faults = Piece.marks Piece.Placed.fault? 0 1 source.toList := rfl

/-- A span further down. -/
def Span.move (offset : Nat) (span : Span) : Span := ⟨span.start + offset, span.stop + offset⟩

/-- A token further down. -/
def Token.move (offset lines : Nat) (token : Token) : Token :=
  { token with line := token.line + lines, span := token.span.move offset }

/-- A fault further down. -/
def Located.move (offset : Nat) (fault : Located) : Located :=
  ⟨fault.fault, fault.span.move offset⟩

namespace Piece

theorem Placed.span_move (offset lines : Nat) (placed : Placed) :
    (placed.move offset lines).span = placed.span.move offset := by
  simp only [Placed.span, Placed.move, Span.move, Span.mk.injEq, true_and]
  omega

theorem token?_move (offset lines : Nat) (placed : Placed) :
    (placed.move offset lines).token? = placed.token?.map (.move offset lines) := by
  simp only [Placed.token?, Placed.span_move]
  simp only [Placed.move, Placed.text]
  cases placed.piece.cls <;> rfl

theorem fault?_move (offset lines : Nat) (placed : Placed) :
    (placed.move offset lines).fault? = placed.fault?.map (.move offset) := by
  simp only [Placed.fault?, Placed.span_move]
  simp only [Placed.move, Placed.text]
  cases placed.piece.cls <;> rfl

theorem skipsBlanks_token? : SkipsBlanks Placed.token? := fun placed h => by
  rw [Placed.token?, h]

theorem skipsBlanks_fault? : SkipsBlanks Placed.fault? := fun placed h => by
  rw [Placed.fault?, h]

/-- An open string literal is a fault of the source. -/
theorem marks_openString? {source : String}
    (h : ∀ fault ∈ (scan source).faults, fault.fault ≠ .unterminatedString) :
    marks openString? 0 1 source.toList = [] := by
  rw [marks, List.filterMap_eq_nil_iff]
  intro placed hplaced
  by_cases hcls : placed.piece.cls = .openString
  · have hfault : placed.fault? = some ⟨.unterminatedString, placed.span⟩ := by
      rw [Placed.fault?, hcls]
    exact absurd rfl (h _ (List.mem_filterMap.mpr ⟨placed, hplaced, hfault⟩))
  · rw [openString?, if_neg hcls]

end Piece

section

variable {s : String} (h : ∀ fault ∈ (scan s).faults, fault.fault ≠ .unterminatedString)
include h

theorem words_lineBreak (t : String) :
    words (s ++ "\n" ++ t) =
      words s ++ (words t).map (.move (s.utf8ByteSize + 1) (Text.lineFeeds s.toList + 1)) := by
  have hchars : (s ++ "\n" ++ t).toList = s.toList ++ '\n' :: t.toList := by simp
  rw [words, hchars,
    Piece.marks_lineBreak Piece.skipsBlanks_token? _ _ _ _ (Piece.marks_openString? h),
    Text.utf8ByteSize_eq_byteLength]
  congr 1
  have hmove := Piece.marks_move (Piece.token?_move (Text.byteLength s.toList + 1)
    (Text.lineFeeds s.toList + 1)) 0 1 t.toList
  rw [Nat.add_assoc, Nat.add_assoc]
  exact hmove

theorem scan_faults_lineBreak (t : String) :
    (scan (s ++ "\n" ++ t)).faults =
      (scan s).faults ++ (scan t).faults.map (.move (s.utf8ByteSize + 1)) := by
  have hchars : (s ++ "\n" ++ t).toList = s.toList ++ '\n' :: t.toList := by simp
  rw [scan_faults, hchars,
    Piece.marks_lineBreak Piece.skipsBlanks_fault? _ _ _ _ (Piece.marks_openString? h),
    Text.utf8ByteSize_eq_byteLength]
  congr 1
  have hmove := Piece.marks_move (Piece.fault?_move (Text.byteLength s.toList + 1)
    (Text.lineFeeds s.toList + 1)) 0 1 t.toList
  rw [Nat.add_assoc, Nat.add_assoc]
  exact hmove

end

theorem lastToken_lineBreak (s t : String) :
    lastToken (s ++ "\n" ++ t) =
      (lastToken t).move (s.utf8ByteSize + 1) (Text.lineFeeds s.toList + 1) := by
  have hlines : Text.lineFeeds (s ++ "\n" ++ t).toList =
      Text.lineFeeds t.toList + (Text.lineFeeds s.toList + 1) := by
    have hchars : (s ++ "\n" ++ t).toList = s.toList ++ ('\n' :: t.toList) := by simp
    rw [hchars, Text.lineFeeds_append]
    simp only [Text.lineFeeds, List.count_cons_self]
    omega
  have hbytes : (s ++ "\n" ++ t).utf8ByteSize = t.utf8ByteSize + (s.utf8ByteSize + 1) := by
    have hbreak : "\n".utf8ByteSize = 1 := rfl
    rw [String.utf8ByteSize_append, String.utf8ByteSize_append, hbreak, Nat.add_comm]
  simp only [lastToken, Token.endOfInput, Token.move, Span.empty, Span.move, hlines, hbytes,
    Nat.add_assoc]

/-- **Scanning splits at line breaks.** If no string literal is open at the end of `s`, then the
tokens of `s ++ "\n" ++ t` are those of `s` without the end of input, and after them those of `t`
further down. The same goes for the faults. -/
theorem scan_lineBreak (s t : String)
    (h : ∀ fault ∈ (scan s).faults, fault.fault ≠ .unterminatedString) :
    (∃ tokens last, (scan s).tokens = tokens ++ [last] ∧ last.kind = .endOfInput ∧
      (scan (s ++ "\n" ++ t)).tokens = tokens ++
        (scan t).tokens.map (.move (s.utf8ByteSize + 1) (Text.lineFeeds s.toList + 1))) ∧
    (scan (s ++ "\n" ++ t)).faults =
      (scan s).faults ++ (scan t).faults.map (.move (s.utf8ByteSize + 1)) := by
  have htokens (source : String) : (scan source).tokens = words source ++ [lastToken source] := rfl
  refine ⟨⟨words s, lastToken s, rfl, rfl, ?_⟩, scan_faults_lineBreak h t⟩
  rw [htokens, htokens, words_lineBreak h, lastToken_lineBreak, List.map_append, List.append_assoc]
  rfl

/-- Nothing goes on past the line break: no run of unexpected characters, no string literal that has
a line feed in it, and no comment, even with a quote in it. -/
theorem scan_lineBreak_comment :
    (∀ fault ∈ (scan "\"a\nb\" // \"").faults, fault.fault ≠ .unterminatedString) ∧
      (scan ("\"a\nb\" // \"" ++ "\n" ++ "x@\"")).tokens =
        [⟨.string, "\"a\nb\"", some (.text "a\nb"), 1, ⟨0, 5⟩⟩,
          ⟨.identifier, "x", none, 3, ⟨11, 12⟩⟩, .endOfInput 14 3] ∧
      (scan ("\"a\nb\" // \"" ++ "\n" ++ "x@\"")).faults =
        [⟨.unexpectedText "@", ⟨12, 13⟩⟩, ⟨.unterminatedString, ⟨13, 14⟩⟩] := by
  have hfaults : (scan "\"a\nb\" // \"").faults = [] := by with_unfolding_all rfl
  have hopen : ∀ fault ∈ (scan "\"a\nb\" // \"").faults, fault.fault ≠ .unterminatedString := by
    simp [hfaults]
  obtain ⟨⟨tokens, last, hs, -, htokens⟩, hboth⟩ := scan_lineBreak _ "x@\"" hopen
  have hfirst : tokens = [⟨.string, "\"a\nb\"", some (.text "a\nb"), 1, ⟨0, 5⟩⟩] := by
    have hall : (scan "\"a\nb\" // \"").tokens.dropLast =
        [⟨.string, "\"a\nb\"", some (.text "a\nb"), 1, ⟨0, 5⟩⟩] := by with_unfolding_all rfl
    rwa [hs, List.dropLast_concat] at hall
  refine ⟨hopen, htokens.trans ?_, hboth.trans ?_⟩
  · rw [hfirst]
    with_unfolding_all rfl
  · rw [hfaults]
    with_unfolding_all rfl

end BlockScript
