import BlockScript.Report
import BlockScript.Proofs.Coverage

/-!
# Line numbers

A token has a line number, and a report on a fault at its place shows one. The two come about in
different ways. The scanner counts line feeds as it goes from piece to piece. The report knows
nothing of tokens: it cuts the source into lines, and looks for the last of them that starts at or
before the place.

Both are one more than the number of line feeds before the place. For the scanner this is
`line_of_mem_tokens`. For the report, a line starts at the beginning of the source and after each
line feed (`Line.map_start_ofSource`). Of these starts as many lie at or before a place between two
characters as there are line feeds before it, and the first one (`Line.numberAt_ofSource`).

Places are counted in bytes. No byte of a character other than the line feed looks like one, so it
makes no difference whether line feeds are counted among characters or among bytes
(`lineFeedsBefore_of_append`).

## Main definitions

* `lineFeedsBefore` — the line feeds among the first bytes of a source
* `Text.lineStarts` — the offsets after line feeds

## Main results

* `Line.numberAt_ofSource` — the line that a report finds a place in
* `report_shows_line` — the line of a token is the one that a report shows
-/

namespace BlockScript

/-! ## Line feeds in bytes -/

/-- The number of line feeds among the first `offset` bytes of a source. -/
def lineFeedsBefore (source : String) (offset : Nat) : Nat :=
  (source.toUTF8.data.toList.take offset).count 10

namespace Text

theorem lineFeeds_cons (c : Char) (cs : List Char) :
    lineFeeds (c :: cs) = lineFeeds cs + if c = '\n' then 1 else 0 := by
  simp [lineFeeds, List.count_cons]

/-- A character has the byte of a line feed only if it is one: all bytes of a longer character have
their highest bit set. -/
theorem count_utf8EncodeChar (c : Char) :
    (String.utf8EncodeChar c).count 10 = if c = '\n' then 1 else 0 := by
  by_cases hc : c = '\n'
  · subst hc
    decide
  · have hval : c.val.toNat ≠ 10 := fun h => hc (Char.ext (UInt32.toNat_inj.mp h))
    have hbyte {n : Nat} (hn : n % 256 ≠ 10) : (10 : UInt8) ≠ UInt8.ofNat n := by
      intro h
      rw [← UInt8.toNat_ofNat', ← h] at hn
      exact hn rfl
    rw [if_neg hc, List.count_eq_zero, String.utf8EncodeChar]
    repeat' split
    all_goals
      simp only [List.mem_cons, List.not_mem_nil, or_false, not_or]
      and_intros <;> exact hbyte (by omega)

theorem count_flatMap_utf8EncodeChar (cs : List Char) :
    (cs.flatMap String.utf8EncodeChar).count 10 = lineFeeds cs := by
  induction cs with
  | nil => rfl
  | cons c cs ih =>
    rw [List.flatMap_cons, List.count_append, ih, count_utf8EncodeChar, lineFeeds_cons,
      Nat.add_comm]

theorem length_flatMap_utf8EncodeChar (cs : List Char) :
    (cs.flatMap String.utf8EncodeChar).length = byteLength cs := by
  rw [byteLength, ← String.size_toByteArray, String.toByteArray_ofList, List.utf8Encode,
    List.size_toByteArray]

end Text

/-- Line feeds can be counted among characters as well. -/
theorem lineFeedsBefore_of_append {source : String} {before after : List Char}
    (h : source.toList = before ++ after) :
    lineFeedsBefore source (Text.byteLength before) = Text.lineFeeds before := by
  have hbytes : source.toUTF8.data.toList =
      before.flatMap String.utf8EncodeChar ++ after.flatMap String.utf8EncodeChar := by
    rw [← List.flatMap_append, ← h, ← String.ofList_toList (s := source),
      String.toUTF8_eq_toByteArray, String.toByteArray_ofList, List.utf8Encode,
      List.data_toByteArray, String.toList_ofList]
  rw [lineFeedsBefore, hbytes, ← Text.length_flatMap_utf8EncodeChar, List.take_left,
    Text.count_flatMap_utf8EncodeChar]

/-! ## The lines of a report -/

namespace Text

/-- The offsets right after the line feeds of a text that starts at `start`. -/
def lineStarts (start : Nat) : List Char → List Nat
  | [] => []
  | c :: cs =>
    if c = '\n' then (start + c.utf8Size) :: lineStarts (start + c.utf8Size) cs
    else lineStarts (start + c.utf8Size) cs

theorem lineStarts_append (start : Nat) (cs ds : List Char) :
    lineStarts start (cs ++ ds) =
      lineStarts start cs ++ lineStarts (start + byteLength cs) ds := by
  induction cs generalizing start with
  | nil => rfl
  | cons c cs ih =>
    rw [List.cons_append, lineStarts, lineStarts, ih, byteLength_cons, Nat.add_assoc]
    split <;> rfl

theorem length_lineStarts (start : Nat) (cs : List Char) :
    (lineStarts start cs).length = lineFeeds cs := by
  induction cs generalizing start with
  | nil => rfl
  | cons c cs ih =>
    rw [lineStarts, lineFeeds_cons]
    split
    · rw [List.length_cons, ih]
    · exact ih _

/-- A line starts after the beginning of the text, and at the latest where the text ends. -/
theorem bounds_of_mem_lineStarts {start offset : Nat} {cs : List Char}
    (h : offset ∈ lineStarts start cs) : start < offset ∧ offset ≤ start + byteLength cs := by
  induction cs generalizing start with
  | nil => exact absurd h List.not_mem_nil
  | cons c cs ih =>
    have hpos := c.utf8Size_pos
    rw [byteLength_cons]
    have hrest (h : offset ∈ lineStarts (start + c.utf8Size) cs) :
        start < offset ∧ offset ≤ start + (c.utf8Size + byteLength cs) := by
      have := ih h
      omega
    rw [lineStarts] at h
    split at h
    · rcases List.mem_cons.mp h with rfl | h
      · omega
      · exact hrest h
    · exact hrest h

end Text

namespace Line

theorem split_ne_nil (cs : List Char) : split cs ≠ [] := by
  cases cs with
  | nil => exact List.cons_ne_nil _ _
  | cons c cs =>
    rw [split, List.foldr_cons]
    split
    · split <;> exact List.cons_ne_nil _ _
    · exact List.cons_ne_nil _ _

/-- A character belongs to the first line of the rest of the text, unless it is a line feed. -/
theorem exists_split_cons (c : Char) (cs : List Char) :
    ∃ line others, split cs = line :: others ∧
      split (c :: cs) = if c = '\n' then [c] :: line :: others else (c :: line) :: others := by
  obtain ⟨line, others, hrest⟩ := List.exists_cons_of_ne_nil (split_ne_nil cs)
  refine ⟨line, others, hrest, ?_⟩
  rw [split] at hrest
  rw [split, List.foldr_cons, hrest]

theorem map_start_place_split (start : Nat) (cs : List Char) :
    (place start (split cs)).map Line.start = start :: Text.lineStarts start cs := by
  induction cs generalizing start with
  | nil => rfl
  | cons c cs ih =>
    obtain ⟨line, others, hrest, hsplit⟩ := exists_split_cons c cs
    have hnext := ih (start + c.utf8Size)
    rw [hrest, place, List.map_cons] at hnext
    rw [hsplit, Text.lineStarts]
    split
    · rw [place, List.map_cons, place, List.map_cons, Text.byteLength_cons, Text.byteLength_nil,
        Nat.add_zero, hnext]
    · rw [place, List.map_cons, Text.byteLength_cons, ← Nat.add_assoc, (List.cons.inj hnext).2]

/-- **A line starts at the beginning of the source and after each line feed.** -/
theorem map_start_ofSource (source : String) :
    (ofSource source).map Line.start = 0 :: Text.lineStarts 0 source.toList :=
  map_start_place_split 0 source.toList

theorem numberAt_eq_countP (lines : List Line) (offset : Nat) :
    numberAt lines offset = (lines.map Line.start).countP (· ≤ offset) := by
  rw [numberAt, List.countP_map, List.countP_eq_length_filter]
  rfl

/-- **The line of a place** between two characters is one more than the number of line feeds before
it. -/
theorem numberAt_ofSource {source : String} {before after : List Char}
    (h : source.toList = before ++ after) :
    numberAt (ofSource source) (Text.byteLength before) = 1 + Text.lineFeeds before := by
  have hbefore : (Text.lineStarts 0 before).countP (· ≤ Text.byteLength before) =
      Text.lineFeeds before := by
    rw [← Text.length_lineStarts 0 before, List.countP_eq_length]
    intro offset hoffset
    simpa using (Text.bounds_of_mem_lineStarts hoffset).2
  have hafter : (Text.lineStarts (Text.byteLength before) after).countP
      (· ≤ Text.byteLength before) = 0 := by
    rw [List.countP_eq_zero]
    intro offset hoffset
    simpa using (Text.bounds_of_mem_lineStarts hoffset).1
  rw [numberAt_eq_countP, map_start_ofSource, h, Text.lineStarts_append, Nat.zero_add,
    List.countP_cons, List.countP_append, hbefore, hafter]
  simp [Nat.add_comm]

end Line

/-! ## The lines of tokens -/

theorem Piece.Placed.line_of_token? {placed : Placed} {token : Token}
    (h : placed.token? = some token) : token.line = placed.line := by
  rw [Placed.token?] at h
  split at h
  · injection h with h
    rw [← h]
  · cases h

/-- **The line of a token**, and the text before it. -/
theorem line_of_mem_tokens {source : String} {token : Token} (h : token ∈ (scan source).tokens) :
    ∃ before after, source.toList = before ++ after ∧
      token.span.start = Text.byteLength before ∧ token.line = 1 + Text.lineFeeds before := by
  rcases List.mem_append.mp h with h | h
  · obtain ⟨placed, hplaced, htoken⟩ := List.mem_filterMap.mp h
    obtain ⟨before, after, hsplit, hstart, hline⟩ := Piece.exists_of_mem_place hplaced
    refine ⟨before.flatMap Piece.text, (placed.piece :: after).flatMap Piece.text, ?_, ?_, ?_⟩
    · rw [← List.flatMap_append, ← hsplit, Piece.flatMap_split]
    · rw [Piece.Placed.span_of_token? htoken, Piece.Placed.span, hstart, Nat.zero_add]
      rfl
    · rw [Piece.Placed.line_of_token? htoken, hline]
      rfl
  · rw [List.mem_singleton.mp h]
    exact ⟨source.toList, [], by simp, Text.utf8ByteSize_eq_byteLength source, rfl⟩

/-! ## Headers -/

theorem Span.precedes_trans {a b c : Span} (hab : a.precedes b = true) (hbc : b.precedes c = true) :
    a.precedes c = true := by
  simp only [Span.precedes, Bool.or_eq_true, Bool.and_eq_true, decide_eq_true_eq,
    beq_iff_eq] at *
  omega

theorem Span.precedes_total (a b : Span) : (a.precedes b || b.precedes a) = true := by
  simp only [Span.precedes, Bool.or_eq_true, Bool.and_eq_true, decide_eq_true_eq, beq_iff_eq]
  omega

namespace Located

theorem pairwise_inOrder (faults : List Located) :
    (inOrder faults).Pairwise fun a b => a.span.precedes b.span = true := by
  refine List.pairwise_mergeSort (fun a b c hab hbc => ?_) (fun a b => ?_) faults
  · exact Span.precedes_trans hab hbc
  · exact Span.precedes_total a.span b.span

/-- A part of a sorted list is sorted. -/
theorem inOrder_of_sublist {part faults : List Located} (h : part.Sublist (inOrder faults)) :
    inOrder part = part :=
  List.mergeSort_of_pairwise ((pairwise_inOrder faults).sublist h)

end Located

namespace Report

/-- The first two lines of the entry for a fault, with the given line number and column. -/
def headline (name : String) (width line column : Nat) (fault : Fault) : String :=
  "error[" ++ fault.code ++ "]: " ++ fault.message ++ "\n" ++
    margin width ++ " ┌─ " ++ name ++ ":" ++ toString line ++ ":" ++ toString column ++ "\n"

theorem join_header (name : String) (width number : Nat) (line : Line) (fault : Located)
    (others : List String) :
    String.join ((header name width number line fault ++ others).map (· ++ "\n")) =
      headline name width number (line.columnAt fault.span.start) fault.fault ++
        String.join (others.map (· ++ "\n")) := by
  unfold header headline
  rw [List.cons_append, List.cons_append, List.nil_append, List.map_cons, List.map_cons,
    String.join_cons, String.join_cons]
  simp only [String.append_assoc]

/-- An entry begins with the line that the fault starts in. -/
theorem exists_entry_eq (name : String) (lines : List Line) (fault : Located) :
    ∃ width column excerpt, entry name lines fault =
      headline name width (Line.numberAt lines fault.span.start) column fault.fault ++ excerpt := by
  rw [entry, List.append_assoc, join_header]
  exact ⟨_, _, _, rfl⟩

end Report

/-- The entry for one of the faults stands between those for the faults before it and after it. -/
theorem exists_report_eq (name source : String) {faults : List Located} {fault : Located}
    (h : fault ∈ faults) :
    ∃ earlier later, Located.inOrder faults = earlier ++ fault :: later ∧
      report name source faults = report name source earlier ++
        Report.entry name (Line.ofSource source) fault ++ report name source later := by
  have hmem : fault ∈ Located.inOrder faults := List.mem_mergeSort.mpr h
  obtain ⟨earlier, later, hsplit⟩ := List.append_of_mem hmem
  have hearlier : Located.inOrder earlier = earlier :=
    Located.inOrder_of_sublist (hsplit ▸ List.sublist_append_left _ _)
  have hlater : Located.inOrder later = later :=
    Located.inOrder_of_sublist (hsplit ▸ (List.sublist_cons_self _ _).trans
      (List.sublist_append_right _ _))
  refine ⟨earlier, later, hsplit, ?_⟩
  rw [report, report, report, hsplit, hearlier, hlater, List.map_append, List.map_cons,
    String.join_append, String.join_cons, String.append_assoc]

/-- **The line of a token is the one that a report shows.** It is one more than the number of line
feeds before the token, and whichever faults a report is about, the entry for a fault at the place
of the token shows this line. -/
theorem report_shows_line (source name : String) {token : Token}
    (htoken : token ∈ (scan source).tokens) :
    token.line = 1 + lineFeedsBefore source token.span.start ∧
      ∀ (faults : List Located) (fault : Fault), ⟨fault, token.span⟩ ∈ faults →
        ∃ earlier later width column excerpt,
          Located.inOrder faults = earlier ++ ⟨fault, token.span⟩ :: later ∧
          report name source faults = report name source earlier ++
            (Report.headline name width token.line column fault ++ excerpt) ++
            report name source later := by
  obtain ⟨before, after, hsource, hstart, hline⟩ := line_of_mem_tokens htoken
  refine ⟨by rw [hstart, lineFeedsBefore_of_append hsource, hline], fun faults fault hfault => ?_⟩
  obtain ⟨earlier, later, hsplit, hreport⟩ := exists_report_eq name source hfault
  obtain ⟨width, column, excerpt, hentry⟩ :=
    Report.exists_entry_eq name (Line.ofSource source) ⟨fault, token.span⟩
  rw [hstart, Line.numberAt_ofSource hsource, ← hline] at hentry
  rw [hentry] at hreport
  exact ⟨earlier, later, width, column, excerpt, hsplit, hreport⟩

/-- A token after a string and a comment that each end a line, with an earlier fault in the same
report. -/
theorem report_shows_line_semicolon :
    let source := "\"a\n\" // b\n;"
    let token : Token := ⟨.symbol .semicolon, ";", none, 3, ⟨10, 11⟩⟩
    let fault : Located := ⟨.expectedExpression, token.span⟩
    let faults : List Located := [fault, ⟨.expected "';' after value", ⟨0, 4⟩⟩]
    token ∈ (scan source).tokens ∧ fault ∈ faults ∧ 3 = 1 + lineFeedsBefore source 10 ∧
      ∃ earlier later width column excerpt, Located.inOrder faults = earlier ++ fault :: later ∧
        report "<stdin>" source faults = report "<stdin>" source earlier ++
          (Report.headline "<stdin>" width 3 column .expectedExpression ++ excerpt) ++
          report "<stdin>" source later := by
  intro source token fault faults
  have htoken : token ∈ (scan source).tokens := by
    refine List.mem_of_getElem? (i := 1) ?_
    simp only [source, token]
    with_unfolding_all rfl
  have hfault : fault ∈ faults := List.mem_cons_self
  obtain ⟨hline, hreport⟩ := report_shows_line source "<stdin>" htoken
  exact ⟨htoken, hfault, hline, hreport faults .expectedExpression hfault⟩

end BlockScript
