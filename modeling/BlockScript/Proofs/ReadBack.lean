import BlockScript.Proofs.Spacing

/-!
# Tokens can be read back

Tokens that were read from any sources can be written out one after the other with a space between
each two of them, and the text that comes of it is read as the same tokens. No token joins the next
one, and none is cut in a different way because of where it stood before.

This is so because a token does not need what came after it in its own source. Cut off there and
followed by a blank or by nothing at all, the same piece is read again (`Piece.StandsAlone`). A
space between two such texts leaves no mark, so the pieces of the whole are those of its parts.

## Main definitions

* `Piece.Parted` — texts that cannot go on with a token that stands before them
* `Piece.StandsAlone` — pieces that are read again wherever their text is followed by a blank
* `Token.content` — what a token is, wherever it stands

## Main results

* `Piece.standsAlone_first` — every token stands alone
* `Piece.marks_intercalate` — what is read off pieces with spaces between them
* `scan_intercalate` — tokens are read back
-/

namespace BlockScript

namespace Piece

/-! ## Pieces that stand alone -/

/-- Nothing comes next, or a blank does. -/
def Parted (rest : List Char) : Prop := ∀ d ∈ rest.head?, isBlank d = true

/-- If the text of the piece is followed by a blank or by nothing, the piece is read there. -/
def StandsAlone (p : Piece) : Prop :=
  ∃ c cs, p.text = c :: cs ∧ ∀ rest, Parted rest → first c (cs ++ rest) = (p, rest)

theorem Parted.head?_ne {rest : List Char} (h : Parted rest) {d : Char} (hd : isBlank d = false) :
    rest.head? ≠ some d :=
  fun hhead => Bool.false_ne_true (hd.symm.trans (h d hhead))

section

variable {p : Char → Bool} (hp : ∀ d, isBlank d = true → p d = false) {cs rest : List Char}
  (hcs : ∀ c ∈ cs, p c = true) (h : Parted rest)
include hp hcs h

theorem takeWhile_parted : (cs ++ rest).takeWhile p = cs := by
  rw [List.takeWhile_append_of_pos hcs]
  cases rest with
  | nil => rw [List.takeWhile_nil, List.append_nil]
  | cons d rest => rw [List.takeWhile_cons_of_neg (by simp [hp d (h d rfl)]), List.append_nil]

theorem dropWhile_parted : (cs ++ rest).dropWhile p = rest := by
  rw [List.dropWhile_append_of_pos hcs]
  cases rest with
  | nil => rfl
  | cons d rest => rw [List.dropWhile_cons_of_neg (by simp [hp d (h d rfl)])]

end

theorem isWordPart_of_isBlank (d : Char) (h : isBlank d = true) : isWordPart d = false := by
  rcases isBlank_iff.mp h with rfl | rfl | rfl | rfl | rfl <;> rfl

theorem isDigit_of_isBlank (d : Char) (h : isBlank d = true) : Numeral.isDigit d = false := by
  rcases isBlank_iff.mp h with rfl | rfl | rfl | rfl | rfl <;> rfl

theorem standsAlone_word {c : Char} (hc : Lead.of c = .word) (cs : List Char) :
    (word c cs).1.StandsAlone := by
  refine ⟨c, cs.takeWhile isWordPart, rfl, fun rest hrest => ?_⟩
  have hall : ∀ d ∈ cs.takeWhile isWordPart, isWordPart d = true :=
    fun _ hd => List.mem_takeWhile_imp hd
  rw [(first_of_word hc _).2, word, word, takeWhile_parted isWordPart_of_isBlank hall hrest,
    dropWhile_parted isWordPart_of_isBlank hall hrest]

theorem standsAlone_number {c : Char} (hc : Lead.of c = .number) (cs : List Char) :
    (number c cs).1.StandsAlone := by
  have hwhole : ∀ d ∈ cs.takeWhile Numeral.isDigit, Numeral.isDigit d = true :=
    fun _ hd => List.mem_takeWhile_imp hd
  have hpoint : Numeral.isDigit '.' ≠ true := by decide
  -- The digits alone, since no point comes after them.
  have halone : StandsAlone ⟨.token .number, c :: cs.takeWhile Numeral.isDigit⟩ := by
    refine ⟨c, cs.takeWhile Numeral.isDigit, rfl, fun rest hrest => ?_⟩
    rw [(first_of_number hc _).2, number, takeWhile_parted isDigit_of_isBlank hwhole hrest,
      dropWhile_parted isDigit_of_isBlank hwhole hrest]
    split
    · exact absurd rfl (hrest.head?_ne (d := '.') (by decide))
    · rfl
  rw [number]
  split
  · next d more hmore =>
    split
    · next hd =>
      have hfraction : ∀ e ∈ more.takeWhile Numeral.isDigit, Numeral.isDigit e = true :=
        fun _ he => List.mem_takeWhile_imp he
      refine ⟨c, cs.takeWhile Numeral.isDigit ++ '.' :: d :: more.takeWhile Numeral.isDigit, rfl,
        fun rest hrest => ?_⟩
      rw [(first_of_number hc _).2, number, List.append_assoc, List.cons_append, List.cons_append,
        List.takeWhile_append_of_pos hwhole, List.dropWhile_append_of_pos hwhole,
        List.takeWhile_cons_of_neg hpoint, List.dropWhile_cons_of_neg hpoint, List.append_nil]
      simp only [hd, if_true, takeWhile_parted isDigit_of_isBlank hfraction hrest,
        dropWhile_parted isDigit_of_isBlank hfraction hrest, List.cons_append]
    · exact halone
  · exact halone

theorem standsAlone_string {u : List Char} (hu : ∀ c ∈ u, c ≠ '"') :
    StandsAlone ⟨.token .string, '"' :: (u ++ ['"'])⟩ := by
  refine ⟨'"', u ++ ['"'], rfl, fun rest _ => ?_⟩
  have hopen : ∀ c ∈ u, decide (c ≠ '"') = true := by simpa using hu
  rw [(first_of_string rfl _).2, quotation, List.append_assoc, List.dropWhile_append_of_pos hopen,
    List.takeWhile_append_of_pos hopen]
  simp

theorem standsAlone_symbol {c : Char} (hc : Lead.of c = .symbol) {symbol : Symbol}
    (h : Symbol.ofChar? c = some symbol) : StandsAlone ⟨.token (.symbol symbol), [c]⟩ := by
  refine ⟨c, [], rfl, fun rest hrest => ?_⟩
  rcases first_of_symbol hc rest with
    ⟨-, hhead, -⟩ | ⟨_, _, -, hequal, -⟩ | ⟨-, -, other, ho, hfirst⟩
  · exact absurd hhead (hrest.head?_ne (by decide))
  · exact absurd (congrArg List.head? hequal) (hrest.head?_ne (by decide))
  · obtain rfl : symbol = other := Option.some.inj (h.symm.trans ho)
    exact hfirst

theorem standsAlone_withEqual {c : Char} (hc : Lead.of c = .symbol) {symbol : Symbol}
    (h : Symbol.withEqual? c = some symbol) : StandsAlone ⟨.token (.symbol symbol), [c, '=']⟩ := by
  refine ⟨c, ['='], rfl, fun rest hrest => ?_⟩
  rcases first_of_symbol hc (['='] ++ rest) with
    ⟨-, hhead, -⟩ | ⟨other, after, ho, hafter, hfirst⟩ | ⟨-, hequal, -⟩
  · exact absurd hhead (by simp)
  · obtain rfl : symbol = other := Option.some.inj (h.symm.trans ho)
    obtain rfl : rest = after := (List.cons.inj hafter).2
    exact hfirst
  · exact absurd rfl (hequal (by rw [h]; rfl))

/-- **Every token stands alone.** -/
theorem standsAlone_first {c : Char} {cs : List Char} {kind : Token.Kind}
    (h : (first c cs).1.cls = .token kind) : (first c cs).1.StandsAlone := by
  cases hc : Lead.of c with
  | blank =>
    rw [(first_of_blank hc cs).2] at h
    exact nomatch h
  | word =>
    rw [(first_of_word hc cs).2]
    exact standsAlone_word hc cs
  | number =>
    rw [(first_of_number hc cs).2]
    exact standsAlone_number hc cs
  | string =>
    obtain ⟨rfl, hfirst⟩ := first_of_string hc cs
    rw [hfirst] at h ⊢
    obtain ⟨u, rest, -, hu, hquotation⟩ | ⟨-, hquotation⟩ := quotation_cases '"' cs
    · rw [hquotation]
      exact standsAlone_string hu
    · rw [hquotation] at h
      exact nomatch h
  | symbol =>
    rcases first_of_symbol hc cs with
      ⟨-, -, hfirst⟩ | ⟨symbol, rest, hsymbol, -, hfirst⟩ | ⟨-, -, symbol, hsymbol, hfirst⟩
    · rw [hfirst] at h
      exact nomatch h
    · rw [hfirst]
      exact standsAlone_withEqual hc hsymbol
    · rw [hfirst]
      exact standsAlone_symbol hc hsymbol
  | nothing =>
    rw [first_of_nothing hc cs] at h
    exact nomatch h

/-! ## Pieces with spaces between them -/

variable {α : Type} {select : Placed → Option α}

theorem marks_standsAlone {p : Piece} (h : p.StandsAlone) {rest : List Char} (hrest : Parted rest)
    (start line : Nat) :
    marks select start line (p.text ++ rest) =
      (select ⟨p, start, line⟩).toList ++
        marks select (start + Text.byteLength p.text) (line + Text.lineFeeds p.text) rest := by
  obtain ⟨c, cs, htext, hfirst⟩ := h
  rw [htext, List.cons_append, marks_cons, hfirst rest hrest, htext]

/-- **Pieces with spaces between them** are read off one by one, wherever they come to lie. -/
theorem marks_intercalate (hselect : SkipsBlanks select) (ps : List Piece)
    (h : ∀ p ∈ ps, p.StandsAlone) (start line : Nat) :
    ∃ placed : List Placed, placed.map Placed.piece = ps ∧
      marks select start line ([' '].intercalate (ps.map text)) = placed.filterMap select := by
  induction ps generalizing start line with
  | nil => exact ⟨[], rfl, marks_nil start line⟩
  | cons p ps ih =>
    obtain ⟨hp, hps⟩ := List.forall_mem_cons.mp h
    have hblank : isBlank ' ' = true := by decide
    cases ps with
    | nil =>
      refine ⟨[⟨p, start, line⟩], rfl, ?_⟩
      have hparted : Parted [] := nofun
      rw [List.map_cons, List.map_nil, List.intercalate_singleton, ← List.append_nil p.text,
        marks_standsAlone hp hparted, marks_nil, List.append_nil, List.filterMap_cons]
      cases select ⟨p, start, line⟩ <;> rfl
    | cons q ps =>
      let next := start + Text.byteLength p.text
      let nextLine := line + Text.lineFeeds p.text
      obtain ⟨placed, hplaced, hmarks⟩ :=
        ih hps (next + ' '.utf8Size) (nextLine + Text.lineFeeds [' '])
      refine ⟨⟨p, start, line⟩ :: placed, by rw [List.map_cons, hplaced], ?_⟩
      have hparted : Parted (' ' :: [' '].intercalate ((q :: ps).map text)) := by
        rintro d ⟨⟩
        exact hblank
      rw [List.map_cons, List.map_cons, List.intercalate_cons_cons, ← List.map_cons,
        List.append_assoc, List.singleton_append, marks_standsAlone hp hparted,
        marks_blank hselect hblank, hmarks, List.filterMap_cons]
      cases select ⟨p, start, line⟩ <;> rfl

end Piece

/-! ## Tokens -/

namespace Token

/-- What a token is, wherever it stands: its kind, its lexeme and its literal. -/
def content (token : Token) : Kind × String × Option Literal :=
  (token.kind, token.lexeme, token.literal)

/-- The piece of source that a token is. -/
def piece (token : Token) : Piece := ⟨.token token.kind, token.lexeme.toList⟩

theorem standsAlone_piece {source : String} {token : Token} (h : token ∈ words source) :
    token.piece.StandsAlone := by
  obtain ⟨placed, hplaced, htoken⟩ := List.mem_filterMap.mp h
  obtain ⟨-, c, rest, -, hpiece, -⟩ := Piece.exists_of_mem_ofSource hplaced
  obtain ⟨hcls, hlexeme, -⟩ := Piece.Placed.of_token? htoken
  have hsame : token.piece = (Piece.first c rest).1 := by
    rw [← hpiece, piece, hlexeme, Piece.Placed.text, String.toList_ofList, ← hcls]
  have hkind : (Piece.first c rest).1.cls = .token token.kind := by rw [← hpiece, hcls]
  rw [hsame]
  exact Piece.standsAlone_first hkind

/-- The token that is read where the piece of a token stands. -/
theorem exists_of_piece {source : String} {token : Token} (h : token ∈ words source)
    {placed : Piece.Placed} (hpiece : placed.piece = token.piece) :
    ∃ other, placed.token? = some other ∧ other.content = token.content := by
  refine ⟨_, by rw [Piece.Placed.token?, hpiece, piece], ?_⟩
  simp only [content, Piece.Placed.text, hpiece, piece, String.ofList_toList,
    literal_of_mem_words h]

theorem map_content_filterMap {placed : List Piece.Placed} {tokens : List Token}
    (hpieces : placed.map Piece.Placed.piece = tokens.map piece)
    (h : ∀ token ∈ tokens, ∃ source, token ∈ words source) :
    (placed.filterMap Piece.Placed.token?).map content = tokens.map content := by
  induction tokens generalizing placed with
  | nil =>
    obtain rfl := List.map_eq_nil_iff.mp hpieces
    rfl
  | cons token tokens ih =>
    obtain ⟨first, others, rfl, hfirst, hothers⟩ := List.map_eq_cons_iff.mp hpieces
    obtain ⟨⟨source, htoken⟩, htokens⟩ := List.forall_mem_cons.mp h
    obtain ⟨other, hother, hcontent⟩ := exists_of_piece htoken hfirst
    rw [List.filterMap_cons_some hother, List.map_cons, List.map_cons, hcontent,
      ih hothers htokens]

theorem fault?_of_piece {placed : Piece.Placed} {token : Token}
    (hpiece : placed.piece = token.piece) : placed.fault? = none := by
  rw [Piece.Placed.fault?, hpiece, piece]

end Token

theorem mem_words_of_mem_tokens {source : String} {token : Token}
    (h : token ∈ (scan source).tokens) (hkind : token.kind ≠ .endOfInput) :
    token ∈ words source := by
  rcases List.mem_append.mp h with h | h
  · exact h
  · rw [List.mem_singleton.mp h] at hkind
    exact absurd rfl hkind

/-- **Tokens can be read back.** The lexemes of tokens that were read from any sources, ends of
input apart, make up a source if a space is put between each two of them. The scanner has nothing
against it and reads the same kinds, lexemes and literals in the same order, and then the end of
input. -/
theorem scan_intercalate (tokens : List Token)
    (h : ∀ token ∈ tokens, token.kind ≠ .endOfInput ∧ ∃ source, token ∈ (scan source).tokens) :
    let source := " ".intercalate (tokens.map Token.lexeme)
    (scan source).faults = [] ∧
      (scan source).tokens.map Token.content =
        tokens.map Token.content ++ [(.endOfInput, "", none)] := by
  intro source
  have hwords : ∀ token ∈ tokens, ∃ source, token ∈ words source := by
    intro token htoken
    obtain ⟨hkind, source, hmem⟩ := h token htoken
    exact ⟨source, mem_words_of_mem_tokens hmem hkind⟩
  have halone : ∀ p ∈ tokens.map Token.piece, p.StandsAlone := by
    refine List.forall_mem_map.mpr fun token htoken => ?_
    obtain ⟨source, hmem⟩ := hwords token htoken
    exact Token.standsAlone_piece hmem
  have htext : source.toList = [' '].intercalate ((tokens.map Token.piece).map Piece.text) := by
    rw [String.toList_intercalate, List.map_map, List.map_map]
    rfl
  constructor
  · obtain ⟨placed, hplaced, hmarks⟩ :=
      Piece.marks_intercalate Piece.skipsBlanks_fault? _ halone 0 1
    rw [scan_faults, htext, hmarks, List.filterMap_eq_nil_iff]
    intro p hp
    obtain ⟨token, -, htoken⟩ := List.mem_map.mp (hplaced ▸ List.mem_map_of_mem hp)
    exact Token.fault?_of_piece htoken.symm
  · obtain ⟨placed, hplaced, hmarks⟩ :=
      Piece.marks_intercalate Piece.skipsBlanks_token? _ halone 0 1
    show (words source ++ [lastToken source]).map Token.content = _
    rw [words, htext, hmarks, List.map_append, Token.map_content_filterMap hplaced hwords]
    rfl

/-- Without the spaces, these tokens would be a comment. -/
theorem scan_intercalate_slashes :
    let slash : Token := ⟨.symbol .slash, "/", none, 1, ⟨0, 1⟩⟩
    let equal : Token := ⟨.symbol .equal, "=", none, 1, ⟨1, 2⟩⟩
    let text : Token := ⟨.string, "\"//\n\"", some (.text "//\n"), 1, ⟨2, 7⟩⟩
    let tokens := [slash, slash, equal, equal, text, text]
    (∀ token ∈ tokens, token.kind ≠ .endOfInput ∧ ∃ source, token ∈ (scan source).tokens) ∧
      " ".intercalate (tokens.map Token.lexeme) = "/ / = = \"//\n\" \"//\n\"" ∧
      (scan "/ / = = \"//\n\" \"//\n\"").faults = [] ∧
      (scan "/ / = = \"//\n\" \"//\n\"").tokens.map Token.content =
        tokens.map Token.content ++ [(.endOfInput, "", none)] := by
  intro slash equal text tokens
  have hscan : (scan "/=\"//\n\"").tokens = [slash, equal, text, .endOfInput 7 2] := by
    with_unfolding_all rfl
  have h : ∀ token ∈ tokens, token.kind ≠ .endOfInput ∧ ∃ source, token ∈ (scan source).tokens := by
    intro token htoken
    refine ⟨?_, "/=\"//\n\"", ?_⟩
    · simp only [tokens, List.mem_cons, List.not_mem_nil, or_false] at htoken
      rcases htoken with rfl | rfl | rfl | rfl | rfl | rfl <;> decide
    · rw [hscan]
      simp only [tokens, List.mem_cons, List.not_mem_nil, or_false] at htoken ⊢
      tauto
  have hjoined : " ".intercalate (tokens.map Token.lexeme) = "/ / = = \"//\n\" \"//\n\"" := rfl
  exact ⟨h, hjoined, hjoined ▸ scan_intercalate tokens h⟩

end BlockScript
