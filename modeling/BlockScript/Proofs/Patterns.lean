import Mathlib.Computability.Language
import Mathlib.Data.List.TakeWhile
import BlockScript.Token.Piece

/-!
# The patterns of the scanner

What a token, a blank or a comment looks like can be said without the scanner, by a pattern for each
class of pieces. This file gives the patterns as regular languages and shows that the first piece of
a text is the longest match: its text is in the language of its class, and no text in any of the
languages is a longer beginning of the text. Where no language has a beginning of the text at all,
the piece is a run of unexpected characters or a string literal that is never closed.

Every text of a pattern is recognised by its first character, and the patterns fall apart into five
groups with different ones: blanks, words, numbers, strings, and symbols together with comments.
`Lead` names the groups, so that only the patterns of one group need to be compared.

## Main definitions

* `Token.Kind.pattern`, `Piece.Class.pattern` — the texts of each class
* `Piece.Lead` — what a character can be the beginning of

## Main results

* `Piece.mem_lead_pattern` — the first character of a text tells its group
* `Piece.first_mem_pattern` — the first piece of a text is in the language of its class
* `Piece.length_le_first` — no beginning of the text in any of the languages is longer
-/

namespace BlockScript

open scoped Computability

/-! ## Languages -/

/-- The texts of a single character that satisfies `p`. -/
def oneOf (p : Char → Bool) : Language Char := {w | ∃ c, p c = true ∧ w = [c]}

theorem mem_kstar_oneOf {p : Char → Bool} {w : List Char} :
    w ∈ (oneOf p)∗ ↔ ∀ c ∈ w, p c = true := by
  rw [Language.mem_kstar]
  constructor
  · rintro ⟨parts, rfl, hparts⟩ c hc
    obtain ⟨part, hpart, hc⟩ := List.mem_flatten.mp hc
    obtain ⟨d, hd, rfl⟩ := hparts part hpart
    rw [List.mem_singleton] at hc
    rwa [hc]
  · intro h
    refine ⟨w.map ([·]), by simp [← List.flatMap_def], ?_⟩
    intro part hpart
    obtain ⟨c, hc, rfl⟩ := List.mem_map.mp hpart
    exact ⟨c, h c hc, rfl⟩

theorem mem_oneOf_mul {p : Char → Bool} {l : Language Char} {w : List Char} :
    w ∈ oneOf p * l ↔ ∃ c u, w = c :: u ∧ p c = true ∧ u ∈ l := by
  rw [Language.mem_mul]
  constructor
  · rintro ⟨_, ⟨c, hc, rfl⟩, u, hu, rfl⟩
    exact ⟨c, u, rfl, hc, hu⟩
  · rintro ⟨c, u, rfl, hc, hu⟩
    exact ⟨[c], ⟨c, hc, rfl⟩, u, hu, rfl⟩

theorem mem_singleton_mul {v w : List Char} {l : Language Char} :
    w ∈ ({v} : Language Char) * l ↔ ∃ u ∈ l, w = v ++ u := by
  rw [Language.mem_mul]
  constructor
  · rintro ⟨_, rfl, u, hu, rfl⟩
    exact ⟨u, hu, rfl⟩
  · rintro ⟨u, hu, rfl⟩
    exact ⟨v, rfl, u, hu, rfl⟩

/-- One or more digits. -/
def digits : Language Char := oneOf Numeral.isDigit * (oneOf Numeral.isDigit)∗

theorem mem_digits {w : List Char} :
    w ∈ digits ↔
      ∃ c u, w = c :: u ∧ Numeral.isDigit c = true ∧ ∀ d ∈ u, Numeral.isDigit d = true := by
  simp only [digits, mem_oneOf_mul, mem_kstar_oneOf]

/-! ## Patterns -/

/-- The texts that are tokens of a kind. Those of keywords are words, too. -/
def Token.Kind.pattern : Token.Kind → Language Char
  | .symbol s => {s.spelling.toList}
  | .keyword k => {k.spelling.toList}
  | .identifier => oneOf Piece.isWordStart * (oneOf Piece.isWordPart)∗
  | .string => {['"']} * ((oneOf (· ≠ '"'))∗ * {['"']})
  | .number => digits * (1 + {['.']} * digits)
  | .error | .endOfInput => 0

namespace Piece

/-- The texts that are pieces of a class. Only tokens, blanks and comments have a pattern. -/
def Class.pattern : Class → Language Char
  | .token kind => kind.pattern
  | .blank => oneOf isBlank * (oneOf isBlank)∗
  | .comment => {['/', '/']} * (oneOf (· ≠ '\n'))∗
  | .unexpected | .openString => 0

theorem mem_pattern_identifier {w : List Char} :
    w ∈ Token.Kind.pattern .identifier ↔
      ∃ c u, w = c :: u ∧ isWordStart c = true ∧ ∀ d ∈ u, isWordPart d = true := by
  simp only [Token.Kind.pattern, mem_oneOf_mul, mem_kstar_oneOf]

theorem mem_pattern_string {w : List Char} :
    w ∈ Token.Kind.pattern .string ↔ ∃ u, w = '"' :: (u ++ ['"']) ∧ ∀ c ∈ u, c ≠ '"' := by
  rw [Token.Kind.pattern, mem_singleton_mul]
  simp only [Language.mem_mul, mem_kstar_oneOf, decide_eq_true_eq]
  constructor
  · rintro ⟨_, ⟨u, hu, _, rfl, rfl⟩, rfl⟩
    exact ⟨u, rfl, hu⟩
  · rintro ⟨u, rfl, hu⟩
    exact ⟨u ++ ['"'], ⟨u, hu, ['"'], rfl, rfl⟩, rfl⟩

theorem mem_pattern_number {w : List Char} :
    w ∈ Token.Kind.pattern .number ↔
      ∃ u ∈ digits, w = u ∨ ∃ v ∈ digits, w = u ++ '.' :: v := by
  simp only [Token.Kind.pattern, Language.mem_mul, Language.mem_add, Language.mem_one]
  constructor
  · rintro ⟨u, hu, _, rfl | ⟨_, rfl, v, hv, rfl⟩, rfl⟩
    · exact ⟨u, hu, .inl (List.append_nil u)⟩
    · exact ⟨u, hu, .inr ⟨v, hv, rfl⟩⟩
  · rintro ⟨u, hu, rfl | ⟨v, hv, rfl⟩⟩
    · exact ⟨w, hu, [], .inl rfl, List.append_nil w⟩
    · exact ⟨u, hu, '.' :: v, .inr ⟨['.'], rfl, v, hv, rfl⟩, rfl⟩

theorem mem_pattern_blank {w : List Char} :
    w ∈ Class.pattern .blank ↔
      ∃ c u, w = c :: u ∧ isBlank c = true ∧ ∀ d ∈ u, isBlank d = true := by
  simp only [Class.pattern, mem_oneOf_mul, mem_kstar_oneOf]

theorem mem_pattern_comment {w : List Char} :
    w ∈ Class.pattern .comment ↔ ∃ u, w = '/' :: '/' :: u ∧ ∀ c ∈ u, c ≠ '\n' := by
  simp only [Class.pattern, mem_singleton_mul, mem_kstar_oneOf, decide_eq_true_eq]
  constructor
  · rintro ⟨u, hu, rfl⟩
    exact ⟨u, rfl, hu⟩
  · rintro ⟨u, rfl, hu⟩
    exact ⟨u, hu, rfl⟩

theorem keyword_mem_identifier (keyword : Keyword) :
    keyword.spelling.toList ∈ Token.Kind.pattern .identifier := by
  have hstart : keyword.spelling.toList.head?.any isWordStart = true := by cases keyword <;> rfl
  have hparts : keyword.spelling.toList.tail.all isWordPart = true := by cases keyword <;> rfl
  cases htext : keyword.spelling.toList with
  | nil => simp [htext] at hstart
  | cons c cs =>
    rw [htext] at hstart hparts
    exact mem_pattern_identifier.mpr ⟨c, cs, rfl, hstart, List.all_eq_true.mp hparts⟩

/-! ## First characters -/

/-- What a character can be the beginning of. -/
inductive Lead where
  | blank
  | word
  | number
  | string
  /-- a symbol or a comment -/
  | symbol
  /-- nothing -/
  | nothing
deriving DecidableEq

/-- What a character is the beginning of. -/
def Lead.of (c : Char) : Lead :=
  if isBlank c then .blank
  else if isWordStart c then .word
  else if Numeral.isDigit c then .number
  else if c = '"' then .string
  else if (Symbol.ofChar? c).isSome then .symbol
  else .nothing

/-- The texts in the patterns of a group. Words hold the keywords, too. -/
def Lead.pattern : Lead → Language Char
  | .blank => Class.pattern .blank
  | .word => Token.Kind.pattern .identifier
  | .number => Token.Kind.pattern .number
  | .string => Token.Kind.pattern .string
  | .symbol => {w | w ∈ Class.pattern .comment ∨ ∃ symbol : Symbol, w = symbol.spelling.toList}
  | .nothing => 0

theorem isBlank_iff {c : Char} :
    isBlank c = true ↔ c = ' ' ∨ c = '\r' ∨ c = '\n' ∨ c = '\t' ∨ c = '\x0c' := by
  simp [isBlank, or_assoc]

theorem lead_of_isBlank {c : Char} (h : isBlank c = true) : Lead.of c = .blank := if_pos h

theorem lead_of_isWordStart {c : Char} (h : isWordStart c = true) : Lead.of c = .word := by
  have hblank : isBlank c = false := by
    by_contra hblank
    rw [Bool.not_eq_false, isBlank_iff] at hblank
    rcases hblank with rfl | rfl | rfl | rfl | rfl <;> exact absurd h (by decide)
  rw [Lead.of, hblank, h]
  rfl

theorem lead_of_isDigit {c : Char} (h : Numeral.isDigit c = true) : Lead.of c = .number := by
  have hblank : isBlank c = false := by
    by_contra hblank
    rw [Bool.not_eq_false, isBlank_iff] at hblank
    rcases hblank with rfl | rfl | rfl | rfl | rfl <;> exact absurd h (by decide)
  have hword : isWordStart c = false := by
    by_contra hword
    rw [Bool.not_eq_false, isWordStart] at hword
    simp only [Numeral.isDigit, Bool.or_eq_true, Bool.and_eq_true, decide_eq_true_eq,
      Char.le_def, UInt32.le_iff_toNat_le] at h hword
    have hletters : 'A'.val.toNat = 65 ∧ 'Z'.val.toNat = 90 ∧ 'a'.val.toNat = 97 ∧
        'z'.val.toNat = 122 ∧ '9'.val.toNat = 57 := by decide
    rcases hword with (hword | hword) | rfl
    · omega
    · omega
    · exact absurd h (by decide)
  rw [Lead.of, hblank, hword, h]
  rfl

theorem lead_of_ofChar? {c : Char} {symbol : Symbol} (h : Symbol.ofChar? c = some symbol) :
    Lead.of c = .symbol := by
  unfold Symbol.ofChar? at h
  split at h
  all_goals first | rfl | exact nomatch h

theorem withEqual?_eq_none {c : Char} (h : Symbol.ofChar? c = none) :
    Symbol.withEqual? c = none := by
  unfold Symbol.withEqual?
  split
  all_goals first | rfl | exact absurd h (by decide)

theorem toList_of_ofChar? {c : Char} {symbol : Symbol} (h : Symbol.ofChar? c = some symbol) :
    symbol.spelling.toList = [c] := by
  unfold Symbol.ofChar? at h
  split at h
  all_goals first | (cases h; decide) | exact nomatch h

theorem toList_of_withEqual? {c : Char} {symbol : Symbol} (h : Symbol.withEqual? c = some symbol) :
    symbol.spelling.toList = [c, '='] := by
  unfold Symbol.withEqual? at h
  split at h
  all_goals first | (cases h; decide) | exact nomatch h

/-- A symbol is one character, or one character with an equals sign after it. -/
theorem spelling_cases (symbol : Symbol) :
    ∃ c, Symbol.ofChar? c = some symbol ∨ Symbol.withEqual? c = some symbol :=
  ⟨symbol.spelling.toList.headD ' ', by cases symbol <;> decide⟩

theorem lead_of_withEqual? {c : Char} {symbol : Symbol} (h : Symbol.withEqual? c = some symbol) :
    Lead.of c = .symbol := by
  cases hsymbol : Symbol.ofChar? c with
  | some other => exact lead_of_ofChar? hsymbol
  | none => exact absurd (h.symm.trans (withEqual?_eq_none hsymbol)) nofun

/-- The first character of a text in one of the patterns tells its group. -/
theorem mem_lead_pattern {cls : Class} {w : List Char} (h : w ∈ cls.pattern) :
    ∃ c u, w = c :: u ∧ c :: u ∈ (Lead.of c).pattern := by
  cases cls with
  | token kind =>
    cases kind with
    | symbol symbol =>
      obtain rfl : w = symbol.spelling.toList := h
      obtain ⟨c, hc | hc⟩ := spelling_cases symbol
      · have heq := toList_of_ofChar? hc
        exact ⟨c, [], heq, by rw [lead_of_ofChar? hc]; exact .inr ⟨symbol, heq.symm⟩⟩
      · have heq := toList_of_withEqual? hc
        exact ⟨c, ['='], heq, by rw [lead_of_withEqual? hc]; exact .inr ⟨symbol, heq.symm⟩⟩
    | keyword keyword =>
      obtain rfl : w = keyword.spelling.toList := h
      have hword := keyword_mem_identifier keyword
      obtain ⟨c, u, heq, hc, -⟩ := mem_pattern_identifier.mp hword
      rw [heq] at hword ⊢
      exact ⟨c, u, rfl, by rwa [lead_of_isWordStart hc]⟩
    | identifier =>
      obtain ⟨c, u, rfl, hc, -⟩ := mem_pattern_identifier.mp h
      exact ⟨c, u, rfl, by rwa [lead_of_isWordStart hc]⟩
    | string =>
      obtain ⟨u, rfl, -⟩ := mem_pattern_string.mp h
      exact ⟨_, _, rfl, h⟩
    | number =>
      obtain ⟨u, hu, hw⟩ := mem_pattern_number.mp h
      obtain ⟨c, u, rfl, hc, -⟩ := mem_digits.mp hu
      rcases hw with rfl | ⟨v, -, rfl⟩
      · exact ⟨c, u, rfl, by rwa [lead_of_isDigit hc]⟩
      · exact ⟨c, u ++ '.' :: v, rfl, by rwa [lead_of_isDigit hc]⟩
    | error => exact absurd h (Language.notMem_zero w)
    | endOfInput => exact absurd h (Language.notMem_zero w)
  | blank =>
    obtain ⟨c, u, rfl, hc, -⟩ := mem_pattern_blank.mp h
    exact ⟨c, u, rfl, by rwa [lead_of_isBlank hc]⟩
  | comment =>
    obtain ⟨u, rfl, -⟩ := mem_pattern_comment.mp h
    exact ⟨_, _, rfl, .inl h⟩
  | unexpected => exact absurd h (Language.notMem_zero w)
  | openString => exact absurd h (Language.notMem_zero w)

/-! ## The first piece by its first character -/

theorem isUnexpected_iff {c : Char} : isUnexpected c = true ↔ Lead.of c = .nothing := by
  unfold isUnexpected Lead.of
  cases isBlank c <;> cases isWordStart c <;> cases Numeral.isDigit c <;>
    by_cases hquote : c = '"' <;> cases Symbol.ofChar? c <;> simp [hquote]

/-- A text begins with the piece that its first character leads to. -/
theorem first_eq (c : Char) (cs : List Char) :
    first c cs =
      match Lead.of c with
      | .blank => run .blank isBlank c cs
      | .word => word c cs
      | .number => number c cs
      | .string => quotation c cs
      | .symbol =>
        if c = '/' && cs.head? = some '/' then run .comment (· ≠ '\n') c cs
        else symbolOrUnexpected c cs
      | .nothing => run .unexpected isUnexpected c cs := by
  by_cases hslash : c = '/'
  · subst hslash
    rfl
  · simp only [first, hslash, decide_false, Bool.false_and, Bool.false_eq_true, if_false]
    by_cases hblank : isBlank c = true
    · simp [Lead.of, hblank]
    by_cases hword : isWordStart c = true
    · simp [Lead.of, hblank, hword]
    by_cases hdigit : Numeral.isDigit c = true
    · simp [Lead.of, hblank, hword, hdigit]
    by_cases hquote : c = '"'
    · subst hquote
      rfl
    cases hsymbol : Symbol.ofChar? c with
    | some symbol => simp [Lead.of, hblank, hword, hdigit, hquote, hsymbol]
    | none =>
      simp [Lead.of, hblank, hword, hdigit, hquote, hsymbol, symbolOrUnexpected,
        withEqual?_eq_none hsymbol]

theorem first_of_blank {c : Char} (h : Lead.of c = .blank) (cs : List Char) :
    isBlank c = true ∧ first c cs = run .blank isBlank c cs := by
  refine ⟨?_, by rw [first_eq, h]⟩
  unfold Lead.of at h
  grind

theorem first_of_word {c : Char} (h : Lead.of c = .word) (cs : List Char) :
    isWordStart c = true ∧ first c cs = word c cs := by
  refine ⟨?_, by rw [first_eq, h]⟩
  unfold Lead.of at h
  grind

theorem first_of_number {c : Char} (h : Lead.of c = .number) (cs : List Char) :
    Numeral.isDigit c = true ∧ first c cs = number c cs := by
  refine ⟨?_, by rw [first_eq, h]⟩
  unfold Lead.of at h
  grind

theorem first_of_string {c : Char} (h : Lead.of c = .string) (cs : List Char) :
    c = '"' ∧ first c cs = quotation c cs := by
  refine ⟨?_, by rw [first_eq, h]⟩
  unfold Lead.of at h
  grind

theorem first_of_nothing {c : Char} (h : Lead.of c = .nothing) (cs : List Char) :
    first c cs = run .unexpected isUnexpected c cs := by
  rw [first_eq, h]

/-- A symbol with an equals sign after it, a symbol alone, or a comment. -/
theorem first_of_symbol {c : Char} (h : Lead.of c = .symbol) (cs : List Char) :
    (c = '/' ∧ cs.head? = some '/' ∧ first c cs = run .comment (· ≠ '\n') c cs) ∨
      (∃ symbol rest, Symbol.withEqual? c = some symbol ∧ cs = '=' :: rest ∧
        first c cs = (⟨.token (.symbol symbol), [c, '=']⟩, rest)) ∨
      ((c = '/' → cs.head? ≠ some '/') ∧ ((Symbol.withEqual? c).isSome → cs.head? ≠ some '=') ∧
        ∃ symbol, Symbol.ofChar? c = some symbol ∧
          first c cs = (⟨.token (.symbol symbol), [c]⟩, cs)) := by
  obtain ⟨symbol, hsymbol⟩ : ∃ symbol, Symbol.ofChar? c = some symbol := by
    refine Option.isSome_iff_exists.mp ?_
    unfold Lead.of at h
    grind
  rw [first_eq, h]
  by_cases hcomment : c = '/' ∧ cs.head? = some '/'
  · exact .inl ⟨hcomment.1, hcomment.2, by simp [hcomment]⟩
  have hskip : (decide (c = '/') && decide (cs.head? = some '/')) = false := by simpa using hcomment
  have hnot : c = '/' → cs.head? ≠ some '/' := fun hc hhead => hcomment ⟨hc, hhead⟩
  simp only [hskip, Bool.false_eq_true, if_false, symbolOrUnexpected, hsymbol]
  right
  split
  · rename_i symbol rest hequal
    exact .inl ⟨symbol, rest, hequal, rfl, rfl⟩
  · rename_i hnone
    refine .inr ⟨hnot, fun hequal hhead => ?_, symbol, rfl, rfl⟩
    obtain ⟨other, hother⟩ := Option.isSome_iff_exists.mp hequal
    obtain ⟨rest, rfl⟩ := List.head?_eq_some_iff.mp hhead
    exact hnone other rest hother rfl

/-! ## The first piece is in its pattern -/

theorem word_mem_pattern {c : Char} (hc : isWordStart c = true) (cs : List Char) :
    (word c cs).1.text ∈ (word c cs).1.cls.pattern := by
  show c :: cs.takeWhile isWordPart ∈ (wordKind (c :: cs.takeWhile isWordPart)).pattern
  rw [wordKind]
  split
  · rename_i keyword hkeyword
    have hspelling : keyword.spelling = String.ofList (c :: cs.takeWhile isWordPart) := by
      simpa using List.find?_some hkeyword
    show _ = keyword.spelling.toList
    rw [hspelling, String.toList_ofList]
  · exact mem_pattern_identifier.mpr ⟨c, _, rfl, hc, fun _ hd => List.mem_takeWhile_imp hd⟩

theorem number_cls (c : Char) (cs : List Char) : (number c cs).1.cls = .token .number := by
  unfold number
  split
  · split <;> rfl
  · rfl

theorem number_mem_pattern {c : Char} (hc : Numeral.isDigit c = true) (cs : List Char) :
    (number c cs).1.text ∈ (number c cs).1.cls.pattern := by
  have hdigits {c : Char} (hc : Numeral.isDigit c = true) (cs : List Char) :
      c :: cs.takeWhile Numeral.isDigit ∈ digits :=
    mem_digits.mpr ⟨c, _, rfl, hc, fun _ hd => List.mem_takeWhile_imp hd⟩
  rw [number_cls]
  refine mem_pattern_number.mpr ⟨_, hdigits hc cs, ?_⟩
  unfold number
  split
  · rename_i d rest hrest
    split
    · rename_i hd
      exact .inr ⟨_, hdigits hd rest, rfl⟩
    · exact .inl rfl
  · exact .inl rfl

/-- A quotation is a string up to the next quote, or there is no other quote in the text. -/
theorem quotation_cases (q : Char) (cs : List Char) :
    (∃ u rest, cs = u ++ '"' :: rest ∧ (∀ c ∈ u, c ≠ '"') ∧
        quotation q cs = (⟨.token .string, q :: (u ++ ['"'])⟩, rest)) ∨
      ((∀ c ∈ cs, c ≠ '"') ∧ quotation q cs = (⟨.openString, q :: cs⟩, [])) := by
  have hsplit := List.takeWhile_append_dropWhile (p := (· ≠ '"')) (l := cs)
  have hall : ∀ c ∈ cs.takeWhile (· ≠ '"'), c ≠ '"' := fun c hc => by
    simpa using List.mem_takeWhile_imp hc
  unfold quotation
  cases hdrop : cs.dropWhile (· ≠ '"') with
  | nil =>
    rw [hdrop, List.append_nil] at hsplit
    rw [hsplit] at hall
    exact .inr ⟨hall, rfl⟩
  | cons close rest =>
    obtain rfl : close = '"' := by
      have hhead := List.head?_dropWhile_not (· ≠ '"') cs
      rw [hdrop] at hhead
      simpa using hhead
    rw [hdrop] at hsplit
    exact .inl ⟨_, rest, hsplit.symm, hall, rfl⟩

/-- **The first piece of a text is in the pattern of its class**, if its class has one. -/
theorem first_mem_pattern (c : Char) (cs : List Char)
    (hexpected : (first c cs).1.cls ≠ .unexpected) (hclosed : (first c cs).1.cls ≠ .openString) :
    (first c cs).1.text ∈ (first c cs).1.cls.pattern := by
  cases hlead : Lead.of c with
  | blank =>
    obtain ⟨hc, heq⟩ := first_of_blank hlead cs
    rw [heq]
    exact mem_pattern_blank.mpr ⟨c, _, rfl, hc, fun _ hd => List.mem_takeWhile_imp hd⟩
  | word =>
    obtain ⟨hc, heq⟩ := first_of_word hlead cs
    rw [heq]
    exact word_mem_pattern hc cs
  | number =>
    obtain ⟨hc, heq⟩ := first_of_number hlead cs
    rw [heq]
    exact number_mem_pattern hc cs
  | string =>
    obtain ⟨rfl, heq⟩ := first_of_string hlead cs
    rw [heq] at hclosed ⊢
    obtain ⟨u, rest, -, hu, hquotation⟩ | ⟨-, hquotation⟩ := quotation_cases '"' cs
    · rw [hquotation]
      exact mem_pattern_string.mpr ⟨u, rfl, hu⟩
    · rw [hquotation] at hclosed
      exact absurd rfl hclosed
  | symbol =>
    obtain ⟨rfl, hhead, heq⟩ | ⟨symbol, rest, hsymbol, rfl, heq⟩ | ⟨-, -, symbol, hsymbol, heq⟩ :=
      first_of_symbol hlead cs
    · obtain ⟨rest, rfl⟩ := List.head?_eq_some_iff.mp hhead
      rw [heq]
      exact mem_pattern_comment.mpr ⟨rest.takeWhile (· ≠ '\n'), rfl, fun d hd => by
        simpa using List.mem_takeWhile_imp hd⟩
    · rw [heq]
      exact (toList_of_withEqual? hsymbol).symm
    · rw [heq]
      exact (toList_of_ofChar? hsymbol).symm
  | nothing =>
    rw [first_of_nothing hlead] at hexpected
    exact absurd rfl hexpected

/-! ## The first piece is the longest -/

theorem length_le_takeWhile {p : Char → Bool} {u cs : List Char} (h : u <+: cs)
    (hu : ∀ c ∈ u, p c = true) : u.length ≤ (cs.takeWhile p).length := by
  obtain ⟨rest, rfl⟩ := h
  rw [List.takeWhile_append_of_pos hu, List.length_append]
  exact Nat.le_add_right _ _

theorem length_le_word {c : Char} {u cs : List Char} (h : u <+: cs)
    (hu : ∀ d ∈ u, isWordPart d = true) : (c :: u).length ≤ (word c cs).1.text.length :=
  Nat.succ_le_succ (length_le_takeWhile h hu)

theorem length_whole_le_number (c : Char) (cs : List Char) :
    (c :: cs.takeWhile Numeral.isDigit).length ≤ (number c cs).1.text.length := by
  unfold number
  split
  · split <;> simp
  · exact Nat.le_refl _

theorem length_le_number {c : Char} {u cs : List Char} (h : u <+: cs)
    (hu : c :: u ∈ Token.Kind.pattern .number) :
    (c :: u).length ≤ (number c cs).1.text.length := by
  obtain ⟨whole, hwhole, heq⟩ := mem_pattern_number.mp hu
  obtain ⟨d, whole, rfl, -, hdigits⟩ := mem_digits.mp hwhole
  rcases heq with heq | ⟨fraction, hfraction, heq⟩
  · obtain ⟨rfl, rfl⟩ := List.cons.inj heq
    have hwhole := Nat.succ_le_succ (length_le_takeWhile h hdigits)
    exact Nat.le_trans hwhole (length_whole_le_number ..)
  · obtain ⟨e, fraction, rfl, he, hmore⟩ := mem_digits.mp hfraction
    rw [List.cons_append] at heq
    obtain ⟨rfl, rfl⟩ := List.cons.inj heq
    obtain ⟨rest, rfl⟩ := h
    -- The digits before the point are all there are, so the scanner meets the point after them.
    have hpoint : Numeral.isDigit '.' = false := by decide
    have htake : (whole ++ '.' :: e :: (fraction ++ rest)).takeWhile Numeral.isDigit = whole := by
      simp [List.takeWhile_append_of_pos hdigits, hpoint]
    have hdrop : (whole ++ '.' :: e :: (fraction ++ rest)).dropWhile Numeral.isDigit =
        '.' :: e :: (fraction ++ rest) := by
      simp [List.dropWhile_append_of_pos hdigits, hpoint]
    simp only [List.append_assoc, List.cons_append, number, htake, hdrop, he, if_true,
      List.takeWhile_append_of_pos hmore]
    simp only [List.length_cons, List.length_append]
    omega

/-- A text with a closed string at its beginning does not begin with an open one. -/
theorem length_le_quotation {q : Char} {u cs : List Char} (h : u <+: cs)
    (hu : q :: u ∈ Token.Kind.pattern .string) :
    (q :: u).length ≤ (quotation q cs).1.text.length := by
  obtain ⟨inner, heq, hinner⟩ := mem_pattern_string.mp hu
  obtain ⟨rfl, rfl⟩ := List.cons.inj heq
  obtain ⟨u, rest, rfl, hquotes, heq⟩ | ⟨hnone, -⟩ := quotation_cases '"' cs
  · rw [heq]
    have hle : inner.length ≤ ((u ++ '"' :: rest).takeWhile (· ≠ '"')).length :=
      length_le_takeWhile ((List.prefix_append inner ['"']).trans h) fun c hc => by
        simpa using hinner c hc
    have htake : (u ++ '"' :: rest).takeWhile (· ≠ '"') = u := by
      rw [List.takeWhile_append_of_pos fun c hc => by simpa using hquotes c hc]
      simp
    rw [htake] at hle
    simpa using hle
  · exact absurd rfl (hnone '"' (h.subset (by simp)))

theorem length_spelling_le (symbol : Symbol) : symbol.spelling.toList.length ≤ 2 := by
  cases symbol <;> decide

theorem length_le_of_symbol {c : Char} {u cs : List Char} (hc : Lead.of c = .symbol) (h : u <+: cs)
    (hu : c :: u ∈ Lead.pattern .symbol) : (c :: u).length ≤ (first c cs).1.text.length := by
  obtain ⟨rfl, hhead, heq⟩ | ⟨symbol, rest, hsymbol, rfl, heq⟩ | ⟨hslash, hequal, symbol, -, heq⟩ :=
    first_of_symbol hc cs
  · obtain ⟨rest, rfl⟩ := List.head?_eq_some_iff.mp hhead
    rw [heq]
    rcases hu with hu | ⟨symbol, hu⟩
    · obtain ⟨inner, hinner, hline⟩ := mem_pattern_comment.mp hu
      obtain rfl := (List.cons.inj hinner).2
      refine Nat.succ_le_succ (length_le_takeWhile h fun d hd => ?_)
      rcases List.mem_cons.mp hd with rfl | hd
      · decide
      · simpa using hline d hd
    · rw [hu]
      exact Nat.le_trans (length_spelling_le symbol) (by simp [run])
  · rw [heq]
    rcases hu with hu | ⟨symbol, hu⟩
    · obtain ⟨inner, hinner, -⟩ := mem_pattern_comment.mp hu
      obtain ⟨rfl, -⟩ := List.cons.inj hinner
      have hnone : Symbol.withEqual? '/' = none := rfl
      exact absurd (hsymbol.symm.trans hnone) (Option.some_ne_none _)
    · rw [hu]
      exact length_spelling_le symbol
  · rw [heq]
    rcases hu with hu | ⟨other, hu⟩
    · obtain ⟨inner, hinner, -⟩ := mem_pattern_comment.mp hu
      obtain ⟨rfl, rfl⟩ := List.cons.inj hinner
      obtain ⟨rest, rfl⟩ := h
      exact absurd rfl (hslash rfl)
    · obtain ⟨d, hd | hd⟩ := spelling_cases other
      · rw [hu, toList_of_ofChar? hd]
        exact Nat.le_refl 1
      · rw [toList_of_withEqual? hd] at hu
        obtain ⟨rfl, rfl⟩ := List.cons.inj hu
        obtain ⟨rest, rfl⟩ := h
        exact absurd rfl (hequal (by rw [hd]; rfl))

/-- No text of a pattern begins with an unexpected character. -/
theorem not_mem_pattern {cls : Class} {c : Char} {u : List Char} (hc : Lead.of c = .nothing) :
    c :: u ∉ cls.pattern := by
  intro h
  obtain ⟨d, v, heq, hmem⟩ := mem_lead_pattern h
  obtain ⟨rfl, rfl⟩ := List.cons.inj heq
  rw [hc] at hmem
  exact Language.notMem_zero _ hmem

/-- **The longest match.** A beginning of a text that is in one of the patterns is not longer than
the first piece of the text. -/
theorem length_le_first {cls : Class} {w : List Char} (hw : w ∈ cls.pattern) {c : Char}
    {cs : List Char} (hbegins : w <+: c :: cs) : w.length ≤ (first c cs).1.text.length := by
  obtain ⟨d, u, rfl, hu⟩ := mem_lead_pattern hw
  obtain ⟨rfl, h⟩ := List.cons_prefix_cons.mp hbegins
  cases hlead : Lead.of d with
  | blank =>
    rw [hlead] at hu
    obtain ⟨-, heq⟩ := first_of_blank hlead cs
    obtain ⟨e, v, hv, -, hblanks⟩ := mem_pattern_blank.mp hu
    obtain ⟨rfl, rfl⟩ := List.cons.inj hv
    rw [heq]
    exact Nat.succ_le_succ (length_le_takeWhile h hblanks)
  | word =>
    rw [hlead] at hu
    obtain ⟨-, heq⟩ := first_of_word hlead cs
    obtain ⟨e, v, hv, -, hparts⟩ := mem_pattern_identifier.mp hu
    obtain ⟨rfl, rfl⟩ := List.cons.inj hv
    rw [heq]
    exact length_le_word h hparts
  | number =>
    rw [hlead] at hu
    obtain ⟨-, heq⟩ := first_of_number hlead cs
    rw [heq]
    exact length_le_number h hu
  | string =>
    rw [hlead] at hu
    obtain ⟨rfl, heq⟩ := first_of_string hlead cs
    rw [heq]
    exact length_le_quotation h hu
  | symbol =>
    rw [hlead] at hu
    exact length_le_of_symbol hlead h hu
  | nothing => exact absurd hw (not_mem_pattern hlead)

end Piece

end BlockScript
