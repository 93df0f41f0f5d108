import BlockScript.Parser
import BlockScript.Proofs.DanglingElse
import BlockScript.Proofs.Soundness

/-!
# The parser and the grammar

The parser accepts exactly the words of the grammar, and it gives each of them one tree: the one in
which every `else` belongs to the nearest `if`.

That the parser finds no fault in a word of the grammar is `Parser.reads_program`, for derivations
with nearest `if`s, and every word has such a derivation. That it finds no fault in nothing else is
`Parser.derives_program`. The tree needs no proof of its own: the parser reads a word as the tree of
any derivation with nearest `if`s, and it gives one answer, so there is no more than one such tree.

## Main results

* `parseTokens_of_program` — a program is read without a fault, as its tree
* `exists_program_of_faults` — what is read without a fault is a program
* `span_of_fault_of_unfinished` — an unfinished program has faults at its end only
* `parseTokens_iff_program` — the parser accepts the grammar, and gives the grammar's tree
-/

namespace BlockScript

open Grammar (anyIf nearestIf)

/-! ## The state before the first token -/

/-- The words are all there is before the end of the input. -/
structure Closes (words : List Token) (last : Token) : Prop where
  words : ∀ token ∈ words, token.kind ≠ .endOfInput
  last : last.kind = .endOfInput

namespace Closes

variable {words : List Token} {last : Token}

theorem start_rest (h : Closes words last) :
    (Parser.State.start (words ++ [last])).rest = words := by
  have hwords : ∀ token ∈ words, decide (token.kind ≠ .endOfInput) = true := fun token htoken =>
    decide_eq_true (h.words token htoken)
  simp only [Parser.State.start]
  rw [List.takeWhile_append_of_pos hwords, List.takeWhile_cons_of_neg (by simp [h.last]),
    List.append_nil]

theorem start_finish (h : Closes words last) :
    (Parser.State.start (words ++ [last])).finish = last.span := by
  have hwords : words.find? (·.kind = .endOfInput) = none := by
    simpa using h.words
  simp [Parser.State.start, endOfTokens, List.find?_append, hwords, h.last]

theorem parseTokens_of_ok (h : Closes words last) {program : Program} {s : Parser.State}
    (hread : Parser.program (words.length + 1) (.start (words ++ [last])) = .ok program s) :
    parseTokens (words ++ [last]) = ⟨program, s.faults⟩ := by
  simp only [parseTokens, h.start_rest, hread]

theorem parseTokens_of_error (h : Closes words last) {fault : Located} {s : Parser.State}
    (hread : Parser.program (words.length + 1) (.start (words ++ [last])) = .error fault s) :
    parseTokens (words ++ [last]) = ⟨[], s.faults ++ [fault]⟩ := by
  simp only [parseTokens, h.start_rest, hread]

end Closes

/-! ## Accepting -/

section

variable {words : List Token} {last : Token} {program : Program}

theorem parseTokens_of_program (h : Closes words last)
    (hprogram : Grammar.Program nearestIf words program) :
    parseTokens (words ++ [last]) = ⟨program, []⟩ := by
  have hread := (Parser.reads_program (n := words.length + 1) hprogram).whole
    (.start (words ++ [last])) [] (Nat.lt_succ_self _) (by rw [h.start_rest, List.append_nil]) rfl
    nofun (Parser.clear_nil _)
  exact h.parseTokens_of_ok hread

/-- What is read without a fault, up to the end of the input, is a program. -/
theorem exists_program_of_start {tokens : List Token} (hfaults : (parseTokens tokens).faults = []) :
    ∃ program, Grammar.Program nearestIf (Parser.State.start tokens).rest program := by
  cases hr : Parser.program ((Parser.State.start tokens).rest.length + 1) (.start tokens) with
  | error fault s =>
    rw [parseTokens, hr] at hfaults
    exact absurd hfaults (by simp)
  | ok trees s =>
    rw [parseTokens, hr] at hfaults
    obtain ⟨parts, hparts, hwords⟩ := Parser.derives_program (Nat.lt_succ_self _) rfl hr hfaults
    exact Grammar.Program.exists_nearest ⟨parts, hparts, hwords, rfl⟩

theorem exists_program_of_faults (h : Closes words last)
    (hfaults : (parseTokens (words ++ [last])).faults = []) :
    ∃ program, Grammar.Program nearestIf words program := by
  have hprogram := exists_program_of_start hfaults
  rwa [h.start_rest] at hprogram

/-- If more words would make a program, all that is wrong is that the input ends. -/
theorem span_of_fault_of_unfinished {more : List Token} (h : Closes words last) (hmore : more ≠ [])
    (hprogram : Grammar.Program nearestIf (words ++ more) program) {fault : Located}
    (hfault : fault ∈ (parseTokens (words ++ [last])).faults) : fault.span = last.span := by
  have hbroken := (Parser.reads_program (n := words.length + 1) hprogram).broken
    (.start (words ++ [last])) more (by rw [h.start_rest]; exact Nat.lt_succ_self _)
    (by rw [h.start_rest]) hmore rfl nofun
  -- Nothing was found before the first token, so all faults are new ones.
  cases hr : Parser.program (words.length + 1) (.start (words ++ [last])) with
  | ok trees s =>
    rw [hr] at hbroken
    rw [h.parseTokens_of_ok hr] at hfault
    obtain ⟨new, hnew, hspan⟩ := hbroken.faults
    rw [← h.start_finish]
    have hfault : fault ∈ s.faults := hfault
    rw [hnew] at hfault
    exact hspan fault hfault
  | error fault' s =>
    rw [hr] at hbroken
    rw [h.parseTokens_of_error hr] at hfault
    obtain ⟨new, hnew, hspan⟩ := hbroken.2.faults
    rw [← h.start_finish]
    rcases List.mem_append.mp hfault with hf | hf
    · rw [hnew] at hf
      exact hspan fault hf
    · rw [List.mem_singleton.mp hf]
      exact hbroken.1

end

/-- **The parser accepts exactly the grammar.** It finds no fault in a list of words if and only if
the rules derive it, with an `else` belonging to any `if`. And the trees of the derivations in which
each `else` belongs to the nearest `if` are one tree, the one that the parser gives. -/
theorem parseTokens_iff_program (words : List Token) (last : Token)
    (hwords : ∀ token ∈ words, token.kind ≠ .endOfInput) (hlast : last.kind = .endOfInput) :
    ((parseTokens (words ++ [last])).faults = [] ↔
        ∃ program, Grammar.Program anyIf words program) ∧
      ∀ program, Grammar.Program nearestIf words program ↔
        (parseTokens (words ++ [last])).faults = [] ∧
          (parseTokens (words ++ [last])).program = program := by
  have h : Closes words last := ⟨hwords, hlast⟩
  constructor
  · constructor
    · intro hfaults
      obtain ⟨program, hprogram⟩ := exists_program_of_faults h hfaults
      exact ⟨program, hprogram.mono fun _ _ => trivial⟩
    · rintro ⟨program, hprogram⟩
      obtain ⟨nearest, hnearest⟩ := hprogram.exists_nearest
      rw [parseTokens_of_program h hnearest]
  · intro program
    constructor
    · intro hprogram
      rw [parseTokens_of_program h hprogram]
      exact ⟨rfl, rfl⟩
    · rintro ⟨hfaults, rfl⟩
      obtain ⟨nearest, hnearest⟩ := exists_program_of_faults h hfaults
      rw [parseTokens_of_program h hnearest]
      exact hnearest

/-- The words `if (a) if (b) print a; else print b;`, where an `else` could belong to either of two
`if`s. -/
def danglingElse : List Token :=
  [⟨.keyword .ifWord, "if", none, 1, ⟨0, 2⟩⟩, ⟨.symbol .leftParen, "(", none, 1, ⟨3, 4⟩⟩,
    ⟨.identifier, "a", none, 1, ⟨4, 5⟩⟩, ⟨.symbol .rightParen, ")", none, 1, ⟨5, 6⟩⟩,
    ⟨.keyword .ifWord, "if", none, 1, ⟨7, 9⟩⟩, ⟨.symbol .leftParen, "(", none, 1, ⟨10, 11⟩⟩,
    ⟨.identifier, "b", none, 1, ⟨11, 12⟩⟩, ⟨.symbol .rightParen, ")", none, 1, ⟨12, 13⟩⟩,
    ⟨.keyword .printWord, "print", none, 1, ⟨14, 19⟩⟩, ⟨.identifier, "a", none, 1, ⟨20, 21⟩⟩,
    ⟨.symbol .semicolon, ";", none, 1, ⟨21, 22⟩⟩, ⟨.keyword .elseWord, "else", none, 1, ⟨23, 27⟩⟩,
    ⟨.keyword .printWord, "print", none, 1, ⟨28, 33⟩⟩, ⟨.identifier, "b", none, 1, ⟨34, 35⟩⟩,
    ⟨.symbol .semicolon, ";", none, 1, ⟨35, 36⟩⟩]

theorem parseTokens_iff_program_danglingElse :
    let last : Token := ⟨.endOfInput, "", none, 1, ⟨36, 36⟩⟩
    (∀ token ∈ danglingElse, token.kind ≠ .endOfInput) ∧ last.kind = .endOfInput ∧
      (∃ program, Grammar.Program anyIf danglingElse program) ∧
      Grammar.Program nearestIf danglingElse
        [.ifThen ⟨0, 36⟩ (.ident ⟨4, 5⟩ "a")
          (.ifElse ⟨7, 36⟩ (.ident ⟨11, 12⟩ "b") (.print ⟨14, 22⟩ (.ident ⟨20, 21⟩ "a"))
            (.print ⟨28, 36⟩ (.ident ⟨34, 35⟩ "b")))] := by
  have hwords : ∀ token ∈ danglingElse, token.kind ≠ .endOfInput := by decide
  have h := parseTokens_iff_program danglingElse ⟨.endOfInput, "", none, 1, ⟨36, 36⟩⟩ hwords rfl
  exact ⟨hwords, rfl, h.1.mp rfl, (h.2 _).mpr ⟨rfl, rfl⟩⟩

end BlockScript
