import BlockScript.Proofs.Acceptance
import BlockScript.Proofs.LineBreak

/-!
# Sources, finished and unfinished

A source is accepted if the scanner has no fault in it and its tokens are a program. If a source can
still be continued to one that is accepted, then whatever is wrong with it is that it ends too
early: it leaves a string literal open, or every fault of the parser lies at its end. So an
interactive session that waits for more input in these two cases never refuses a source that is
only unfinished.

## Main results

* `parse_eq_ok_iff` — which sources are accepted, and as what
* `parse_or_incomplete` — a source that can be continued is accepted as it is, or is incomplete
-/

namespace BlockScript

open Grammar (nearestIf)

/-! ## The tokens of a source -/

namespace Piece

/-- No piece is the end of input. -/
theorem first_cls_ne (c : Char) (cs : List Char) : (first c cs).1.cls ≠ .token .endOfInput := by
  unfold first run word wordKind number quotation symbolOrUnexpected
  grind [run]

theorem kind_ne_endOfInput (start line : Nat) (cs : List Char) :
    ∀ token ∈ marks Placed.token? start line cs, token.kind ≠ .endOfInput := by
  match cs with
  | [] => simp
  | c :: cs =>
    intro token htoken
    rw [marks_cons, List.mem_append, Option.mem_toList] at htoken
    rcases htoken with hfirst | hrest
    · rw [Placed.token?] at hfirst
      split at hfirst
      · rename_i kind hkind
        injection hfirst with hfirst
        subst hfirst
        intro heq
        exact first_cls_ne c cs (hkind.trans (congrArg _ heq))
      · cases hfirst
    · exact kind_ne_endOfInput _ _ _ token hrest
termination_by cs.length
decreasing_by exact length_first_lt c cs

end Piece

theorem closes_words (source : String) : Closes (words source) (lastToken source) :=
  ⟨Piece.kind_ne_endOfInput 0 1 source.toList, rfl⟩

/-! ## Accepted sources -/

theorem inOrder_eq_nil_iff {faults : List Located} : Located.inOrder faults = [] ↔ faults = [] := by
  rw [← List.length_eq_zero_iff, Located.inOrder, List.length_mergeSort, List.length_eq_zero_iff]

theorem read_faults_eq_nil_iff {source : String} :
    (read source).faults = [] ↔ (scan source).faults = [] ∧
      (parseTokens (words source ++ [lastToken source])).faults = [] := by
  rw [Reading.faults, inOrder_eq_nil_iff, List.append_eq_nil_iff]
  rfl

theorem read_of_parse {source : String} {program : Program} (h : parse source = .ok program) :
    (read source).faults = [] ∧ (read source).parsed.program = program := by
  rw [parse] at h
  split at h
  · rename_i hempty
    injection h with h
    exact ⟨List.isEmpty_iff.mp hempty, h⟩
  · exact nomatch h

/-- An accepted source needs no more input. -/
theorem isComplete_of_parse {source : String} {program : Program} (h : parse source = .ok program) :
    isComplete source = true := by
  rw [isComplete, (read_of_parse h).1]
  rfl

/-- **Accepted sources.** The scanner has nothing against the source, and its tokens are the
program. -/
theorem parse_eq_ok_iff {source : String} {program : Program} :
    parse source = .ok program ↔
      (scan source).faults = [] ∧ Grammar.Program nearestIf (words source) program := by
  have hclose := closes_words source
  constructor
  · intro h
    obtain ⟨hfaults, hread⟩ := read_of_parse h
    obtain ⟨hscan, hparse⟩ := read_faults_eq_nil_iff.mp hfaults
    obtain ⟨nearest, hnearest⟩ := exists_program_of_faults hclose hparse
    have hsame : (read source).parsed = ⟨nearest, []⟩ := parseTokens_of_program hclose hnearest
    rw [hsame] at hread
    exact ⟨hscan, hread ▸ hnearest⟩
  · rintro ⟨hscan, hprogram⟩
    have hsame := parseTokens_of_program hclose hprogram
    have hempty : (read source).faults = [] := read_faults_eq_nil_iff.mpr ⟨hscan, by rw [hsame]⟩
    have hread : (read source).parsed = ⟨program, []⟩ := hsame
    rw [parse, hempty, hread]
    rfl

/-! ## Unfinished sources -/

/-- A source is complete if more input could mend none of its faults. -/
theorem isComplete_iff {source : String} :
    isComplete source = true ↔
      (∀ fault ∈ (scan source).faults, fault.atEnd source.utf8ByteSize = false) ∧
        ∀ fault ∈ (parseTokens (words source ++ [lastToken source])).faults,
          fault.atEnd source.utf8ByteSize = false := by
  have hmem (fault : Located) : fault ∈ (read source).faults ↔ fault ∈ (scan source).faults ∨
      fault ∈ (parseTokens (words source ++ [lastToken source])).faults := by
    rw [Reading.faults, Located.inOrder, List.mem_mergeSort, List.mem_append]
    rfl
  simp only [isComplete, Bool.not_eq_true', List.any_eq_false, Bool.not_eq_true, hmem, or_imp,
    forall_and]

/-- One fault that more input could mend makes a source incomplete. -/
theorem isComplete_eq_false {source : String} {fault : Located}
    (hfault : fault ∈ (scan source).faults ∨
      fault ∈ (parseTokens (words source ++ [lastToken source])).faults)
    (hend : fault.atEnd source.utf8ByteSize = true) : isComplete source = false := by
  rw [← Bool.not_eq_true, isComplete_iff]
  rintro ⟨hscan, hparse⟩
  obtain hfault | hfault := hfault
  · exact Bool.eq_false_iff.mp (hscan fault hfault) hend
  · exact Bool.eq_false_iff.mp (hparse fault hfault) hend

/-- **A source that can be continued is never refused.** If a line break and more can be added to a
source such that it is accepted, then it is accepted as it is, or it counts as incomplete. -/
theorem parse_or_incomplete (s t : String) (program : Program)
    (h : parse (s ++ "\n" ++ t) = .ok program) :
    (∃ program, parse s = .ok program) ∨ isComplete s = false := by
  obtain ⟨hscan, hprogram⟩ := parse_eq_ok_iff.mp h
  by_cases hopen : ∃ fault ∈ (scan s).faults, fault.fault = .unterminatedString
  · obtain ⟨fault, hfault, hunterminated⟩ := hopen
    exact .inr (isComplete_eq_false (.inl hfault) (by simp [Located.atEnd, hunterminated]))
  · have hclosed : ∀ fault ∈ (scan s).faults, fault.fault ≠ .unterminatedString :=
      fun fault hfault heq => hopen ⟨fault, hfault, heq⟩
    have hscans : (scan s).faults = [] := by
      rw [scan_faults_lineBreak hclosed, List.append_eq_nil_iff] at hscan
      exact hscan.1
    rw [words_lineBreak hclosed] at hprogram
    -- Either nothing comes after the line break, or the tokens of `s` are a program broken off.
    generalize (words t).map _ = more at hprogram
    by_cases hmore : more = []
    · rw [hmore, List.append_nil] at hprogram
      exact .inl ⟨program, parse_eq_ok_iff.mpr ⟨hscans, hprogram⟩⟩
    · cases hfaults : (parseTokens (words s ++ [lastToken s])).faults with
      | nil =>
        obtain ⟨whole, hwhole⟩ := exists_program_of_faults (closes_words s) hfaults
        exact .inl ⟨whole, parse_eq_ok_iff.mpr ⟨hscans, hwhole⟩⟩
      | cons fault others =>
        have hfault : fault ∈ (parseTokens (words s ++ [lastToken s])).faults := by
          rw [hfaults]
          exact List.mem_cons_self
        have hspan := span_of_fault_of_unfinished (closes_words s) hmore hprogram hfault
        exact .inr (isComplete_eq_false (.inr hfault) (by
          simp [Located.atEnd, hspan, lastToken, Token.endOfInput, Span.empty]))

theorem parse_or_incomplete_block :
    parse ("if (a) \x7b" ++ "\n" ++ "\x7d") =
        .ok [.ifThen ⟨0, 10⟩ (.ident ⟨4, 5⟩ "a") (.block ⟨7, 10⟩ [])] ∧
      ((∃ program, parse "if (a) \x7b" = .ok program) ∨ isComplete "if (a) \x7b" = false) :=
  have h : parse ("if (a) \x7b" ++ "\n" ++ "\x7d") =
      .ok [.ifThen ⟨0, 10⟩ (.ident ⟨4, 5⟩ "a") (.block ⟨7, 10⟩ [])] := by
    with_unfolding_all rfl
  ⟨h, parse_or_incomplete "if (a) \x7b" "\x7d" _ h⟩

end BlockScript
