import BlockScript.Proofs.Coverage
import BlockScript.Proofs.InPieces
import BlockScript.Proofs.ParserBlind

/-!
# Layout does not matter

Two sources without faults of the scanner that consist of the same words, with whatever blanks,
comments and line breaks between them, are the same to everything that comes after the scanner. They
are parsed to the same program or have the same faults in the same order, one is complete if the
other is, and they do the same when they are run.

The order of faults is the order of their places, and a source is incomplete if a fault lies at its
end. So places do matter to both, but only through their order: the places of faults are those of
tokens (`parseTokens_alike`), and tokens stand in the same order in both sources.

## Main definitions

* `SameWords` — sources that consist of the same words

## Main results

* `SameWords.read_faults` — the faults of the sources, in their order
* `same_of_sameWords` — parsing and running sources that consist of the same words
-/

namespace BlockScript

/-- What a token is, wherever it stands. -/
def Token.word (token : Token) : Token.Kind × String := (token.kind, token.lexeme)

/-- The scanner has nothing against the sources, and their words are the same. -/
structure SameWords (s t : String) : Prop where
  left : (scan s).faults = []
  right : (scan t).faults = []
  tokens : (scan s).tokens.map Token.word = (scan t).tokens.map Token.word

/-! ## Corresponding places -/

/-- The places are those of one pair of tokens. -/
def Corresponding (pairs : List (Token × Token)) (span span' : Span) : Prop :=
  ∃ p ∈ pairs, span = p.1.span ∧ span' = p.2.span

/-- The pairs stand in the same order on both sides. -/
def Parallel (pairs : List (Token × Token)) : Prop :=
  pairs.Pairwise fun p q => p.1.span.start < q.1.span.start ∧ p.2.span.start < q.2.span.start

theorem Span.precedes_of_lt {a b : Span} (h : a.start < b.start) :
    a.precedes b = true ∧ b.precedes a = false := by
  simp only [Span.precedes]
  constructor
  · simp [h]
  · simp [Nat.lt_asymm h, Nat.ne_of_gt h]

theorem Parallel.precedes_eq {pairs : List (Token × Token)} (h : Parallel pairs)
    {a a' b b' : Span} (ha : Corresponding pairs a a') (hb : Corresponding pairs b b') :
    a.precedes b = a'.precedes b' := by
  obtain ⟨p, hp, rfl, rfl⟩ := ha
  obtain ⟨q, hq, rfl, rfl⟩ := hb
  refine List.Pairwise.forall_of_forall_of_flip (l := pairs)
    (R := fun p q => p.1.span.precedes q.1.span = p.2.span.precedes q.2.span) ?_ ?_ ?_ hp hq
  · intro p _
    simp [Span.precedes]
  · exact h.imp fun hlt => by
      rw [(Span.precedes_of_lt hlt.1).1, (Span.precedes_of_lt hlt.2).1]
  · exact h.imp fun hlt => by
      rw [flip, (Span.precedes_of_lt hlt.1).2, (Span.precedes_of_lt hlt.2).2]

/-- Faults at places that keep their order are sorted in the same way. -/
theorem inOrder_alike {P : Span → Span → Prop}
    (hP : ∀ {a a' b b' : Span}, P a a' → P b b' → a.precedes b = a'.precedes b')
    {faults faults' : List Located} (h : List.Forall₂ (Located.Alike P) faults faults') :
    List.Forall₂ (Located.Alike P) (Located.inOrder faults) (Located.inOrder faults') := by
  obtain ⟨pairs, rfl, rfl, hpairs⟩ := exists_pairs h
  let sorted := pairs.mergeSort fun p q => p.1.span.precedes q.1.span
  have hfst : sorted.map Prod.fst = Located.inOrder (pairs.map Prod.fst) :=
    List.map_mergeSort fun _ _ _ _ => rfl
  have hsnd : sorted.map Prod.snd = Located.inOrder (pairs.map Prod.snd) :=
    List.map_mergeSort fun p hp q hq => hP (hpairs p hp).span (hpairs q hq).span
  rw [← hfst, ← hsnd]
  exact forall₂_of_pairs fun p hp => hpairs p (List.mem_mergeSort.mp hp)

theorem map_fault_eq {P : Span → Span → Prop} {faults faults' : List Located}
    (h : List.Forall₂ (Located.Alike P) faults faults') :
    faults.map Located.fault = faults'.map Located.fault := by
  induction h with
  | nil => rfl
  | cons hfault _ ih => rw [List.map_cons, List.map_cons, hfault.fault, ih]

/-! ## The tokens of a source -/

theorem word_start_lt {source : String} {token : Token} (h : token ∈ words source) :
    token.span.start < token.span.stop ∧ token.span.stop ≤ source.utf8ByteSize := by
  obtain ⟨placed, hplaced, htoken⟩ := List.mem_filterMap.mp h
  obtain ⟨-, -, -, htext, -⟩ := Piece.exists_text_of_mem_ofSource hplaced
  refine ⟨?_, ((inOrder_words source).within token h).bound⟩
  rw [Piece.Placed.span_of_token? htoken]
  exact Nat.lt_add_of_pos_right (Text.byteLength_pos htext)

theorem pairwise_starts (source : String) :
    (words source ++ [lastToken source]).Pairwise fun a b => a.span.start < b.span.start := by
  refine List.pairwise_append.mpr ⟨?_, List.pairwise_singleton _ _, ?_⟩
  · refine (inOrder_words source).sorted.imp_of_mem fun ha _ hab => ?_
    exact Nat.lt_of_lt_of_le (word_start_lt ha).1 hab
  · intro token htoken last hlast
    rw [List.mem_singleton.mp hlast]
    have := word_start_lt htoken
    exact Nat.lt_of_lt_of_le this.1 this.2

/-- The literal of a token is a matter of its kind and its lexeme. -/
theorem literal_of_mem_words {source : String} {token : Token} (h : token ∈ words source) :
    token.literal = Piece.literal? token.kind token.lexeme.toList := by
  obtain ⟨placed, -, htoken⟩ := List.mem_filterMap.mp h
  obtain ⟨-, hlexeme, hliteral⟩ := Piece.Placed.of_token? htoken
  rw [hliteral, hlexeme, Piece.Placed.text, String.toList_ofList]

namespace SameWords

variable {s t : String}

/-- The tokens of two sources side by side, without the ends of input. -/
theorem exists_wordPairs (h : SameWords s t) :
    ∃ pairs : List (Token × Token), words s = pairs.map Prod.fst ∧ words t = pairs.map Prod.snd ∧
      ∀ p ∈ pairs, p.1.kind = p.2.kind ∧ p.1.lexeme = p.2.lexeme ∧ p.1.literal = p.2.literal := by
  have hall : (words s).map Token.word ++ [(lastToken s).word] =
      (words t).map Token.word ++ [(lastToken t).word] := by
    have hwords := h.tokens
    change (words s ++ [lastToken s]).map _ = (words t ++ [lastToken t]).map _ at hwords
    simpa only [List.map_append, List.map_cons, List.map_nil] using hwords
  have hsame := List.append_inj_left' hall rfl
  have hwords : List.Forall₂ (fun a b => a.word = b.word) (words s) (words t) := by
    rw [← List.forall₂_map_left_iff (R := fun a b => a = Token.word b),
      ← List.forall₂_map_right_iff (R := fun a b => a = b), hsame]
    exact List.forall₂_same.mpr fun _ _ => rfl
  obtain ⟨pairs, hs, ht, hpairs⟩ := exists_pairs hwords
  refine ⟨pairs, hs, ht, fun p hp => ?_⟩
  obtain ⟨hkind, hlexeme⟩ := Prod.mk.inj (hpairs p hp)
  refine ⟨hkind, hlexeme, ?_⟩
  have hleft : p.1 ∈ words s := hs ▸ List.mem_map_of_mem hp
  have hright : p.2 ∈ words t := ht ▸ List.mem_map_of_mem hp
  rw [literal_of_mem_words hleft, literal_of_mem_words hright, hkind, hlexeme]

/-- The readings are the same. A place of a fault in one of them starts where the source ends if the
corresponding place does. -/
theorem exists_alike (h : SameWords s t) :
    ∃ P : Span → Span → Prop,
      (read s).parsed.Alike P (read t).parsed ∧
      (∀ {a a' b b' : Span}, P a a' → P b b' → a.precedes b = a'.precedes b') ∧
      ∀ {a a' : Span}, P a a' → (a.start = s.utf8ByteSize ↔ a'.start = t.utf8ByteSize) := by
  obtain ⟨pairs, hs, ht, hpairs⟩ := h.exists_wordPairs
  let all := pairs ++ [(lastToken s, lastToken t)]
  have hfst : all.map Prod.fst = words s ++ [lastToken s] := by simp [all, hs]
  have hsnd : all.map Prod.snd = words t ++ [lastToken t] := by simp [all, ht]
  have hparallel : Parallel all := by
    have hleft := pairwise_starts s
    have hright := pairwise_starts t
    rw [← hfst, List.pairwise_map] at hleft
    rw [← hsnd, List.pairwise_map] at hright
    exact hleft.and hright
  refine ⟨Corresponding all, ?_, hparallel.precedes_eq, ?_⟩
  · have hlast : Corresponding all (lastToken s).span (lastToken t).span :=
      ⟨_, List.mem_append_right _ List.mem_cons_self, rfl, rfl⟩
    have hwords : List.Forall₂ (Token.Alike (Corresponding all)) (words s) (words t) := by
      rw [hs, ht]
      refine forall₂_of_pairs fun p hp => ?_
      obtain ⟨hkind, hlexeme, hliteral⟩ := hpairs p hp
      exact ⟨hkind, hlexeme, hliteral, p, List.mem_append_left _ hp, rfl, rfl⟩
    exact parseTokens_alike (closes_words s) (closes_words t) hwords hlast
  · rintro _ _ ⟨p, hp, rfl, rfl⟩
    rcases List.mem_append.mp hp with hp | hp
    · have hleft := word_start_lt (show p.1 ∈ words s from hs ▸ List.mem_map_of_mem hp)
      have hright := word_start_lt (show p.2 ∈ words t from ht ▸ List.mem_map_of_mem hp)
      omega
    · rw [List.mem_singleton.mp hp]
      exact ⟨fun _ => rfl, fun _ => rfl⟩

/-- **The faults of the sources are the same, in the same order.** -/
theorem read_faults (h : SameWords s t) :
    ∃ P : Span → Span → Prop, List.Forall₂ (Located.Alike P) (read s).faults (read t).faults ∧
      ∀ {a a' : Span}, P a a' → (a.start = s.utf8ByteSize ↔ a'.start = t.utf8ByteSize) := by
  obtain ⟨P, hparsed, horder, hend⟩ := h.exists_alike
  refine ⟨P, ?_, hend⟩
  have hleft : (read s).faults = Located.inOrder (read s).parsed.faults := by
    rw [Reading.faults, show (read s).scanFaults = [] from h.left, List.nil_append]
  have hright : (read t).faults = Located.inOrder (read t).parsed.faults := by
    rw [Reading.faults, show (read t).scanFaults = [] from h.right, List.nil_append]
  rw [hleft, hright]
  exact inOrder_alike horder hparsed.faults

theorem map_fault_read (h : SameWords s t) :
    (read s).faults.map Located.fault = (read t).faults.map Located.fault := by
  obtain ⟨P, hfaults, -⟩ := h.read_faults
  exact map_fault_eq hfaults

theorem isEmpty_faults (h : SameWords s t) :
    (read s).faults.isEmpty = (read t).faults.isEmpty := by
  have hfaults := congrArg List.isEmpty h.map_fault_read
  rwa [List.isEmpty_map, List.isEmpty_map] at hfaults

theorem program_same (h : SameWords s t) :
    List.Forall₂ Stmt.Same (read s).parsed.program (read t).parsed.program := by
  obtain ⟨P, hparsed, -⟩ := h.exists_alike
  exact hparsed.program

/-- **One source is complete if the other is.** -/
theorem isComplete_eq (h : SameWords s t) : isComplete s = isComplete t := by
  obtain ⟨P, hfaults, hend⟩ := h.read_faults
  rw [isComplete, isComplete]
  congr 1
  generalize (read s).faults = faults, (read t).faults = faults' at hfaults
  induction hfaults with
  | nil => rfl
  | cons hfault _ ih =>
    rw [List.any_cons, List.any_cons, ih]
    simp only [Located.atEnd, hfault.fault, hend hfault.span]

/-- **The sources are accepted as the same program, or refused with the same faults.** -/
theorem parse_same (h : SameWords s t) :
    (∃ program program', parse s = .ok program ∧ parse t = .ok program' ∧
        List.Forall₂ Stmt.Same program program') ∨
      ∃ faults faults', parse s = .error faults ∧ parse t = .error faults' ∧
        faults.map Located.fault = faults'.map Located.fault := by
  rw [parse, parse]
  simp only [h.isEmpty_faults]
  cases (read t).faults.isEmpty with
  | true => exact .inl ⟨_, _, rfl, rfl, h.program_same⟩
  | false => exact .inr ⟨_, _, rfl, rfl, h.map_fault_read⟩

end SameWords

/-! ## Running -/

section

variable {H : Type} [Host H] [Host.Blind H]

theorem Machine.execute_same {program program' : Program}
    (h : List.Forall₂ Stmt.Same program program') (fuel : Nat) (m : Machine H) :
    (m.execute fuel program).1.Alike AnyPlace (m.execute fuel program').1 ∧
      (m.execute fuel program).2.sink = (m.execute fuel program').2.sink := by
  obtain ⟨hending, hmachine⟩ := Machine.execute_alike (fun _ _ h => h) fuel h m.alike_anyPlace
  exact ⟨hending, hmachine.sink⟩

/-- What a session tells of the runs is the same. -/
structure Outcome.Same (outcome outcome' : Outcome) : Prop where
  status : outcome.status = outcome'.status
  output : outcome.output = outcome'.output
  faults : outcome.faults.map Located.fault = outcome'.faults.map Located.fault

theorem Session.runWith_same {program program' : Program}
    (h : List.Forall₂ Stmt.Same program program') (fuel : Nat) (m : Machine H) :
    (runWith fuel program m).1.Same (runWith fuel program' m).1 := by
  obtain ⟨hending, hsink⟩ := Machine.execute_same h fuel m
  obtain ⟨hstatus, hfaults⟩ := runWith_alike hending
  refine ⟨hstatus, ?_, hfaults⟩
  rw [output_runWith, output_runWith, hsink]

theorem Session.run_same {s t : String} (h : SameWords s t) (lenient : Bool) (m : Machine H) :
    (run lenient s m).1.Same (run lenient t m).1 := by
  rw [run, run]
  simp only [h.isEmpty_faults]
  split
  · exact runWith_same h.program_same Machine.ample m
  · exact ⟨rfl, rfl, h.map_fault_read⟩

/-- **Layout does not matter.** Sources that consist of the same words are accepted as programs that
differ in their places only, or are refused with the same faults in the same order, and one of them
is complete if the other is. Their programs write the same and end in the same way on any machine
and with any fuel, and a session tells the same of them. -/
theorem same_of_sameWords {H : Type} [Host H] [Host.Blind H] (s t : String) (h : SameWords s t) :
    ((∃ program program', parse s = .ok program ∧ parse t = .ok program' ∧
        List.Forall₂ (Stmt.Alike AnyPlace AnyPlace) program program' ∧
        ∀ (fuel : Nat) (m : Machine H),
          (Session.runWith fuel program m).1.Same (Session.runWith fuel program' m).1) ∨
      ∃ faults faults', parse s = .error faults ∧ parse t = .error faults' ∧
        faults.map Located.fault = faults'.map Located.fault) ∧
    isComplete s = isComplete t ∧
    ∀ (lenient : Bool) (m : Machine H),
      (Session.run lenient s m).1.Same (Session.run lenient t m).1 := by
  refine ⟨?_, h.isComplete_eq, Session.run_same h⟩
  obtain ⟨program, program', hs, ht, hprogram⟩ | hrefused := h.parse_same
  · exact .inl ⟨program, program', hs, ht, hprogram, Session.runWith_same hprogram⟩
  · exact .inr hrefused

/-- An expression that is spread over two lines, with a comment in it. -/
theorem same_of_sameWords_comment :
    let s := "print a + b;"
    let t := "print a // sum\n\t+b ;"
    let m : Machine Empty := .start ⟨fun _ => 0, 0⟩ (.empty none)
    SameWords s t ∧ isComplete s = isComplete t ∧
      (Session.run false s m).1.Same (Session.run false t m).1 :=
  have h : SameWords "print a + b;" "print a // sum\n\t+b ;" :=
    ⟨by with_unfolding_all rfl, by decide +kernel, by decide +kernel⟩
  have hsame := same_of_sameWords (H := Empty) _ _ h
  ⟨h, hsame.2.1, hsame.2.2 false _⟩

end

end BlockScript
