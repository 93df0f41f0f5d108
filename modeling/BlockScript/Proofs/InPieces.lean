import BlockScript.Session
import BlockScript.Proofs.Blind
import BlockScript.Proofs.Changes
import BlockScript.Proofs.Moved
import BlockScript.Proofs.Returns
import BlockScript.Proofs.Source

/-!
# Running a source in pieces

A source that is cut in two at a line break, such that both pieces are accepted, is the program of
the first piece and then that of the second one, with the places of the latter moved. Running the
pieces one after the other on one machine is running the source as a whole: what is written is the
same, and so is how it ends.

Three things could go wrong, one in each layer. The scanner could read over the line break, which
`words_lineBreak` rules out. The parser could let a statement of the first piece go on into the
second one, but then the words would have a second tree. And a run of the first piece that ends
early would stop the whole source but only one of the pieces; a `return` outside of all functions
would do so without a fault, and the grammar has none (`Grammar.returns_of_derives`). That the
places of the second piece differ does not matter to evaluation.

## Main results

* `parse_lineBreak` — the program of a source with a line break
* `Machine.execute_append` — running two programs one after the other
* `run_in_pieces` — running a source in pieces
-/

namespace BlockScript

open Grammar (nearestIf)

/-! ## Parsing -/

theorem moves_move (offset lines : Nat) : Moves (Span.move offset) (Token.move offset lines) where
  kind _ := rfl
  lexeme _ := rfl
  literal _ := rfl
  span _ := rfl
  through _ _ := rfl

theorem Grammar.Program.append {attaches : Bool → Prop} {words words' : List Token}
    {program program' : BlockScript.Program} (h : Grammar.Program attaches words program)
    (h' : Grammar.Program attaches words' program') :
    Grammar.Program attaches (words ++ words') (program ++ program') := by
  obtain ⟨parts, hparts, rfl, rfl⟩ := h
  obtain ⟨parts', hparts', rfl, rfl⟩ := h'
  refine ⟨parts ++ parts', ?_, ?_, ?_⟩
  · exact List.forall_mem_append.mpr ⟨hparts, hparts'⟩
  · rw [List.flatMap_append]
  · rw [List.map_append]

/-- **The program of a source with a line break in it**, if both sides of the line break are
accepted. -/
theorem parse_lineBreak {s t : String} {program program' : Program} (h : parse s = .ok program)
    (h' : parse t = .ok program') :
    parse (s ++ "\n" ++ t) =
      .ok (program ++ program'.map (Stmt.mapSpans (Span.move (s.utf8ByteSize + 1)))) := by
  obtain ⟨hscan, hprogram⟩ := parse_eq_ok_iff.mp h
  obtain ⟨hscan', hprogram'⟩ := parse_eq_ok_iff.mp h'
  have hclosed : ∀ fault ∈ (scan s).faults, fault.fault ≠ .unterminatedString := by
    rw [hscan]
    exact fun _ hfault => absurd hfault List.not_mem_nil
  refine parse_eq_ok_iff.mpr ⟨?_, ?_⟩
  · rw [scan_faults_lineBreak hclosed, hscan, hscan']
    rfl
  · rw [words_lineBreak hclosed]
    exact hprogram.append (hprogram'.moved (moves_move _ _))

section

variable {H : Type} [Host H]

/-! ## Running one program after the other -/

/-- **Running two programs one after the other** is running them as one, if the first one ends
without a fault. -/
theorem Machine.execute_append {words : List Token} {program : Program}
    (hprogram : Grammar.Program nearestIf words program) (program' : Program) (fuel : Nat)
    {m : Machine H} (h : (m.execute fuel program).1 = .finished) :
    m.execute fuel (program ++ program') = (m.execute fuel program).2.execute fuel program' := by
  obtain ⟨parts, hparts, -, rfl⟩ := hprogram
  have hquiet : Quiet (execAll (callWith fuel) fuel m.globals (parts.map Prod.snd) : Eval H _) := by
    refine .execAll (List.forall_mem_map.mpr fun d hd => ?_)
    exact quiet_of_returns (Grammar.returns_of_derives (hparts d hd) rfl) _ _ _
  have hglobals := (m.reaches_execute fuel (parts.map Prod.snd)).globals_eq
  simp only [execute] at h hglobals ⊢
  cases hr : execAll (callWith fuel) fuel m.globals (parts.map Prod.snd) m with
  | error stop m₁ =>
    rw [hr] at h
    cases stop <;> cases h
  | ok flow m₁ =>
    have hflow := hquiet m flow m₁ hr
    subst hflow
    rw [hr] at hglobals
    rw [(completes_of_normal hr).execAll_append, hglobals]

/-! ## Places that do not matter -/

omit [Host H] in
theorem Value.alike_anyPlace (v : Value H) : Value.Alike AnyPlace v v := by
  cases v with
  | function id c =>
    refine .function id ⟨rfl, rfl, List.forall₂_same.mpr fun s _ => ?_, rfl⟩
    exact s.alike_self (fun _ _ => trivial) fun _ _ => trivial
  | nil => exact .nil
  | bool value => exact .bool value
  | number value => exact .number value
  | text value => exact .text value
  | native id fn => exact .native id fn

omit [Host H] in
theorem Machine.alike_anyPlace (m : Machine H) : m.Alike AnyPlace m := by
  refine ⟨⟨rfl, fun i => ?_⟩, rfl, rfl, rfl, rfl, rfl⟩
  cases m.scopes.cells[i]? with
  | none => exact .none
  | some scope =>
    refine .some ⟨rfl, List.forall₂_same.mpr fun var _ => ⟨rfl, var.2.alike_anyPlace⟩⟩

/-- Moving a program changes nothing but the place of a fault. -/
theorem Machine.execute_mapSpans [Host.Blind H] (f : Span → Span) (program : Program) (fuel : Nat)
    (m : Machine H) :
    (m.execute fuel program).2.sink =
        (m.execute fuel (program.map (Stmt.mapSpans f))).2.sink ∧
      (m.execute fuel program).1.Alike AnyPlace
        (m.execute fuel (program.map (Stmt.mapSpans f))).1 := by
  have hprogram : List.Forall₂ (Stmt.Alike AnyPlace AnyPlace) program
      (program.map (Stmt.mapSpans f)) :=
    forall₂_map fun s _ => s.alike_mapSpans (fun _ _ => trivial) fun _ _ => trivial
  obtain ⟨hending, hmachine⟩ :=
    Machine.execute_alike (fun _ _ h => h) fuel hprogram m.alike_anyPlace
  exact ⟨hmachine.sink, hending⟩

/-! ## Sessions -/

namespace Session

theorem run_of_parse {source : String} {program : Program} (h : parse source = .ok program)
    (m : Machine H) : run false source m = runProgram program m := by
  obtain ⟨hfaults, hread⟩ := read_of_parse h
  rw [run, hfaults, hread]
  rfl

theorem runWith_snd (fuel : Nat) (program : Program) (m : Machine H) :
    (runWith fuel program m).2 = (m.execute fuel program).2 := by
  rw [runWith]
  generalize m.execute fuel program = r
  obtain ⟨ending, after⟩ := r
  cases ending <;> rfl

theorem output_runWith (fuel : Nat) (program : Program) (m : Machine H) :
    (runWith fuel program m).1.output =
      (m.execute fuel program).2.sink.textFrom m.sink.written.size := by
  rw [runWith]
  generalize m.execute fuel program = r
  obtain ⟨ending, after⟩ := r
  cases ending <;> rfl

/-- Runs that end in the same way and write the same have the same outcome. -/
theorem runWith_fst_eq {fuel : Nat} {program program' : Program} {m m' : Machine H}
    (hending : (m.execute fuel program).1 = (m'.execute fuel program').1)
    (houtput : (m.execute fuel program).2.sink.textFrom m.sink.written.size =
      (m'.execute fuel program').2.sink.textFrom m'.sink.written.size) :
    (runWith fuel program m).1 = (runWith fuel program' m').1 := by
  rw [runWith, runWith]
  generalize m.execute fuel program = r, m'.execute fuel program' = r' at hending houtput
  obtain ⟨ending, after⟩ := r
  obtain ⟨ending', after'⟩ := r'
  obtain rfl : ending = ending' := hending
  cases ending <;> simp only [houtput]

theorem runProgram_snd (program : Program) (m : Machine H) :
    (runProgram program m).2 = (m.execute Machine.ample program).2 :=
  runWith_snd Machine.ample program m

theorem execute_of_status {program : Program} {m : Machine H}
    (h : (runProgram program m).1.status = .finished) :
    (m.execute Machine.ample program).1 = .finished := by
  rw [runProgram, runWith] at h
  generalize m.execute Machine.ample program = r at h
  obtain ⟨ending, after⟩ := r
  cases ending with
  | finished => rfl
  | failed fault => nomatch h
  | exhausted => nomatch h

theorem runWith_alike {Q : Span → Span → Prop} {fuel : Nat} {program program' : Program}
    {m m' : Machine H} (h : (m.execute fuel program).1.Alike Q (m'.execute fuel program').1) :
    (runWith fuel program m).1.status = (runWith fuel program' m').1.status ∧
      (runWith fuel program m).1.faults.map Located.fault =
        (runWith fuel program' m').1.faults.map Located.fault := by
  rw [runWith, runWith]
  generalize m.execute fuel program = r, m'.execute fuel program' = r' at h
  obtain ⟨ending, after⟩ := r
  obtain ⟨ending', after'⟩ := r'
  cases h <;> exact ⟨rfl, rfl⟩

/-- A session tells the same of runs that end in the same way. -/
theorem runProgram_alike {Q : Span → Span → Prop} {program program' : Program} {m m' : Machine H}
    (h : (m.execute Machine.ample program).1.Alike Q (m'.execute Machine.ample program').1) :
    (runProgram program m).1.status = (runProgram program' m').1.status ∧
      (runProgram program m).1.faults.map Located.fault =
        (runProgram program' m').1.faults.map Located.fault :=
  runWith_alike h

end Session

end

/-- **Running a source in pieces.** Two sources that are accepted are also accepted with a line
break between them, as their programs one after the other, and if the first one runs to its end,
then running them apart or as a whole writes the same and ends in the same way. The places of faults
may differ. This holds of runs with any fuel, and so of sessions. -/
theorem run_in_pieces {H : Type} [Host H] [Host.Blind H] (s t : String) (program program' : Program)
    (h : parse s = .ok program) (h' : parse t = .ok program') :
    let moved := program'.map (Stmt.mapSpans (Span.move (s.utf8ByteSize + 1)))
    parse (s ++ "\n" ++ t) = .ok (program ++ moved) ∧
      (∀ (fuel : Nat) (m : Machine H), (m.execute fuel program).1 = .finished →
        let apart := (m.execute fuel program).2.execute fuel program'
        let whole := m.execute fuel (program ++ moved)
        apart.2.sink = whole.2.sink ∧ apart.1.Alike AnyPlace whole.1) ∧
      ∀ m : Machine H, (Session.run false s m).1.status = .finished →
        let apart := Session.run false t (Session.run false s m).2
        let whole := Session.run false (s ++ "\n" ++ t) m
        apart.2.sink = whole.2.sink ∧ apart.1.status = whole.1.status ∧
          apart.1.faults.map Located.fault = whole.1.faults.map Located.fault := by
  have hwhole := parse_lineBreak h h'
  have hprogram := (parse_eq_ok_iff.mp h).2
  have hexecute : ∀ (fuel : Nat) (m : Machine H), (m.execute fuel program).1 = .finished →
      let apart := (m.execute fuel program).2.execute fuel program'
      let whole := m.execute fuel
        (program ++ program'.map (Stmt.mapSpans (Span.move (s.utf8ByteSize + 1))))
      apart.2.sink = whole.2.sink ∧ apart.1.Alike AnyPlace whole.1 := by
    intro fuel m hfinished
    rw [Machine.execute_append hprogram _ fuel hfinished]
    exact Machine.execute_mapSpans _ program' fuel _
  refine ⟨hwhole, hexecute, fun m hstatus => ?_⟩
  rw [Session.run_of_parse h] at hstatus ⊢
  rw [Session.run_of_parse h', Session.run_of_parse hwhole]
  simp only [Session.runProgram_snd]
  obtain ⟨hsink, hending⟩ := hexecute Machine.ample m (Session.execute_of_status hstatus)
  exact ⟨hsink, Session.runProgram_alike hending⟩

/-- A function that fails, declared in the first piece and called in the second one. -/
theorem run_in_pieces_function :
    let source := "func f() \x7b print x; \x7d"
    let program : Program := [.func ⟨0, 21⟩ "f" [] [.print ⟨11, 19⟩ (.ident ⟨17, 18⟩ "x")]]
    let program' : Program := [.expr ⟨0, 4⟩ (.call ⟨0, 3⟩ ⟨2, 3⟩ (.ident ⟨0, 1⟩ "f") [])]
    let moved : Program := [.expr ⟨22, 26⟩ (.call ⟨22, 25⟩ ⟨24, 25⟩ (.ident ⟨22, 23⟩ "f") [])]
    let m : Machine Empty := .start ⟨fun _ => 0, 0⟩ (.empty none)
    parse source = .ok program ∧ parse "f();" = .ok program' ∧
      (m.execute 2 program).1 = .finished ∧
      parse (source ++ "\n" ++ "f();") = .ok (program ++ moved) ∧
      ((m.execute 2 program).2.execute 2 program').1.Alike AnyPlace
        (m.execute 2 (program ++ moved)).1 := by
  have h : parse "func f() \x7b print x; \x7d" =
      .ok [.func ⟨0, 21⟩ "f" [] [.print ⟨11, 19⟩ (.ident ⟨17, 18⟩ "x")]] := by
    with_unfolding_all rfl
  intro source program program' moved m
  have h' : parse "f();" = .ok program' := by with_unfolding_all rfl
  have hfinished : (m.execute 2 program).1 = .finished := rfl
  obtain ⟨hparse, hexecute, -⟩ := run_in_pieces (H := Empty) source "f();" program program' h h'
  exact ⟨h, h', hfinished, hparse, (hexecute 2 m hfinished).2⟩

end BlockScript
