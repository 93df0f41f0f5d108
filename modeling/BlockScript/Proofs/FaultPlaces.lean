import BlockScript.Proofs.Extent
import BlockScript.Proofs.InPieces

/-!
# Where a fault of a session lies

The report of a fault shows the line that was entered last. A fault is raised at a place in that
line or at one in the body of a function that is called, and a function may come from an earlier
line, under any name and by any way through variables, parameters and scopes. So the fault lies in
the line unless it comes out of such a function and lies too far to the right.

To follow the functions through a session, a machine is compared with itself: it is alike to itself
under the relation `Only S` just if all places in the functions it holds are in `S`. Evaluation
keeps machines alike, so what is in the machine at the end comes from the functions that were
declared.

## Main definitions

* `Machine.Holds` — all places in the functions of a machine are in a set
* `InFunctionOf` — the places in the functions that a source declares
* `Session.afterRuns` — the machine after some sources, each run with a fuel of its own
* `Session.after` — the machine after some inputs of an interactive session

## Main results

* `Machine.holds_execute` — where a run can fail, and what it leaves on the machine
* `Session.holds_afterRuns` — what a session leaves on the machine
* `Session.place_of_failed` — where the fault of a session lies
* `fault_within_line_iff` — when a fault lies in the line that its report shows
-/

namespace BlockScript

/-! ## The functions of a machine -/

/-- A place that stands for itself, and is in `S`. -/
def Only (S : Span → Prop) (span span' : Span) : Prop := span = span' ∧ S span

section

variable {H : Type} {S : Span → Prop}

/-- All places in the functions that the machine holds are in `S`. -/
def Machine.Holds (S : Span → Prop) (m : Machine H) : Prop := m.Alike (Only S) m

variable [Host H]

/-- A machine starts without functions. -/
theorem Machine.holds_start (clock : Clock) (sink : Sink) :
    (start clock sink : Machine H).Holds S := by
  have hempty : Scopes.Alike (Only S) (Scopes.empty : Scopes H) Scopes.empty :=
    ⟨rfl, fun _ => .none⟩
  exact ⟨(hempty.push none).define _ _ (.native _ _), rfl, rfl, rfl, rfl, rfl⟩

variable [Host.Blind H]

/-- A run fails in a function of the machine or in the program, and adds the functions of the
program to those of the machine. -/
theorem Machine.holds_execute {program : Program} {m : Machine H}
    (hprogram : ∀ span ∈ program.flatMap Stmt.innerSpans, S span) (hm : m.Holds S) (fuel : Nat) :
    (m.execute fuel program).2.Holds S ∧
      ∀ fault, (m.execute fuel program).1 = .failed fault →
        S fault.span ∨ fault.span ∈ program.flatMap Stmt.outerSpans := by
  have halike : List.Forall₂ (Stmt.Alike (Only S)
      (Only fun span => S span ∨ span ∈ program.flatMap Stmt.outerSpans)) program program := by
    refine List.forall₂_same.mpr fun s hs => ?_
    refine s.alike_self (fun span hspan => ?_) fun span hspan => ?_
    · exact ⟨rfl, .inr (List.mem_flatMap.mpr ⟨s, hs, hspan⟩)⟩
    · exact ⟨rfl, hprogram span (List.mem_flatMap.mpr ⟨s, hs, hspan⟩)⟩
  obtain ⟨hending, hafter⟩ :=
    execute_alike (fun _ _ h => ⟨h.1, .inl h.2⟩) fuel halike hm
  refine ⟨hafter, fun fault hfault => ?_⟩
  rw [hfault] at hending
  cases hending with
  | failed fault h => exact h.2

end

/-! ## Sessions -/

/-- The place is in the body of a function that the source declares. -/
def InFunctionOf (source : String) (span : Span) : Prop :=
  ∃ program, parse source = .ok program ∧ span ∈ program.flatMap Stmt.innerSpans

theorem InFunctionOf.within {source : String} {span : Span} (h : InFunctionOf source span) :
    span.Within source.utf8ByteSize := by
  obtain ⟨program, hprogram, hspan⟩ := h
  exact (within_of_parse hprogram).2 span hspan

namespace Session

variable {H : Type} [Host H]

/-- The machine after some inputs of an interactive session. -/
def after (inputs : List String) (m : Machine H) : Machine H :=
  inputs.foldl (fun m input => (enter input m).2) m

theorem run_of_error {source : String} {faults : List Located} (h : parse source = .error faults)
    (m : Machine H) : run false source m = (⟨.refused, "", faults⟩, m) := by
  rw [parse] at h
  rw [run]
  split at h
  · cases h
  · rename_i hfaults
    injection h with h
    subst h
    exact if_neg (by simpa using hfaults)

theorem enter_of_parse {source : String} {program : Program} (h : parse source = .ok program)
    (m : Machine H) :
    enter source m =
      (.ran (runProgram program m).1 (report inputName source (runProgram program m).1.faults),
        (runProgram program m).2) := by
  rw [enter, if_pos (isComplete_of_parse h), run_of_parse h]

/-- The machine after a source was run with the given fuel. One that is refused changes nothing. -/
def feed (fuel : Nat) (source : String) (m : Machine H) : Machine H :=
  match parse source with
  | .ok program => (m.execute fuel program).2
  | .error _ => m

/-- The machine after some sources, each run with its own fuel. -/
def afterRuns (runs : List (Nat × String)) (m : Machine H) : Machine H :=
  runs.foldl (fun m run => feed run.1 run.2 m) m

theorem enter_snd (source : String) (m : Machine H) :
    (enter source m).2 = feed Machine.ample source m := by
  rw [feed]
  cases h : parse source with
  | ok program => rw [enter_of_parse h, runProgram_snd]
  | error faults =>
    rw [enter, run_of_error h]
    split <;> rfl

/-- The inputs of an interactive session are run with ample fuel. -/
theorem after_eq_afterRuns (inputs : List String) (m : Machine H) :
    after inputs m = afterRuns (inputs.map (Machine.ample, ·)) m := by
  rw [after, afterRuns, List.foldl_map]
  simp only [enter_snd]

/-- An input that fails is a program, and its report is about one fault. -/
theorem enter_of_failed {source text : String} {outcome : Outcome} {m : Machine H}
    (h : (enter source m).1 = .ran outcome text) (hstatus : outcome.status = .failed) :
    ∃ program fault, parse source = .ok program ∧
      (m.execute Machine.ample program).1 = .failed fault ∧ outcome.faults = [fault] ∧
        text = report inputName source [fault] := by
  cases hparse : parse source with
  | error faults =>
    rw [enter, run_of_error hparse] at h
    split at h
    · injection h with houtcome
      rw [← houtcome] at hstatus
      cases hstatus
    · cases h
  | ok program =>
    rw [enter_of_parse hparse, runProgram, runWith] at h
    refine ⟨program, ?_⟩
    generalize m.execute Machine.ample program = r at h ⊢
    obtain ⟨ending, m'⟩ := r
    injection h with houtcome htext
    subst houtcome htext
    cases ending with
    | finished => cases hstatus
    | exhausted => cases hstatus
    | failed fault => exact ⟨fault, rfl, rfl, rfl, rfl⟩

variable [Host.Blind H] {S : Span → Prop}

theorem holds_feed {fuel : Nat} {source : String} {m : Machine H}
    (hS : ∀ span, InFunctionOf source span → S span) (hm : m.Holds S) :
    (feed fuel source m).Holds S := by
  rw [feed]
  split
  · rename_i program hprogram
    exact (Machine.holds_execute (fun span hspan => hS span ⟨program, hprogram, hspan⟩) hm fuel).1
  · exact hm

/-- **The functions of a session** are those that its sources declare. -/
theorem holds_afterRuns {runs : List (Nat × String)} {m : Machine H}
    (hS : ∀ source ∈ runs.map Prod.snd, ∀ span, InFunctionOf source span → S span)
    (hm : m.Holds S) : (afterRuns runs m).Holds S := by
  induction runs generalizing m with
  | nil => exact hm
  | cons run runs ih =>
    obtain ⟨hrun, hruns⟩ := List.forall_mem_cons.mp hS
    exact ih hruns (holds_feed hrun hm)

/-- **The fault of a session** lies in the source that was run last, or in a function of an earlier
one. -/
theorem place_of_failed {clock : Clock} {sink : Sink} {runs : List (Nat × String)} {line : String}
    {program : Program} {fuel : Nat} {fault : Located} (hprogram : parse line = .ok program)
    (h : ((afterRuns runs (.start clock sink : Machine H)).execute fuel program).1 =
      .failed fault) :
    fault.span.Within line.utf8ByteSize ∨
      ∃ source ∈ runs.map Prod.snd, InFunctionOf source fault.span := by
  have hmachine := holds_afterRuns
    (fun source hsource span hspan => ⟨source, List.mem_cons_of_mem line hsource, hspan⟩)
    (Machine.holds_start (H := H) (S := fun span =>
      ∃ source ∈ line :: runs.map Prod.snd, InFunctionOf source span) clock sink)
  obtain ⟨-, hplace⟩ := Machine.holds_execute
    (fun span hspan => ⟨line, List.mem_cons_self, program, hprogram, hspan⟩) hmachine fuel
  obtain ⟨source, hsource, hspan⟩ | houter := hplace fault h
  · obtain rfl | hsource := List.mem_cons.mp hsource
    · exact .inl hspan.within
    · exact .inr ⟨source, hsource, hspan⟩
  · exact .inl ((within_of_parse hprogram).1 _ houter)

end Session

theorem stop_le_iff_of_place {sources : List String} {length : Nat} {span : Span}
    (h : span.Within length ∨ ∃ source ∈ sources, InFunctionOf source span) :
    span.start ≤ span.stop ∧ (span.stop ≤ length ↔
      ¬ ∃ source ∈ sources, InFunctionOf source span ∧ length < span.stop) := by
  obtain hwithin | ⟨source, hsource, hspan⟩ := h
  · refine ⟨hwithin.forward, fun _ => ?_, fun _ => hwithin.bound⟩
    rintro ⟨_, _, _, hlt⟩
    exact absurd hwithin.bound (Nat.not_le.mpr hlt)
  · refine ⟨hspan.within.forward, fun hle => ?_, fun hnone => ?_⟩
    · rintro ⟨_, _, _, hlt⟩
      exact absurd hle (Nat.not_le.mpr hlt)
    · exact Nat.not_lt.mp fun hlt => hnone ⟨source, hsource, hspan, hlt⟩

/-- **When a fault lies in the line that its report shows.** The place of a fault lies in the line
that was run, unless it is in the body of a function that an earlier line declares, and ends beyond
the end of this line. This holds of runs with any fuel, and so of interactive sessions, where a line
that fails has one fault, which is reported with the line. -/
theorem fault_within_line_iff {H : Type} [Host H] [Host.Blind H] (clock : Clock) (sink : Sink)
    (line : String) :
    (∀ (earlier : List (Nat × String)) (fuel : Nat) (program : Program) (fault : Located),
      parse line = .ok program →
      ((Session.afterRuns earlier (.start clock sink : Machine H)).execute fuel program).1 =
        .failed fault →
      fault.span.start ≤ fault.span.stop ∧
        (fault.span.stop ≤ line.utf8ByteSize ↔
          ¬ ∃ source ∈ earlier.map Prod.snd, InFunctionOf source fault.span ∧
            line.utf8ByteSize < fault.span.stop)) ∧
    ∀ (earlier : List String) (outcome : Outcome) (text : String),
      (Session.enter line (Session.after earlier (.start clock sink : Machine H))).1 =
        .ran outcome text →
      outcome.status = .failed →
      ∃ fault, outcome.faults = [fault] ∧ text = report Session.inputName line [fault] ∧
        fault.span.start ≤ fault.span.stop ∧
          (fault.span.stop ≤ line.utf8ByteSize ↔
            ¬ ∃ source ∈ earlier, InFunctionOf source fault.span ∧
              line.utf8ByteSize < fault.span.stop) := by
  constructor
  · intro earlier fuel program fault hprogram hending
    exact stop_le_iff_of_place (Session.place_of_failed hprogram hending)
  · intro earlier outcome text h hstatus
    obtain ⟨program, fault, hprogram, hending, hfaults, htext⟩ := Session.enter_of_failed h hstatus
    refine ⟨fault, hfaults, htext, stop_le_iff_of_place ?_⟩
    rw [Session.after_eq_afterRuns] at hending
    have hplace := Session.place_of_failed hprogram hending
    rwa [List.map_map, show Prod.snd ∘ (Machine.ample, ·) = (id : String → String) from rfl,
      List.map_id] at hplace

/-- The machine after a line that declares a function, which fails if it is called. -/
theorem Session.after_declaration (m : Machine Empty) :
    after ["func f() \x7b return missing; \x7d"] m =
      (runProgram [.func ⟨0, 28⟩ "f" []
        [.ret ⟨11, 26⟩ (some (.ident ⟨18, 25⟩ "missing"))]] m).2 := by
  have h : parse "func f() \x7b return missing; \x7d" =
      .ok [.func ⟨0, 28⟩ "f" [] [.ret ⟨11, 26⟩ (some (.ident ⟨18, 25⟩ "missing"))]] := by
    with_unfolding_all rfl
  rw [after, List.foldl_cons, List.foldl_nil, enter_of_parse h]

/-- A call of that function fails far to the right of the end of its line. -/
theorem fault_beyond_line :
    let m : Machine Empty := .start ⟨fun _ => 0, 0⟩ (.empty none)
    let earlier := ["func f() \x7b return missing; \x7d"]
    let outcome : Outcome := ⟨.failed, "", [⟨.undefinedName "missing", ⟨18, 25⟩⟩]⟩
    (Session.enter "f();" (Session.after earlier m)).1 =
        .ran outcome (report Session.inputName "f();" outcome.faults) ∧
      ∀ fault ∈ outcome.faults, "f();".utf8ByteSize < fault.span.stop := by
  intro m earlier outcome
  have hcall : parse "f();" =
      .ok [.expr ⟨0, 4⟩ (.call ⟨0, 3⟩ ⟨2, 3⟩ (.ident ⟨0, 1⟩ "f") [])] := by with_unfolding_all rfl
  rw [Session.after_declaration, Session.enter_of_parse hcall]
  refine ⟨?_, List.forall_mem_singleton.mpr (by decide)⟩
  have hrun : (Session.runProgram [.expr ⟨0, 4⟩ (.call ⟨0, 3⟩ ⟨2, 3⟩ (.ident ⟨0, 1⟩ "f") [])]
      (Session.runProgram [.func ⟨0, 28⟩ "f" []
        [.ret ⟨11, 26⟩ (some (.ident ⟨18, 25⟩ "missing"))]] m).2).1 = outcome := by decide +kernel
  rw [hrun]

/-- A call of that function with an argument fails in its own line, with little fuel as well as in
an interactive session. -/
theorem fault_within_line_iff_arity :
    let m : Machine Empty := .start ⟨fun _ => 0, 0⟩ (.empty none)
    let declaration := "func f() \x7b return missing; \x7d"
    let call : Program :=
      [.expr ⟨0, 7⟩ (.call ⟨0, 6⟩ ⟨5, 6⟩ (.ident ⟨0, 1⟩ "f") [.literal ⟨2, 5⟩ .nil])]
    let failure : Located := ⟨.arityMismatch 0 1, ⟨5, 6⟩⟩
    let outcome : Outcome := ⟨.failed, "", [failure]⟩
    let text := report Session.inputName "f(nil);" outcome.faults
    (parse "f(nil);" = .ok call ∧
      ((Session.afterRuns [(1, declaration)] m).execute 2 call).1 = .failed failure ∧
      failure.span.start ≤ failure.span.stop ∧
        (failure.span.stop ≤ "f(nil);".utf8ByteSize ↔
          ¬ ∃ source ∈ [declaration], InFunctionOf source failure.span ∧
            "f(nil);".utf8ByteSize < failure.span.stop)) ∧
    (Session.enter "f(nil);" (Session.after [declaration] m)).1 = .ran outcome text ∧
      outcome.status = .failed ∧
      ∃ fault, outcome.faults = [fault] ∧ text = report Session.inputName "f(nil);" [fault] ∧
        fault.span.start ≤ fault.span.stop ∧
          (fault.span.stop ≤ "f(nil);".utf8ByteSize ↔
            ¬ ∃ source ∈ [declaration], InFunctionOf source fault.span ∧
              "f(nil);".utf8ByteSize < fault.span.stop) := by
  intro m declaration call failure outcome text
  have hcall : parse "f(nil);" = .ok call := by with_unfolding_all rfl
  have hrun : ((Session.afterRuns [(1, declaration)] m).execute 2 call).1 = .failed failure := by
    decide +kernel
  have hsession : (Session.runProgram call (Session.runProgram [.func ⟨0, 28⟩ "f" []
      [.ret ⟨11, 26⟩ (some (.ident ⟨18, 25⟩ "missing"))]] m).2).1 = outcome := by decide +kernel
  have henter : (Session.enter "f(nil);" (Session.after [declaration] m)).1 =
      .ran outcome text := by
    rw [Session.after_declaration, Session.enter_of_parse hcall, hsession]
  obtain ⟨hany, hinteractive⟩ := fault_within_line_iff (H := Empty) ⟨fun _ => 0, 0⟩ (.empty none)
    "f(nil);"
  exact ⟨⟨hcall, hrun, hany [(1, declaration)] 2 call failure hcall hrun⟩, henter, rfl,
    hinteractive [declaration] outcome text henter rfl⟩

end BlockScript
