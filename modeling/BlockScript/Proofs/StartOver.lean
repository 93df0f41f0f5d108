import BlockScript.Proofs.InPieces
import BlockScript.Proofs.Renaming

/-!
# Starting over

A machine that was reset does what a new one does, whatever was done with it before: each program
that is run on it ends with the same outcome, which is what it writes, how it ends and where it
fails. This is so for any number of programs one after the other, and natives can be defined between
them.

After a reset the old scopes are still there, and so are the numbers that were given out. But the
new global scope is empty, so nothing that is reached from it was there before, and the machine
differs from a new one in numbers only (`Machine.renamed_start`).

## Main definitions

* `Session.Step` — what can be done with a machine from outside
* `Session.outcomes` — the outcomes of steps that are taken one after the other

## Main results

* `Session.take_renamed`, `Session.outcomes_renamed` — steps on machines that differ in numbers only
* `outcomes_reset` — a machine that was reset does what a new one does
-/

namespace BlockScript

variable {H : Type} [Host H]

/-! ## What was written -/

/-- Between two moments both sinks were written the same. -/
theorem Sink.Renamed.textFrom_eq {o : Offset} {before before' after after' : Sink}
    (h : Sink.Renamed o before before') (hafter : Sink.Renamed o after after') :
    after.textFrom before.written.size = after'.textFrom before'.written.size := by
  obtain ⟨bytes, hbefore, hbefore'⟩ := h.written
  obtain ⟨all, hwritten, hwritten'⟩ := hafter.written
  rw [Sink.textFrom, Sink.textFrom, hbefore, hbefore', hwritten, hwritten']
  simp only [ByteArray.size_append, ByteArray.extract_append_size_add]

namespace Session

/-! ## Steps -/

/-- What can be done with a machine from outside. -/
inductive Step (H : Type) where
  | run (fuel : Nat) (program : Program)
  | define (native : Native H)
  | reset

/-- Takes a step. Only a run has an outcome. -/
def Step.take : Step H → Machine H → Option Outcome × Machine H
  | .run fuel program, m =>
    let (outcome, m) := runWith fuel program m
    (some outcome, m)
  | .define native, m => (none, m.defineNative native)
  | .reset, m => (none, m.reset)

/-- The outcomes of steps that are taken one after the other. -/
def outcomes : List (Step H) → Machine H → List (Option Outcome)
  | [], _ => []
  | step :: steps, m => (step.take m).1 :: outcomes steps (step.take m).2

/-- The machine after steps that are taken one after the other. -/
def afterSteps (steps : List (Step H)) (m : Machine H) : Machine H :=
  steps.foldl (fun m step => (step.take m).2) m

/-- No step changes the limit of the output. -/
theorem limit_take (step : Step H) (m : Machine H) :
    (step.take m).2.sink.limit = m.sink.limit := by
  cases step with
  | run fuel program =>
    show (runWith fuel program m).2.sink.limit = m.sink.limit
    rw [runWith_snd]
    exact (m.reaches_execute fuel program).limit_eq
  | define native => rfl
  | reset => rfl

theorem limit_afterSteps (steps : List (Step H)) (m : Machine H) :
    (afterSteps steps m).sink.limit = m.sink.limit := by
  induction steps generalizing m with
  | nil => rfl
  | cons step steps ih => exact (ih (step.take m).2).trans (limit_take step m)

/-! ## Steps on machines that differ in numbers only -/

variable [Host.Uniform H] {o : Offset} {bound : Nat} {m m' : Machine H}

theorem runWith_renamed (fuel : Nat) (program : Program) (h : m.Renamed o bound m') :
    (runWith fuel program m).1 = (runWith fuel program m').1 ∧
      ∃ bound', (runWith fuel program m).2.Renamed o bound' (runWith fuel program m').2 := by
  obtain ⟨hending, bound', hmachine⟩ := Machine.execute_renamed fuel program h
  rw [runWith_snd, runWith_snd]
  exact ⟨runWith_fst_eq hending (h.sink.textFrom_eq hmachine.sink), bound', hmachine⟩

/-- **One step** has the same outcome and leaves machines that differ in numbers only. -/
theorem take_renamed (step : Step H) (h : m.Renamed o bound m') :
    (step.take m).1 = (step.take m').1 ∧
      ∃ bound', (step.take m).2.Renamed o bound' (step.take m').2 := by
  cases step with
  | run fuel program =>
    obtain ⟨houtcome, hmachine⟩ := runWith_renamed fuel program h
    exact ⟨congrArg some houtcome, hmachine⟩
  | define native => exact ⟨rfl, bound, h.defineNative native⟩
  | reset => exact ⟨rfl, bound + 1, h.reset⟩

/-- **Any number of steps** have the same outcomes. -/
theorem outcomes_renamed (steps : List (Step H)) (h : m.Renamed o bound m') :
    outcomes steps m = outcomes steps m' := by
  induction steps generalizing bound m m' with
  | nil => rfl
  | cons step steps ih =>
    obtain ⟨houtcome, bound', hmachine⟩ := take_renamed step h
    rw [outcomes, outcomes, houtcome, ih hmachine]

end Session

/-- **A machine that was reset does what a new one does.** Whatever steps were taken on a machine
without an output limit, once it is reset all further steps have the outcomes that they have on a
new machine whose clock goes on from there. -/
theorem outcomes_reset {H : Type} [Host H] [Host.Uniform H] (clock : Clock)
    (history further : List (Session.Step H)) :
    let used : Machine H := Session.afterSteps history (.start clock (.empty none))
    Session.outcomes further used.reset =
      Session.outcomes further (.start used.clock (.empty none)) := by
  intro used
  have hlimit : used.sink.limit = none := Session.limit_afterSteps history _
  have hrenamed : (Machine.start used.clock (.empty none)).Renamed _ 1 used.reset :=
    Machine.renamed_start rfl hlimit
  exact (Session.outcomes_renamed further hrenamed).symm

/-- A name that was declared before the reset is not known after it. -/
theorem outcomes_reset_name :
    let name : Program := [.print ⟨0, 8⟩ (.ident ⟨6, 7⟩ "x")]
    let history : List (Session.Step BasicFunction) :=
      [.run 1 [.var ⟨0, 11⟩ "x" (some (.literal ⟨8, 10⟩ .nil))], .define (.host .twice)]
    let further : List (Session.Step BasicFunction) := [.run 1 name]
    let used := Session.afterSteps history (.start ⟨fun _ => 0, 0⟩ (.empty none))
    Session.outcomes further used.reset =
        Session.outcomes further (.start used.clock (.empty none)) ∧
      (Session.runWith 1 name used).1.status = .finished ∧
      (Session.runWith 1 name used.reset).1.faults = [⟨.undefinedName "x", ⟨6, 7⟩⟩] :=
  ⟨outcomes_reset _ _ _, rfl, rfl⟩

end BlockScript
