/-!
# Room for deep recursion

A call in the language is a call of the evaluator, so deep recursion in a program needs a deep
stack. `roomy` continues a computation on a stack of its own at every so many levels. It only
changes where the computation runs: `roomy_eq` says that its value is the same.
-/

namespace BlockScript

namespace Machine

/-- The number of nested calls that share one stack. -/
def callsPerStack : Nat := 4096

/-- Runs `f` on `a`, on a new stack if `level` is a multiple of `callsPerStack`. -/
def roomy {α β : Type} (level : Nat) (f : α → β) (a : α) : β :=
  if level % callsPerStack = 0 then (Task.spawn (fun _ => f a) .dedicated).get else f a

@[simp] theorem roomy_eq {α β : Type} (level : Nat) (f : α → β) (a : α) :
    roomy level f a = f a := by
  unfold roomy
  split <;> rfl

end Machine

end BlockScript
