import Mathlib.Logic.Relation
import BlockScript.Proofs.Simulation

/-!
# What evaluation can do to a machine

Whatever a program does, it does to the machine by a few elementary changes: it opens a scope,
declares a name, gives a name that is there another value, makes a function, reads the clock or
writes a text. `Machine.Change` lists them, and `Machine.Reaches` is any number of them in a row.
Every run leaves a machine that is reached from the one it began with, however it ends.

So a property that no elementary change disturbs holds at the end of a run if it held at the
beginning. Two such properties are that the global scope stays the same one, and that the output
keeps its limit.

The changes are counted from a scope on: before it, no name is declared. An expression declares
names in the scopes only that it opens, and so does a statement, unless it may declare one where it
stands (`Stmt.binds`).

A run corresponds to itself, and the worlds it goes through can be taken to be the machines. So this
needs no second look at evaluation.

## Main definitions

* `Machine.Change`, `Machine.Reaches` — elementary changes, and sequences of them

## Main results

* `Machine.changing` — the correspondence of a run with itself
* `Machine.reaches_evalExpr`, `Machine.reaches_execStmt` — evaluation is a sequence of elementary
  changes, in which no name is declared in a scope that was there before
* `Machine.reaches_execute` — so is the run of a program, in which names may be declared anywhere
-/

namespace BlockScript

variable {H : Type} {n : Nat}

namespace Machine

/-- The elementary changes of a machine. Names are declared in scopes from the number `n` on. -/
inductive Change (n : Nat) : Machine H → Machine H → Prop where
  | newScope (m : Machine H) (parent : Option ScopeId) :
      Change n m { m with scopes := m.scopes.push parent }
  | define (m : Machine H) {scope : ScopeId} (hscope : n ≤ scope) (name : String)
      (value : Value H) : Change n m { m with scopes := m.scopes.define scope name value }
  | assign (m : Machine H) {scope owner : ScopeId} {name : String}
      (howner : m.scopes.resolve scope name = some owner) (value : Value H) :
      Change n m { m with scopes := m.scopes.define owner name value }
  | makeFunction (m : Machine H) : Change n m { m with functionsMade := m.functionsMade + 1 }
  | readClock (m : Machine H) :
      Change n m { m with clock := { m.clock with readings := m.clock.readings + 1 } }
  | write (m : Machine H) (text : String) : Change n m { m with sink := m.sink.write text }

/-- Some number of elementary changes lead from one machine to the other. -/
def Reaches (n : Nat) : Machine H → Machine H → Prop := Relation.ReflTransGen (Change n)

namespace Reaches

variable {m m' : Machine H}

theorem single (h : Change n m m') : m.Reaches n m' := Relation.ReflTransGen.single h

/-- What no elementary change alters is the same at the end. -/
theorem eq_of_change {α : Type} {f : Machine H → α} (hf : ∀ m m', Change n m m' → f m' = f m)
    (h : m.Reaches n m') : f m' = f m := by
  induction h with
  | refl => rfl
  | tail _ hchange ih => rw [hf _ _ hchange, ih]

/-- The global scope stays the same one. -/
theorem globals_eq (h : m.Reaches n m') : m'.globals = m.globals := by
  refine h.eq_of_change (f := Machine.globals) fun m m' hchange => ?_
  cases hchange <;> rfl

/-- The output keeps its limit. -/
theorem limit_eq (h : m.Reaches n m') : m'.sink.limit = m.sink.limit := by
  refine h.eq_of_change (f := fun m => m.sink.limit) fun m m' hchange => ?_
  cases hchange <;> rfl

end Reaches

variable [Host H]

/-- The correspondence of a run with itself. -/
def changing (n : Nat) : Correspondence H where
  World := Machine H
  Later := Reaches n
  places span span' := span = span'
  names _ := True
  scope _ s s' := s = s'
  home _ s s' := s = s' ∧ n ≤ s
  value _ v v' := v = v'
  machine w m m' := m = w ∧ m' = w ∧ n ≤ w.scopes.cells.size
  later_refl _ := .refl
  later_trans h h' := h.trans h'
  scope_later _ h := h
  home_later _ h := h
  scope_of_home h := h.1
  value_later _ h := h
  likeness _ :=
    { nil := rfl
      bool := fun _ => rfl
      number := fun _ => rfl
      text := fun _ => rfl
      looks := fun {v _} h => h ▸ .refl v
      same_eq := fun h hw => h ▸ hw ▸ rfl }
  body h := by
    injection h with _ h
    subst h
    exact ⟨List.forall₂_same.mpr fun s _ => s.alike_self (fun _ _ => rfl) fun _ _ => rfl, rfl,
      fun _ _ => trivial⟩
  host function h := by
    rw [List.forall₂_eq_eq_eq] at h
    subst h
    exact .refl (fun _ => rfl) _
  newScope h hs := by
    obtain ⟨rfl, rfl, hsize⟩ := h
    subst hs
    refine ⟨_, .single (.newScope _ _), ⟨rfl, hsize⟩, rfl, rfl, ?_⟩
    simpa [Scopes.push] using Nat.le_succ_of_le hsize
  define name _ h hs hv := by
    obtain ⟨rfl, rfl, hsize⟩ := h
    obtain ⟨rfl, hs⟩ := hs
    subst hv
    exact ⟨_, .single (.define _ hs name _), rfl, rfl, by simpa [Scopes.define] using hsize⟩
  assign {w m m' s s' v v'} name _ h hs hv := by
    obtain ⟨rfl, rfl, hsize⟩ := h
    subst hs hv
    cases howner : m'.scopes.resolve s name with
    | none => exact .none
    | some owner =>
      exact .some ⟨_, .single (.assign _ howner _), rfl, rfl, by
        simpa [Scopes.define] using hsize⟩
  get? name _ h hs := by
    obtain ⟨rfl, rfl, -⟩ := h
    subst hs
    exact optionRel_of_eq (fun _ => rfl) rfl
  makeFunction name params _ h hs hbody := by
    obtain ⟨rfl, rfl, hsize⟩ := h
    subst hs
    have hsame := hbody.imp fun _ _ h => Stmt.eq_of_alike (fun _ _ h => h) h fun _ _ h => h
    rw [List.forall₂_eq_eq_eq] at hsame
    subst hsame
    exact ⟨_, .single (.makeFunction _), rfl, rfl, rfl, hsize⟩
  readClock h := by
    obtain ⟨rfl, rfl, hsize⟩ := h
    exact ⟨rfl, _, .single (.readClock _), rfl, rfl, hsize⟩
  write text h := by
    obtain ⟨rfl, rfl, hsize⟩ := h
    exact ⟨rfl, _, .single (.write _ text), rfl, rfl, hsize⟩

/-- The machine that an action left. -/
def after {α : Type} : EStateM.Result Stop (Machine H) α → Machine H
  | .ok _ m | .error _ m => m

omit [Host H] in
@[simp] theorem after_ok {α : Type} (a : α) (m : Machine H) :
    after (.ok a m : EStateM.Result Stop (Machine H) α) = m := rfl

omit [Host H] in
@[simp] theorem after_error {α : Type} (stop : Stop) (m : Machine H) :
    after (.error stop m : EStateM.Result Stop (Machine H) α) = m := rfl

theorem execute_snd (fuel : Nat) (program : Program) (m : Machine H) :
    (m.execute fuel program).2 = after (execAll (callWith fuel) fuel m.globals program m) := by
  rw [execute]
  split <;> next h => rw [h]; rfl

theorem reaches_of_agree {Q : Span → Span → Prop} {α : Type}
    {V : (changing n (H := H)).World → α → α → Prop} {m : Machine H}
    {r r' : EStateM.Result Stop (Machine H) α} (h : (changing n).Agree Q V m r r') :
    m.Reaches n (after r) := by
  cases h with
  | ok hw _ hm => exact hm.1 ▸ hw
  | error hw _ hm => exact hm.1 ▸ hw

theorem callsAgree_changing (n fuel : Nat) :
    (changing n).CallsAgree (· = ·) (callWith fuel : Call H) (callWith fuel) :=
  Correspondence.callsAgree_callWith (fun _ _ h => h) fuel

/-- **The value of an expression** is found without a declaration in any scope that is there. -/
theorem reaches_evalExpr (fuel : Nat) (scope : ScopeId) (e : Expr) (m : Machine H) :
    m.Reaches m.scopes.cells.size (after (evalExpr (callWith fuel) scope e m)) := by
  have halike : Expr.Alike (· = ·) e e := e.alike_self fun _ _ => rfl
  exact reaches_of_agree (Correspondence.simulates_evalExpr (callsAgree_changing _ fuel) halike
    (fun _ _ => trivial) (w := m) rfl m m ⟨rfl, rfl, Nat.le_refl _⟩)

/-- **A statement** that declares no name where it stands is run without a declaration in any scope
that is there. -/
theorem reaches_execStmt (fuel turns : Nat) (scope : ScopeId) {s : Stmt} (hs : s.binds = false)
    (m : Machine H) :
    m.Reaches m.scopes.cells.size (after (execStmt (callWith fuel) turns scope s m)) := by
  have halike : Stmt.Alike (· = ·) (· = ·) s s := s.alike_self (fun _ _ => rfl) fun _ _ => rfl
  have hhome : s.binds = true → (changing m.scopes.cells.size).home m scope scope :=
    fun h => absurd (hs.symm.trans h) Bool.false_ne_true
  exact reaches_of_agree (Correspondence.simulates_execStmt turns halike (fun _ _ => trivial)
    (callsAgree_changing _ fuel) (w := m) rfl hhome m m ⟨rfl, rfl, Nat.le_refl _⟩)

/-- **The run of a program** leaves a machine that is reached from the one before. -/
theorem reaches_execute (fuel : Nat) (program : Program) (m : Machine H) :
    m.Reaches 0 (m.execute fuel program).2 := by
  have hprogram : List.Forall₂ (Stmt.Alike (· = ·) (· = ·)) program program :=
    List.forall₂_same.mpr fun s _ => s.alike_self (fun _ _ => rfl) fun _ _ => rfl
  obtain ⟨-, w, hreaches, hw, -⟩ := (changing 0).execute (fun _ _ h => h) fuel hprogram
    (fun _ _ => trivial) (w := m) ⟨rfl, rfl, Nat.zero_le _⟩ ⟨rfl, Nat.zero_le _⟩
  exact hw ▸ hreaches

end Machine

end BlockScript
