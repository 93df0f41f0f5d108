import BlockScript.Proofs.Simulation

/-!
# Evaluation is blind to places

Two programs that differ in their places only do the same on machines that differ in places only.
They write the same, read the clock equally often and end in the same way, and if one of them stops
with a fault so does the other, with the same fault at the place that corresponds.

The machines' part is `Machine.Alike`: the functions in their scopes have alike bodies, and
everything else in them is the same. Being alike is a correspondence (`Machine.blindness`), in which
scopes have the same numbers on both sides, so nothing depends on the world.

Host functions are not written in the language, and a value that is passed to one may be a function
with places in it. `Host.Blind` asks that they do not look at those.

## Main definitions

* `Value.Alike`, `Machine.Alike` — values and machines that differ in places only
* `Host.Blind` — host functions that do not look at places

## Main results

* `Machine.blindness` — to be alike is a correspondence
* `Machine.execute_alike` — running programs that are alike
-/

namespace BlockScript

variable {H : Type} {R Q : Span → Span → Prop}

/-! ## Values -/

/-- The functions are the same but for the places in their bodies. -/
structure Closure.Alike (R : Span → Span → Prop) (c c' : Closure) : Prop where
  name : c.name = c'.name
  params : c.params = c'.params
  body : List.Forall₂ (Stmt.Alike R R) c.body c'.body
  scope : c.scope = c'.scope

/-- The values are the same but for the places in the bodies of functions. -/
inductive Value.Alike (R : Span → Span → Prop) : Value H → Value H → Prop where
  | nil : Alike R .nil .nil
  | bool (value : Bool) : Alike R (.bool value) (.bool value)
  | number (value : Float) : Alike R (.number value) (.number value)
  | text (value : String) : Alike R (.text value) (.text value)
  | function (id : Nat) {c c' : Closure} (h : c.Alike R c') :
      Alike R (.function id c) (.function id c')
  | native (id : Nat) (fn : Native H) : Alike R (.native id fn) (.native id fn)

/-- Values that are alike look the same. -/
theorem Value.likeness_alike (R : Span → Span → Prop) :
    Value.Likeness (Value.Alike R : Value H → Value H → Prop) where
  nil := .nil
  bool := .bool
  number := .number
  text := .text
  looks h := by
    cases h with
    | nil => exact .nil
    | bool value => exact .bool value
    | number value => exact .number value
    | text value => exact .text value
    | function id h => exact .function id id h.name h.params
    | native id fn => exact .native id id fn
  same_eq h hw := by cases h <;> cases hw <;> rfl

/-- Host functions that do not look at the places in the functions they are given. -/
class Host.Blind (H : Type) [Host H] : Prop where
  call_alike : ∀ (R : Span → Span → Prop) (function : H) (args args' : List (Value H)),
    List.Forall₂ (Value.Alike R) args args' →
      SameFault (Value.Alike R) (Host.call function args) (Host.call function args')

instance : Host.Blind Empty := ⟨fun _ function => nomatch function⟩

instance : Host.Blind BasicFunction :=
  ⟨fun R function _ _ h => (Value.likeness_alike R).call function h⟩

/-! ## Scopes -/

/-- The scopes bind the same names, to values that are alike. -/
structure Scope.Alike (R : Span → Span → Prop) (s s' : Scope H) : Prop where
  parent : s.parent = s'.parent
  vars : SameNames (Value.Alike R) s.vars s'.vars

/-- The stores have alike scopes under the same numbers. -/
structure Scopes.Alike (R : Span → Span → Prop) (s s' : Scopes H) : Prop where
  size : s.cells.size = s'.cells.size
  cells : ∀ i : Nat, Option.Rel (Scope.Alike R) s.cells[i]? s'.cells[i]?

namespace Scopes.Alike

variable {s s' : Scopes H}

theorem push (h : Scopes.Alike R s s') (parent : Option ScopeId) :
    Scopes.Alike R (s.push parent) (s'.push parent) := by
  refine ⟨by simp [Scopes.push, h.size], fun i => ?_⟩
  simp only [Scopes.push, Array.getElem?_push, h.size]
  split
  · exact .some ⟨rfl, .nil⟩
  · exact h.cells i

theorem define (h : Scopes.Alike R s s') (id : ScopeId) (name : String) {v v' : Value H}
    (hv : Value.Alike R v v') : Scopes.Alike R (s.define id name v) (s'.define id name v') := by
  refine ⟨by simp [Scopes.define, h.size], fun i => ?_⟩
  simp only [Scopes.define, Array.getElem?_modify]
  split
  · have hcell := h.cells i
    generalize s.cells[i]? = cell, s'.cells[i]? = cell' at hcell
    cases hcell with
    | none => exact .none
    | some hscope => exact .some ⟨hscope.parent, Scope.put_of_sameNames hscope.vars name hv⟩
  · exact h.cells i

theorem resolve_eq (h : Scopes.Alike R s s') (id : ScopeId) (name : String) :
    s.resolve id name = s'.resolve id name := by
  have key : ∀ (steps : Nat) (id : ScopeId),
      s.resolveWithin name steps id = s'.resolveWithin name steps id := by
    intro steps
    induction steps with
    | zero => exact fun _ => rfl
    | succ steps ih =>
      intro id
      rw [Scopes.resolveWithin, Scopes.resolveWithin]
      have hcell := h.cells id
      generalize s.cells[id]? = cell, s'.cells[id]? = cell' at hcell
      cases hcell with
      | none => rfl
      | some hscope =>
        simp only [Scope.binds_eq_of_sameNames hscope.vars, hscope.parent, ih]
  exact key (id + 1) id

theorem get? (h : Scopes.Alike R s s') (id : ScopeId) (name : String) :
    Option.Rel (Value.Alike R) (s.get? id name) (s'.get? id name) := by
  simp only [Scopes.get?, h.resolve_eq]
  cases s'.resolve id name with
  | none => exact .none
  | some owner =>
    have hcell := h.cells owner
    generalize hs : s.cells[owner]? = cell, hs' : s'.cells[owner]? = cell' at hcell
    cases hcell with
    | none => simp only [Option.bind_eq_bind, Option.bind_some, hs, hs']; exact .none
    | some hscope =>
      simp only [Option.bind_eq_bind, Option.bind_some, hs, hs']
      exact Scope.get?_of_sameNames hscope.vars name

end Scopes.Alike

/-! ## Machines -/

/-- The machines are the same but for the places in the bodies of functions. -/
structure Machine.Alike (R : Span → Span → Prop) (m m' : Machine H) : Prop where
  scopes : Scopes.Alike R m.scopes m'.scopes
  globals : m.globals = m'.globals
  functionsMade : m.functionsMade = m'.functionsMade
  nativesMade : m.nativesMade = m'.nativesMade
  clock : m.clock = m'.clock
  sink : m.sink = m'.sink

section

variable [Host H] [Host.Blind H]

/-- **To be alike is a correspondence.** -/
def Machine.blindness (R : Span → Span → Prop) : Correspondence H where
  World := Unit
  Later _ _ := True
  places := R
  names _ := True
  scope _ s s' := s = s'
  home _ s s' := s = s'
  value _ := Value.Alike R
  machine _ := Machine.Alike R
  later_refl _ := trivial
  later_trans _ _ := trivial
  scope_later _ h := h
  home_later _ h := h
  scope_of_home h := h
  value_later _ h := h
  likeness _ := Value.likeness_alike R
  body h := by
    cases h with
    | function id h => exact ⟨h.body, h.scope, fun _ _ => trivial⟩
  host function h := Host.Blind.call_alike R function _ _ h
  newScope hm hs := by
    subst hs
    exact ⟨(), trivial, hm.scopes.size, { hm with scopes := hm.scopes.push _ }⟩
  define name _ hm hs hv := by
    subst hs
    exact ⟨(), trivial, { hm with scopes := hm.scopes.define _ name hv }⟩
  assign name _ hm hs hv := by
    subst hs
    refine optionRel_of_eq (fun owner => ?_) (hm.scopes.resolve_eq _ name)
    exact ⟨(), trivial, { hm with scopes := hm.scopes.define owner name hv }⟩
  get? name _ hm hs := by
    subst hs
    exact hm.scopes.get? _ name
  makeFunction name params _ hm hs hbody := by
    rw [hm.functionsMade]
    exact ⟨(), trivial, .function _ ⟨rfl, rfl, hbody, hs⟩, { hm with functionsMade := rfl }⟩
  readClock hm := by
    rw [hm.clock]
    exact ⟨rfl, (), trivial, { hm with clock := rfl }⟩
  write text hm := by
    rw [hm.sink]
    exact ⟨rfl, (), trivial, { hm with sink := rfl }⟩

/-- **Running programs that are alike on machines that are alike.** -/
theorem Machine.execute_alike (hRQ : ∀ span span', R span span' → Q span span') (fuel : Nat)
    {program program' : Program} (hprogram : List.Forall₂ (Stmt.Alike R Q) program program')
    {m m' : Machine H} (hm : m.Alike R m') :
    (m.execute fuel program).1.Alike Q (m'.execute fuel program').1 ∧
      (m.execute fuel program).2.Alike R (m'.execute fuel program').2 := by
  obtain ⟨hending, _, _, hmachine⟩ :=
    (blindness R).execute hRQ fuel hprogram (fun _ _ => trivial) (w := ()) hm hm.globals
  exact ⟨hending, hmachine⟩

end

end BlockScript
