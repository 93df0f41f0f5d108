import BlockScript.Proofs.Changes
import BlockScript.Proofs.Simulation

/-!
# Numbers do not matter

Scopes, functions and natives are told apart by numbers, which are given out in the order they are
made. A machine that has made some of them before gives out other numbers than a new one, but it
gives them out in the same order: the numbers on both sides always differ by the same amounts. What
was made before is still there, but if nothing refers to it then it does not matter.

So two machines correspond if one of them holds what the other one does, moved up by a fixed offset
(`Machine.Renamed`). Machines that correspond do the same, write the same and end with the same
faults at the same places.

A name is looked for in as many scopes as the number of the scope it is used in allows. On the side
with the higher numbers this is more, and it makes no difference because a parent is always older
than its children. That is why the relation also says of all scopes that are referred to that they
exist: a bound on their numbers is what the worlds of the correspondence are.

## Main definitions

* `Offset` — how far two machines are apart
* `Value.Renamed`, `Machine.Renamed` — values and machines that differ in numbers only
* `Host.Uniform` — host functions that do not look at numbers

## Main results

* `Machine.uniformity` — to differ in numbers only is a correspondence
* `Machine.execute_renamed` — running a program on machines that differ in numbers only
* `Machine.renamed_reset` — a machine that was reset differs from a new one in numbers only
-/

namespace BlockScript

variable {H : Type}

/-- How far the numbers of one machine are above those of another one, and what each of them wrote
before they began to do the same. -/
structure Offset where
  scopes : Nat
  functions : Nat
  natives : Nat
  written : ByteArray
  written' : ByteArray

variable {o : Offset} {bound : Nat}

/-! ## Values -/

/-- The values are the same but for the numbers, and functions belong to scopes below the bound. -/
inductive Value.Renamed (o : Offset) (bound : Nat) : Value H → Value H → Prop where
  | nil : Renamed o bound .nil .nil
  | bool (value : Bool) : Renamed o bound (.bool value) (.bool value)
  | number (value : Float) : Renamed o bound (.number value) (.number value)
  | text (value : String) : Renamed o bound (.text value) (.text value)
  | function (id : Nat) (name : String) (params : List String) (body : List Stmt) {scope : ScopeId}
      (h : scope < bound) :
      Renamed o bound (.function id ⟨name, params, body, scope⟩)
        (.function (id + o.functions) ⟨name, params, body, scope + o.scopes⟩)
  | native (id : Nat) (fn : Native H) :
      Renamed o bound (.native id fn) (.native (id + o.natives) fn)

theorem Value.Renamed.mono {bound' : Nat} {v v' : Value H} (h : Value.Renamed o bound v v')
    (hbound : bound ≤ bound') : Value.Renamed o bound' v v' := by
  cases h with
  | nil => exact .nil
  | bool value => exact .bool value
  | number value => exact .number value
  | text value => exact .text value
  | function id name params body h =>
    exact .function id name params body (Nat.lt_of_lt_of_le h hbound)
  | native id fn => exact .native id fn

/-- Values that differ in numbers only look the same. -/
theorem Value.likeness_renamed (o : Offset) (bound : Nat) :
    Value.Likeness (Value.Renamed o bound : Value H → Value H → Prop) where
  nil := .nil
  bool := .bool
  number := .number
  text := .text
  looks h := by
    cases h with
    | nil => exact .nil
    | bool value => exact .bool value
    | number value => exact .number value
    | text value => exact .text value
    | function id name params body _ => exact .function _ _ rfl rfl
    | native id fn => exact .native _ _ fn
  same_eq h hw := by cases h <;> cases hw <;> simp [Value.same]

/-- Host functions that do not look at the numbers of what they are given. -/
class Host.Uniform (H : Type) [Host H] : Prop where
  call_renamed : ∀ (o : Offset) (bound : Nat) (function : H) (args args' : List (Value H)),
    List.Forall₂ (Value.Renamed o bound) args args' →
      SameFault (Value.Renamed o bound) (Host.call function args) (Host.call function args')

instance : Host.Uniform Empty := ⟨fun _ _ function => nomatch function⟩

instance : Host.Uniform BasicFunction :=
  ⟨fun o bound function _ _ h => (Value.likeness_renamed o bound).call function h⟩

/-! ## Scopes -/

/-- The scopes, of which the first has the number `id`, are the same but for numbers. -/
structure Scope.Renamed (o : Offset) (bound : Nat) (id : ScopeId) (s s' : Scope H) : Prop where
  parent : s'.parent = s.parent.map (· + o.scopes)
  older : ∀ parent ∈ s.parent, parent < id
  vars : SameNames (Value.Renamed o bound) s.vars s'.vars

theorem Scope.Renamed.mono {bound' : Nat} {id : ScopeId} {s s' : Scope H}
    (h : Scope.Renamed o bound id s s') (hbound : bound ≤ bound') :
    Scope.Renamed o bound' id s s' :=
  ⟨h.parent, h.older, h.vars.imp fun _ _ hvar => ⟨hvar.1, hvar.2.mono hbound⟩⟩

/-- The first store has as many scopes as the bound says, and the second one has the same scopes
after its own. -/
structure Scopes.Renamed (o : Offset) (bound : Nat) (s s' : Scopes H) : Prop where
  size : s.cells.size = bound
  size' : s'.cells.size = bound + o.scopes
  cells : ∀ i : Nat, Option.Rel (Scope.Renamed o bound i) s.cells[i]? s'.cells[i + o.scopes]?

/-- The scopes have corresponding numbers. -/
def ScopeId.Renamed (o : Offset) (bound : Nat) (id id' : ScopeId) : Prop :=
  id < bound ∧ id' = id + o.scopes

namespace Scopes.Renamed

variable {s s' : Scopes H} {id id' : ScopeId}

theorem push (h : Scopes.Renamed o bound s s') {parent : Option ScopeId}
    (hparent : ∀ id ∈ parent, id < bound) :
    Scopes.Renamed o (bound + 1) (s.push parent) (s'.push (parent.map (· + o.scopes))) := by
  refine ⟨by simp [Scopes.push, h.size], by simp [Scopes.push, h.size']; omega, fun i => ?_⟩
  simp only [Scopes.push, Array.getElem?_push, h.size, h.size', Nat.add_right_cancel_iff]
  split
  · rename_i hi
    exact .some ⟨rfl, hi ▸ hparent, .nil⟩
  · have hcell := h.cells i
    generalize s.cells[i]? = cell, s'.cells[i + o.scopes]? = cell' at hcell
    cases hcell with
    | none => exact .none
    | some hscope => exact .some (hscope.mono (Nat.le_succ bound))

theorem next (h : Scopes.Renamed o bound s s') :
    ScopeId.Renamed o (bound + 1) s.next s'.next := by
  rw [Scopes.next, Scopes.next, h.size, h.size']
  exact ⟨Nat.lt_succ_self bound, rfl⟩

theorem define (h : Scopes.Renamed o bound s s') (hid : ScopeId.Renamed o bound id id')
    (name : String) {v v' : Value H} (hv : Value.Renamed o bound v v') :
    Scopes.Renamed o bound (s.define id name v) (s'.define id' name v') := by
  obtain ⟨-, rfl⟩ := hid
  refine ⟨by simp [Scopes.define, h.size], by simp [Scopes.define, h.size'], fun i => ?_⟩
  simp only [Scopes.define, Array.getElem?_modify, Nat.add_right_cancel_iff]
  have hcell := h.cells i
  split
  · generalize s.cells[i]? = cell, s'.cells[i + o.scopes]? = cell' at hcell
    cases hcell with
    | none => exact .none
    | some hscope =>
      exact .some ⟨hscope.parent, hscope.older, Scope.put_of_sameNames hscope.vars name hv⟩
  · exact hcell

/-- If there are enough steps to go through all older scopes, it does not matter how many. -/
theorem resolveWithin (h : Scopes.Renamed o bound s s') (name : String) {steps steps' : Nat}
    (hsteps : id < steps) (hsteps' : id < steps') :
    Option.Rel (ScopeId.Renamed o bound) (s.resolveWithin name steps id)
      (s'.resolveWithin name steps' (id + o.scopes)) := by
  induction steps generalizing steps' id with
  | zero => exact absurd hsteps (Nat.not_lt_zero id)
  | succ steps ih =>
    cases steps' with
    | zero => exact absurd hsteps' (Nat.not_lt_zero id)
    | succ steps' =>
      rw [Scopes.resolveWithin, Scopes.resolveWithin]
      have hcell := h.cells id
      generalize hs : s.cells[id]? = cell, s'.cells[id + o.scopes]? = cell' at hcell
      cases hcell with
      | none => exact .none
      | @some scope scope' hscope =>
        simp only [Scope.binds_eq_of_sameNames hscope.vars, hscope.parent]
        split
        · refine .some ⟨?_, rfl⟩
          rw [← h.size]
          exact (Array.getElem?_eq_some_iff.mp hs).1
        · cases hparent : scope.parent with
          | none => exact .none
          | some parent =>
            have holder := hscope.older parent hparent
            exact ih (Nat.lt_of_lt_of_le holder (Nat.le_of_lt_succ hsteps))
              (Nat.lt_of_lt_of_le holder (Nat.le_of_lt_succ hsteps'))

theorem resolve (h : Scopes.Renamed o bound s s') (hid : ScopeId.Renamed o bound id id')
    (name : String) :
    Option.Rel (ScopeId.Renamed o bound) (s.resolve id name) (s'.resolve id' name) := by
  obtain ⟨-, rfl⟩ := hid
  have hid := Nat.lt_succ_of_le (Nat.le_add_right id o.scopes)
  exact h.resolveWithin name (Nat.lt_succ_self id) hid

theorem get? (h : Scopes.Renamed o bound s s') (hid : ScopeId.Renamed o bound id id')
    (name : String) : Option.Rel (Value.Renamed o bound) (s.get? id name) (s'.get? id' name) := by
  have hresolve := h.resolve hid name
  rw [Scopes.get?, Scopes.get?]
  generalize s.resolve id name = owner, s'.resolve id' name = owner' at hresolve
  cases hresolve with
  | none => exact .none
  | @some owner owner' howner =>
    obtain ⟨-, rfl⟩ := howner
    have hcell := h.cells owner
    generalize hs : s.cells[owner]? = cell, hs' : s'.cells[owner + o.scopes]? = cell' at hcell
    simp only [Option.bind_eq_bind, Option.bind_some, hs, hs']
    cases hcell with
    | none => exact .none
    | some hscope => exact Scope.get?_of_sameNames hscope.vars name

end Scopes.Renamed

/-! ## Sinks -/

/-- There is no limit to what can be written, and after what was there before both sinks hold the
same. -/
structure Sink.Renamed (o : Offset) (sink sink' : Sink) : Prop where
  limit : sink.limit = none
  limit' : sink'.limit = none
  written : ∃ bytes, sink.written = o.written ++ bytes ∧ sink'.written = o.written' ++ bytes

namespace Sink

theorem fits_of_limit {sink : Sink} (h : sink.limit = none) (text : String) :
    sink.fits text = true := by
  simp [fits, taken, h]

/-- Without a limit all of a text is written. -/
theorem written_of_limit {sink : Sink} (h : sink.limit = none) (text : String) :
    (sink.write text).written = sink.written ++ text.toUTF8 := by
  rw [write, taken, h, ByteArray.extract_zero_size]

theorem Renamed.write {sink sink' : Sink} (h : Sink.Renamed o sink sink') (text : String) :
    Sink.Renamed o (sink.write text) (sink'.write text) := by
  obtain ⟨bytes, hwritten, hwritten'⟩ := h.written
  refine ⟨h.limit, h.limit', bytes ++ text.toUTF8, ?_, ?_⟩
  · rw [written_of_limit h.limit, hwritten, ByteArray.append_assoc]
  · rw [written_of_limit h.limit', hwritten', ByteArray.append_assoc]

end Sink

/-! ## Machines -/

/-- The machines are the same but for numbers, and for what they did before. -/
structure Machine.Renamed (o : Offset) (bound : Nat) (m m' : Machine H) : Prop where
  scopes : Scopes.Renamed o bound m.scopes m'.scopes
  globals : ScopeId.Renamed o bound m.globals m'.globals
  functionsMade : m'.functionsMade = m.functionsMade + o.functions
  nativesMade : m'.nativesMade = m.nativesMade + o.natives
  clock : m.clock = m'.clock
  sink : Sink.Renamed o m.sink m'.sink

namespace Machine

variable [Host H]

/-- **To differ in numbers only is a correspondence.** Its worlds are bounds on the numbers of
scopes in the first machine. -/
def uniformity [Host.Uniform H] (o : Offset) : Correspondence H where
  World := Nat
  Later bound bound' := bound ≤ bound'
  places span span' := span = span'
  names _ := True
  scope := ScopeId.Renamed o
  home := ScopeId.Renamed o
  value := Value.Renamed o
  machine := Machine.Renamed o
  later_refl := Nat.le_refl
  later_trans := Nat.le_trans
  scope_later hbound h := ⟨Nat.lt_of_lt_of_le h.1 hbound, h.2⟩
  home_later hbound h := ⟨Nat.lt_of_lt_of_le h.1 hbound, h.2⟩
  scope_of_home h := h
  value_later hbound h := h.mono hbound
  likeness := Value.likeness_renamed o
  body h := by
    cases h with
    | function id name params body h =>
      exact ⟨List.forall₂_same.mpr fun s _ => s.alike_self (fun _ _ => rfl) fun _ _ => rfl,
        ⟨h, rfl⟩, fun _ _ => trivial⟩
  host function h := Host.Uniform.call_renamed o _ function _ _ h
  newScope hm hs := by
    obtain ⟨hbound, rfl⟩ := hs
    refine ⟨_, Nat.le_succ _, hm.scopes.next, { hm with
      scopes := hm.scopes.push fun id hid => ?_
      globals := ⟨Nat.lt_succ_of_lt hm.globals.1, hm.globals.2⟩ }⟩
    exact Option.some.inj hid ▸ hbound
  define name _ hm hs hv := ⟨_, Nat.le_refl _, { hm with scopes := hm.scopes.define hs name hv }⟩
  assign name _ hm hs hv := optionRel_imp
    (fun _ _ howner => ⟨_, Nat.le_refl _, { hm with scopes := hm.scopes.define howner name hv }⟩)
    (hm.scopes.resolve hs name)
  get? name _ hm hs := hm.scopes.get? hs name
  makeFunction name params _ hm hs hbody := by
    have hsame := hbody.imp fun _ _ h => Stmt.eq_of_alike (fun _ _ h => h) h fun _ _ h => h
    rw [List.forall₂_eq_eq_eq] at hsame
    subst hsame
    obtain ⟨hbound, rfl⟩ := hs
    refine ⟨_, Nat.le_refl _, ?_, { hm with functionsMade := ?_ }⟩
    · rw [hm.functionsMade]
      exact .function _ name params _ hbound
    · rw [hm.functionsMade, Nat.add_right_comm]
  readClock hm := by
    rw [hm.clock]
    exact ⟨rfl, _, Nat.le_refl _, { hm with clock := rfl }⟩
  write text hm := by
    rw [Sink.fits_of_limit hm.sink.limit, Sink.fits_of_limit hm.sink.limit']
    exact ⟨rfl, _, Nat.le_refl _, { hm with sink := hm.sink.write text }⟩

/-- **Running a program on machines that differ in numbers only.** -/
theorem execute_renamed [Host.Uniform H] (fuel : Nat) (program : Program) {m m' : Machine H}
    (h : m.Renamed o bound m') :
    (m.execute fuel program).1 = (m'.execute fuel program).1 ∧
      ∃ bound', (m.execute fuel program).2.Renamed o bound' (m'.execute fuel program).2 := by
  have hprogram : List.Forall₂ (Stmt.Alike (· = ·) (· = ·)) program program :=
    List.forall₂_same.mpr fun s _ => s.alike_self (fun _ _ => rfl) fun _ _ => rfl
  obtain ⟨hending, bound', -, hmachine⟩ :=
    (uniformity o).execute (fun _ _ h => h) fuel hprogram (fun _ _ => trivial) h h.globals
  exact ⟨Ending.eq_of_alike hending, bound', hmachine⟩

/-! ### What is done from outside -/

theorem Renamed.defineNative {m m' : Machine H} (h : m.Renamed o bound m') (native : Native H) :
    (m.defineNative native).Renamed o bound (m'.defineNative native) := by
  have hvalue : Value.Renamed o bound (.native m.nativesMade native : Value H)
      (.native m'.nativesMade native) := by
    rw [h.nativesMade]
    exact .native _ native
  refine { h with scopes := h.scopes.define h.globals native.name hvalue, nativesMade := ?_ }
  show m'.nativesMade + 1 = m.nativesMade + 1 + o.natives
  rw [h.nativesMade, Nat.add_right_comm]

/-- To start over does not need the global scopes to correspond. -/
theorem renamed_reset {m m' : Machine H} (hscopes : Scopes.Renamed o bound m.scopes m'.scopes)
    (hfunctions : m'.functionsMade = m.functionsMade + o.functions)
    (hnatives : m'.nativesMade = m.nativesMade + o.natives) (hclock : m.clock = m'.clock)
    (hsink : Sink.Renamed o m.sink m'.sink) : m.reset.Renamed o (bound + 1) m'.reset := by
  have hpush : Scopes.Renamed o (bound + 1) (m.scopes.push none) (m'.scopes.push none) :=
    hscopes.push nofun
  have hempty : Machine.Renamed o (bound + 1)
      { m with scopes := m.scopes.push none, globals := m.scopes.next }
      { m' with scopes := m'.scopes.push none, globals := m'.scopes.next } :=
    ⟨hpush, hscopes.next, hfunctions, hnatives, hclock, hsink⟩
  exact hempty.defineNative .clock

theorem Renamed.reset {m m' : Machine H} (h : m.Renamed o bound m') :
    m.reset.Renamed o (bound + 1) m'.reset :=
  renamed_reset h.scopes h.functionsMade h.nativesMade h.clock h.sink

/-- What a machine that starts over was before. -/
def offset (m : Machine H) (sink : Sink) : Offset :=
  ⟨m.scopes.next, m.functionsMade, m.nativesMade, sink.written, m.sink.written⟩

/-- **A machine that was reset differs from a new one in numbers only.** -/
theorem renamed_start {m : Machine H} {sink : Sink} (hsink : sink.limit = none)
    (hm : m.sink.limit = none) :
    (Machine.start m.clock sink).Renamed (m.offset sink) 1 m.reset := by
  refine renamed_reset ⟨rfl, (Nat.zero_add _).symm, fun i => ?_⟩ (Nat.zero_add _).symm
    (Nat.zero_add _).symm rfl ⟨hsink, hm, ByteArray.empty, ?_, ?_⟩
  · have hnone : m.scopes.cells[i + m.scopes.next]? = none :=
      Array.getElem?_eq_none (Nat.le_add_left _ i)
    show Option.Rel _ _ m.scopes.cells[i + m.scopes.next]?
    rw [hnone]
    exact .none
  · exact ByteArray.append_empty.symm
  · exact ByteArray.append_empty.symm

end Machine

end BlockScript
