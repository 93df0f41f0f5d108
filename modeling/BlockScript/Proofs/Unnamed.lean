import BlockScript.Proofs.Origins

/-!
# Natives that a program does not name

To define one more native does not disturb a program in which its name does not occur, even if it
takes the place of a native that was there. The global scopes of the two machines differ in what
that name stands for, and they differ in it for the whole run. But all the program can do is to use
the names that it has.

The machines correspond if they are the same but for what the name stands for in their scopes. This
is a correspondence for code that uses other names only, and the functions of the language in the
scopes must be made of such code as well (`Value.Avoids`). A program that does not use the name has
no other functions, unless a host function makes one up.

## Main definitions

* `Value.Avoids` — values that do not use a name
* `Host.MakesUpNone` — host functions that make up no function that uses a name
* `Machine.SameBut` — machines that are the same but for a name

## Main results

* `Machine.avoidance` — to be the same but for a name is a correspondence
* `unnamed_native_unnoticed` — a native that is not named makes no difference
-/

namespace BlockScript

variable {H : Type} {x : String}

/-! ## Values -/

/-- The value is not a function of the language that uses the name. -/
def Value.Avoids (x : String) : Value H → Prop
  | .function _ c => x ∉ c.identifiers
  | _ => True

/-- No host function gives back a function that uses the name, unless it was given it. -/
def Host.MakesUpNone (H : Type) [Host H] (x : String) : Prop :=
  ∀ (function : H) (args : List (Value H)) (id : Nat) (c : Closure),
    Host.call function args = .ok (.function id c) → x ∈ c.identifiers → .function id c ∈ args

theorem Host.makesUpNone [Host H] [Host.Parametric H] (x : String) : Host.MakesUpNone H x :=
  fun function args id c hcall _ => Host.passesOn function args (.function id c) hcall rfl

theorem Host.MakesUpNone.avoids [Host H] (h : Host.MakesUpNone H x) {function : H}
    {args : List (Value H)} {v : Value H} (hcall : Host.call function args = .ok v)
    (hargs : ∀ u ∈ args, u.Avoids x) : v.Avoids x := by
  cases v with
  | function id c => exact fun hx => hargs _ (h function args id c hcall hx) hx
  | _ => trivial

/-- The values are the same, and do not use the name. -/
def Value.SameAvoiding (x : String) (v v' : Value H) : Prop := v.Avoids x ∧ v = v'

theorem Value.likeness_sameAvoiding (x : String) :
    Value.Likeness (Value.SameAvoiding x : Value H → Value H → Prop) where
  nil := ⟨trivial, rfl⟩
  bool _ := ⟨trivial, rfl⟩
  number _ := ⟨trivial, rfl⟩
  text _ := ⟨trivial, rfl⟩
  looks h := h.2 ▸ .refl _
  same_eq h hw := by rw [h.2, hw.2]

/-! ## Scopes -/

theorem Scope.binds_eq_isSome_get? (scope : Scope H) (name : String) :
    scope.binds name = (scope.get? name).isSome := by
  rw [binds, get?]
  induction scope.vars with
  | nil => rfl
  | cons var vars ih =>
    obtain ⟨other, v⟩ := var
    rw [List.any_cons, List.lookup_cons, ih, BEq.comm]
    cases name == other <;> rfl

/-- The scopes have the same parent and bind all names but `x` to the same values, which do not use
`x`. -/
structure Scope.SameBut (x : String) (s s' : Scope H) : Prop where
  parent : s.parent = s'.parent
  get? : ∀ name, name ≠ x → Option.Rel (Value.SameAvoiding x) (s.get? name) (s'.get? name)

namespace Scope.SameBut

variable {s s' : Scope H}

theorem binds_eq (h : s.SameBut x s') {name : String} (hname : name ≠ x) :
    s.binds name = s'.binds name := by
  have hget := h.get? name hname
  rw [binds_eq_isSome_get?, binds_eq_isSome_get?]
  generalize s.get? name = v, s'.get? name = v' at hget
  cases hget <;> rfl

theorem put (h : s.SameBut x s') (name : String) {v v' : Value H} (hv : v.SameAvoiding x v') :
    (s.put name v).SameBut x (s'.put name v') := by
  refine ⟨h.parent, fun other hother => ?_⟩
  rw [get?_put, get?_put]
  split
  · exact .some hv
  · exact h.get? other hother

/-- What `x` itself stands for may change in one scope alone. -/
theorem put_right (h : s.SameBut x s') (v : Value H) : s.SameBut x (s'.put x v) := by
  refine ⟨h.parent, fun other hother => ?_⟩
  rw [get?_put, if_neg hother]
  exact h.get? other hother

end Scope.SameBut

/-- The stores have the same scopes but for what `x` stands for. -/
structure Scopes.SameBut (x : String) (s s' : Scopes H) : Prop where
  size : s.cells.size = s'.cells.size
  cells : ∀ id : ScopeId, Option.Rel (Scope.SameBut x) s.cells[id]? s'.cells[id]?

namespace Scopes.SameBut

variable {s s' : Scopes H}

theorem empty (x : String) : Scopes.SameBut x (.empty : Scopes H) .empty :=
  ⟨rfl, fun _ => .none⟩

theorem push (h : s.SameBut x s') (parent : Option ScopeId) :
    (s.push parent).SameBut x (s'.push parent) := by
  refine ⟨by simp [Scopes.push, h.size], fun id => ?_⟩
  rw [Scopes.push, Scopes.push, Array.getElem?_push, Array.getElem?_push, h.size]
  split
  · exact .some ⟨rfl, fun _ _ => .none⟩
  · exact h.cells id

theorem define (h : s.SameBut x s') (id : ScopeId) (name : String) {v v' : Value H}
    (hv : v.SameAvoiding x v') : (s.define id name v).SameBut x (s'.define id name v') := by
  refine ⟨by simp [Scopes.define, h.size], fun other => ?_⟩
  have hcell := h.cells other
  rw [Scopes.define, Scopes.define, Array.getElem?_modify, Array.getElem?_modify]
  generalize s.cells[other]? = cell, s'.cells[other]? = cell' at hcell
  split
  · cases hcell with
    | none => exact .none
    | some hcell => exact .some (hcell.put name hv)
  · exact hcell

theorem define_right (h : s.SameBut x s') (id : ScopeId) (v : Value H) :
    s.SameBut x (s'.define id x v) := by
  refine ⟨by simp [Scopes.define, h.size], fun other => ?_⟩
  have hcell := h.cells other
  rw [Scopes.define, Array.getElem?_modify]
  generalize s.cells[other]? = cell, s'.cells[other]? = cell' at hcell
  split
  · cases hcell with
    | none => exact .none
    | some hcell => exact .some (hcell.put_right v)
  · exact hcell

/-- All names but `x` belong to the same scopes. -/
theorem resolve_eq (h : s.SameBut x s') (id : ScopeId) {name : String} (hname : name ≠ x) :
    s.resolve id name = s'.resolve id name := by
  have key : ∀ (steps : Nat) (id : ScopeId),
      s.resolveWithin name steps id = s'.resolveWithin name steps id := by
    intro steps
    induction steps with
    | zero => exact fun _ => rfl
    | succ steps ih =>
      intro id
      have hcell := h.cells id
      rw [resolveWithin, resolveWithin]
      generalize s.cells[id]? = cell, s'.cells[id]? = cell' at hcell
      cases hcell with
      | none => rfl
      | some hcell =>
        dsimp only
        rw [hcell.binds_eq hname, hcell.parent]
        simp only [ih]
  exact key (id + 1) id

theorem get? (h : s.SameBut x s') (id : ScopeId) {name : String} (hname : name ≠ x) :
    Option.Rel (Value.SameAvoiding x) (s.get? id name) (s'.get? id name) := by
  rw [Scopes.get?, Scopes.get?, h.resolve_eq id hname]
  cases s'.resolve id name with
  | none => exact .none
  | some owner =>
    have hcell := h.cells owner
    simp only [Option.bind_eq_bind, Option.bind_some]
    generalize s.cells[owner]? = cell, s'.cells[owner]? = cell' at hcell
    cases hcell with
    | none => exact .none
    | some hcell => exact hcell.get? name hname

end Scopes.SameBut

/-! ## Machines -/

/-- The machines are the same but for what `x` stands for, and for how many natives were made. -/
structure Machine.SameBut (x : String) (m m' : Machine H) : Prop where
  scopes : m.scopes.SameBut x m'.scopes
  globals : m.globals = m'.globals
  functionsMade : m.functionsMade = m'.functionsMade
  clock : m.clock = m'.clock
  sink : m.sink = m'.sink

namespace Machine

variable [Host H] {m m' : Machine H}

/-- **To be the same but for a name** is a correspondence, for code that does not use the name. -/
def avoidance (hhost : Host.MakesUpNone H x) : Correspondence H where
  World := Unit
  Later _ _ := True
  places span span' := span = span'
  names name := name ≠ x
  scope _ s s' := s = s'
  home _ s s' := s = s'
  value _ := Value.SameAvoiding x
  machine _ := Machine.SameBut x
  later_refl _ := trivial
  later_trans _ _ := trivial
  scope_later _ h := h
  home_later _ h := h
  scope_of_home h := h
  value_later _ h := h
  likeness _ := Value.likeness_sameAvoiding x
  body h := by
    obtain ⟨havoids, h⟩ := h
    injection h with _ h
    subst h
    exact ⟨List.forall₂_same.mpr fun s _ => s.alike_self (fun _ _ => rfl) fun _ _ => rfl, rfl,
      fun name hname hx => havoids (hx ▸ hname)⟩
  host function h := by
    obtain ⟨havoid, h⟩ := (List.forall₂_and_left _ _).mp h
    rw [List.forall₂_eq_eq_eq] at h
    subst h
    cases hcall : Host.call function _ with
    | ok v => exact .ok ⟨hhost.avoids hcall havoid, rfl⟩
    | error fault => exact .error fault
  newScope hm hs := by
    subst hs
    exact ⟨(), trivial, hm.scopes.size, { hm with scopes := hm.scopes.push _ }⟩
  define name _ hm hs hv := by
    subst hs
    exact ⟨(), trivial, { hm with scopes := hm.scopes.define _ name hv }⟩
  assign name hname hm hs hv := by
    subst hs
    refine optionRel_of_eq (fun owner => ?_) (hm.scopes.resolve_eq _ hname)
    exact ⟨(), trivial, { hm with scopes := hm.scopes.define owner name hv }⟩
  get? name hname hm hs := by
    subst hs
    exact hm.scopes.get? _ hname
  makeFunction name params hnames hm hs hbody := by
    have hsame := hbody.imp fun _ _ h => Stmt.eq_of_alike (fun _ _ h => h) h fun _ _ h => h
    rw [List.forall₂_eq_eq_eq] at hsame
    subst hsame hs
    rw [hm.functionsMade]
    exact ⟨(), trivial, ⟨fun hx => hnames x hx rfl, rfl⟩, { hm with functionsMade := rfl }⟩
  readClock hm := by
    rw [hm.clock]
    exact ⟨rfl, (), trivial, { hm with clock := rfl }⟩
  write text hm := by
    rw [hm.sink]
    exact ⟨rfl, (), trivial, { hm with sink := rfl }⟩

/-- **Running a program that does not use the name.** -/
theorem execute_sameBut (hhost : Host.MakesUpNone H x) (fuel : Nat) {program : Program}
    (hx : x ∉ program.identifiers) (h : m.SameBut x m') :
    (m.execute fuel program).1 = (m'.execute fuel program).1 ∧
      (m.execute fuel program).2.SameBut x (m'.execute fuel program).2 := by
  have hprogram : List.Forall₂ (Stmt.Alike (· = ·) (· = ·)) program program :=
    List.forall₂_same.mpr fun s _ => s.alike_self (fun _ _ => rfl) fun _ _ => rfl
  have hnames : ∀ name ∈ program.identifiers, name ≠ x := fun name hname heq => hx (heq ▸ hname)
  obtain ⟨hending, _, _, hmachine⟩ :=
    (avoidance hhost).execute (fun _ _ h => h) fuel hprogram hnames (w := ()) h h.globals
  exact ⟨Ending.eq_of_alike hending, hmachine⟩

/-! ### Fresh machines -/

/-- A native that is defined on both sides, as the same object. -/
theorem SameBut.defineNative_self (h : m.SameBut x m) (native : Native H) :
    (m.defineNative native).SameBut x (m.defineNative native) :=
  { h with scopes := h.scopes.define m.globals native.name ⟨trivial, rfl⟩ }

/-- A native that is defined on one side only. -/
theorem SameBut.defineNative_right (h : m.SameBut x m') {native : Native H}
    (hname : native.name = x) : m.SameBut x (m'.defineNative native) := by
  subst hname
  exact { h with scopes := h.scopes.define_right m'.globals _ }

/-- A fresh machine with some natives holds no function of the language at all. -/
theorem sameBut_foldl_defineNative (x : String) (natives : List (Native H)) (clock : Clock)
    (sink : Sink) :
    SameBut x (natives.foldl defineNative (.start clock sink : Machine H))
      (natives.foldl defineNative (.start clock sink)) := by
  have hstart : SameBut x (.start clock sink : Machine H) (.start clock sink) :=
    .defineNative_self ⟨(Scopes.SameBut.empty x).push none, rfl, rfl, rfl, rfl⟩ .clock
  exact List.foldlRecOn natives defineNative (motive := fun m => m.SameBut x m) hstart
    fun _ hm native _ => hm.defineNative_self native

end Machine

/-- **A native that a program does not name makes no difference to it.** On a fresh machine with a
list of natives, and on one with one more native, a program in which the name of that native does
not occur has the same outcome: it writes the same and ends in the same way, with the same fault if
it fails. This is so even if the name was that of another native before, and that may be `clock`. -/
theorem unnamed_native_unnoticed {H : Type} [Host H] (clock : Clock) (sink : Sink) (fuel : Nat)
    (program : Program) (natives : List (Native H)) (native : Native H)
    (hhost : Host.MakesUpNone H native.name) (hname : native.name ∉ program.identifiers) :
    let fresh (natives : List (Native H)) : Machine H :=
      natives.foldl Machine.defineNative (.start clock sink)
    (Session.runWith fuel program (fresh natives)).1 =
      (Session.runWith fuel program (fresh (natives ++ [native]))).1 := by
  intro fresh
  have hself : (fresh natives).SameBut native.name (fresh natives) :=
    Machine.sameBut_foldl_defineNative native.name natives clock sink
  have hfresh : (fresh natives).SameBut native.name (fresh (natives ++ [native])) := by
    show Machine.SameBut _ _ ((natives ++ [native]).foldl _ _)
    rw [List.foldl_append]
    exact hself.defineNative_right rfl
  obtain ⟨hending, hmachine⟩ := Machine.execute_sameBut hhost fuel hname hfresh
  refine Session.runWith_fst_eq hending ?_
  rw [hfresh.sink, hmachine.sink]

/-- A clock of the host in place of the built-in one, in a program that calls another native. -/
theorem unnamed_native_unnoticed_clock :
    let source := "func f(a) \x7b return pick(a, nil, f); \x7d print f(true);"
    let program := (parseTokens (scan source).tokens).program
    let fresh (natives : List (Native BasicFunction)) : Machine BasicFunction :=
      natives.foldl Machine.defineNative (.start ⟨fun _ => 0, 0⟩ (.empty none))
    let native : Native BasicFunction := .host .stoppedClock
    native.name = "clock" ∧ program.identifiers = ["f", "a", "pick", "a", "f", "f"] ∧
      (Session.runWith 2 program (fresh [.host .pick])).1.status = .finished ∧
      (Session.runWith 2 program (fresh [.host .pick])).1 =
        (Session.runWith 2 program (fresh ([.host .pick] ++ [native]))).1 := by
  intro source program fresh native
  have hidentifiers : program.identifiers = ["f", "a", "pick", "a", "f", "f"] := by
    simp only [program, source]
    decide +kernel
  have hfinished : (Session.runWith 2 program (fresh [.host .pick])).1.status = .finished := by
    simp only [program, source, fresh]
    decide +kernel
  have hname : native.name ∉ program.identifiers := by
    rw [hidentifiers]
    decide
  have hsame := unnamed_native_unnoticed ⟨fun _ => 0, 0⟩ (.empty none) 2 program [.host .pick]
    native (Host.makesUpNone native.name) hname
  exact ⟨rfl, hidentifiers, hfinished, hsame⟩

end BlockScript
