import BlockScript.Eval
import BlockScript.Host.Basic
import BlockScript.Proofs.Places

/-!
# Runs that correspond

To show that two runs do the same it is enough to say how their machines correspond and to check
this for the few things that evaluation does to a machine: it opens a scope, binds, reads or changes
a name, makes a function, reads the clock and writes. A `Correspondence` is a relation between
machines, and between the values and the scopes that they refer to, for which these checks were
made. Evaluation is gone through once, here, for all of them.

Code can be run in a scope that it never declares a name in. A correspondence may ask less of such a
scope than of a *home*, where names can be declared: a new scope is always one, and a statement
needs one only if it may declare a name where it stands (`Stmt.binds`).

Machines grow while they run, and what corresponds then corresponds for good. So a correspondence
has *worlds*, and things may correspond in a later world that did not exist in an earlier one.

The code that is run may be known to use only certain *names*. A correspondence has to answer for no
other names than those, so that machines may correspond that differ in what the others stand for.

Values that correspond must look the same to the language (`Value.Looks`), and comparing them must
give the same result (`Value.Likeness`). For the operators of the language this is all it takes.

## Main definitions

* `Value.Looks`, `Value.Likeness` — values that the language does not tell apart
* `Host.Parametric` — host functions that look at values only as the language does
* `SameNames` — bindings of the same names
* `Expr.identifiers`, `Stmt.identifiers` — the names in a tree
* `Stmt.binds` — whether a statement may declare a name in the scope it is run in
* `Correspondence` — a relation between machines that evaluation keeps
* `Correspondence.Simulates` — actions that keep machines in correspondence

## Main results

* `Correspondence.simulates_execAll`, `Correspondence.callsAgree_callWith` — evaluation keeps
  machines in correspondence
* `Correspondence.execute` — so does the run of a program
-/

namespace BlockScript

variable {H : Type}

/-! ## Values -/

/-- The values look the same, but functions may differ in identity, body and scope. -/
inductive Value.Looks : Value H → Value H → Prop where
  | nil : Looks .nil .nil
  | bool (value : Bool) : Looks (.bool value) (.bool value)
  | number (value : Float) : Looks (.number value) (.number value)
  | text (value : String) : Looks (.text value) (.text value)
  | function (id id' : Nat) {c c' : Closure} (hname : c.name = c'.name)
      (hparams : c.params = c'.params) : Looks (.function id c) (.function id' c')
  | native (id id' : Nat) (fn : Native H) : Looks (.native id fn) (.native id' fn)

namespace Value.Looks

protected theorem refl (v : Value H) : v.Looks v := by
  cases v with
  | nil => exact .nil
  | bool value => exact .bool value
  | number value => exact .number value
  | text value => exact .text value
  | function id c => exact .function id id rfl rfl
  | native id fn => exact .native id id fn

variable {v v' : Value H}

theorem truthy_eq (h : v.Looks v') : v.truthy = v'.truthy := by
  cases h <;> rfl

theorem typeName_eq (h : v.Looks v') : v.typeName = v'.typeName := by
  cases h <;> rfl

theorem display_eq [Signature H] (h : v.Looks v') : v.display = v'.display := by
  cases h with
  | function id id' hname _ => exact congrArg ("<func " ++ · ++ ">") hname
  | _ => rfl

theorem arity?_eq [Signature H] (h : v.Looks v') : v.arity? = v'.arity? := by
  cases h with
  | function id id' _ hparams => exact congrArg (fun params => some params.length) hparams
  | _ => rfl

end Value.Looks

/-- Values that are related by `V` look the same, and it is the same to compare them. -/
structure Value.Likeness (V : Value H → Value H → Prop) : Prop where
  nil : V .nil .nil
  bool : ∀ value, V (.bool value) (.bool value)
  number : ∀ value, V (.number value) (.number value)
  text : ∀ value, V (.text value) (.text value)
  looks : ∀ {v v'}, V v v' → v.Looks v'
  same_eq : ∀ {v v' w w'}, V v v' → V w w' → v.same w = v'.same w'

/-- Both are the same fault, or both are values, which are related. -/
inductive SameFault {α : Type} (V : α → α → Prop) : Except Fault α → Except Fault α → Prop where
  | ok {a a' : α} (h : V a a') : SameFault V (.ok a) (.ok a')
  | error (fault : Fault) : SameFault V (.error fault) (.error fault)

theorem SameFault.refl {α : Type} {V : α → α → Prop} (hV : ∀ a, V a a) (r : Except Fault α) :
    SameFault V r r := by
  cases r with
  | ok a => exact .ok (hV a)
  | error fault => exact .error fault

namespace Value.Likeness

variable {V : Value H → Value H → Prop} (hV : Likeness V)
include hV

theorem ofConstant (value : Constant) : V (.ofConstant value) (.ofConstant value) := by
  cases value with
  | nil => exact hV.nil
  | bool value => exact hV.bool value
  | number value => exact hV.number value
  | text value => exact hV.text value

variable {v v' w w' : Value H}

theorem unary (op : UnaryOp) (h : V v v') : SameFault V (op.apply v) (op.apply v') := by
  have hlooks := hV.looks h
  cases op with
  | not =>
    rw [UnaryOp.apply, UnaryOp.apply, hlooks.truthy_eq]
    exact .ok (hV.bool _)
  | negate =>
    cases hlooks with
    | number value => exact .ok (hV.number _)
    | _ => exact .error _

theorem binary (op : BinaryOp) (h : V v v') (hw : V w w') :
    SameFault V (op.apply v w) (op.apply v' w') := by
  have hsame := hV.same_eq h hw
  have hleft := hV.looks h
  have hright := hV.looks hw
  cases op with
  | equal =>
    show SameFault V (.ok (.bool (v.same w))) (.ok (.bool (v'.same w')))
    rw [hsame]
    exact .ok (hV.bool _)
  | notEqual =>
    show SameFault V (.ok (.bool !v.same w)) (.ok (.bool !v'.same w'))
    rw [hsame]
    exact .ok (hV.bool _)
  | add =>
    cases hleft with
    | number a =>
      cases hright with
      | number b => exact .ok (hV.number _)
      | _ => exact .error _
    | text a =>
      cases hright with
      | text b => exact .ok (hV.text _)
      | _ => exact .error _
    | _ => exact .error _
  | subtract | multiply | divide =>
    cases hleft with
    | number a =>
      cases hright with
      | number b => exact .ok (hV.number _)
      | _ => exact .error _
    | _ => exact .error _
  | less | lessEqual | greater | greaterEqual =>
    cases hleft with
    | number a =>
      cases hright with
      | number b => exact .ok (hV.bool _)
      | _ => exact .error _
    | _ => exact .error _

end Value.Likeness

/-- The basic host functions look at values only as the language does. -/
theorem Value.Likeness.call {V : Value BasicFunction → Value BasicFunction → Prop}
    (hV : Value.Likeness V) (function : BasicFunction) {args args' : List (Value BasicFunction)}
    (h : List.Forall₂ V args args') : SameFault V (function.call args) (function.call args') := by
  cases function with
  | twice =>
    rcases h with _ | ⟨h, _ | ⟨_, _⟩⟩
    · exact .error _
    · cases hV.looks h with
      | number value => exact .ok (hV.number _)
      | _ => exact .error _
    · cases hV.looks h <;> exact .error _
  | type =>
    rcases h with _ | ⟨h, _ | ⟨_, _⟩⟩
    · exact .error _
    · rw [BasicFunction.call, BasicFunction.call, (hV.looks h).typeName_eq]
      exact .ok (hV.text _)
    · exact .error _
  | truthy =>
    rcases h with _ | ⟨h, _ | ⟨_, _⟩⟩
    · exact .error _
    · rw [BasicFunction.call, BasicFunction.call, (hV.looks h).truthy_eq]
      exact .ok (hV.bool _)
    · exact .error _
  | display =>
    rcases h with _ | ⟨h, _ | ⟨_, _⟩⟩
    · exact .error _
    · rw [BasicFunction.call, BasicFunction.call, (hV.looks h).display_eq]
      exact .ok (hV.text _)
    · exact .error _
  | same =>
    rcases h with _ | ⟨h, _ | ⟨h', _ | ⟨_, _⟩⟩⟩
    · exact .error _
    · exact .error _
    · rw [BasicFunction.call, BasicFunction.call, hV.same_eq h h']
      exact .ok (hV.bool _)
    · exact .error _
  | join =>
    rcases h with _ | ⟨h, _ | ⟨h', _ | ⟨_, _⟩⟩⟩
    · exact .error _
    · cases hV.looks h <;> exact .error _
    · cases hV.looks h with
      | text a =>
        cases hV.looks h' with
        | text b => exact .ok (hV.text _)
        | _ => exact .error _
      | _ => exact .error _
    · cases hV.looks h with
      | text a => cases hV.looks h' <;> exact .error _
      | _ => exact .error _
  | pick =>
    rcases h with _ | ⟨h, _ | ⟨h', _ | ⟨h'', _ | ⟨_, _⟩⟩⟩⟩
    · exact .error _
    · exact .error _
    · exact .error _
    · rw [BasicFunction.call, BasicFunction.call, (hV.looks h).truthy_eq]
      split
      · exact .ok h'
      · exact .ok h''
    · exact .error _
  | fail => cases h <;> exact .error _
  | stoppedClock =>
    cases h with
    | nil => exact .ok (hV.number _)
    | cons => exact .error _

/-- Host functions that look at values only as the language does. -/
class Host.Parametric (H : Type) [Host H] : Prop where
  call_likeness : ∀ {V : Value H → Value H → Prop}, Value.Likeness V → ∀ (function : H)
    {args args' : List (Value H)}, List.Forall₂ V args args' →
      SameFault V (Host.call function args) (Host.call function args')

instance : Host.Parametric Empty := ⟨fun _ function => nomatch function⟩

instance : Host.Parametric BasicFunction := ⟨fun hV function _ _ h => hV.call function h⟩

/-! ## Bindings -/

/-- The bindings are of the same names, in the same order, to values that are related by `V`. -/
abbrev SameNames (V : Value H → Value H → Prop) :
    List (String × Value H) → List (String × Value H) → Prop :=
  List.Forall₂ fun a b => a.1 = b.1 ∧ V a.2 b.2

namespace Scope

variable {V : Value H → Value H → Prop} {s s' : Scope H} (h : SameNames V s.vars s'.vars)
  (name : String)
include h

theorem binds_eq_of_sameNames : s.binds name = s'.binds name := by
  rw [binds, binds]
  generalize s.vars = vars, s'.vars = vars' at h
  induction h with
  | nil => rfl
  | cons hvar _ ih => rw [List.any_cons, List.any_cons, ih, hvar.1]

theorem get?_of_sameNames : Option.Rel V (s.get? name) (s'.get? name) := by
  rw [get?, get?]
  generalize s.vars = vars, s'.vars = vars' at h
  induction h with
  | nil => exact .none
  | @cons a b as bs hvar _ ih =>
    obtain ⟨k, v⟩ := a
    obtain ⟨k', v'⟩ := b
    obtain ⟨rfl, hv⟩ := hvar
    simp only [List.lookup_cons]
    cases name == k with
    | true => exact .some hv
    | false => exact ih

theorem put_of_sameNames {v v' : Value H} (hv : V v v') :
    SameNames V (s.put name v).vars (s'.put name v').vars := by
  rw [put, put]
  generalize s.vars = vars, s'.vars = vars' at h
  induction h with
  | nil => exact .cons ⟨rfl, hv⟩ .nil
  | @cons a b as bs hvar hvars ih =>
    obtain ⟨k, u⟩ := a
    obtain ⟨k', u'⟩ := b
    obtain ⟨rfl, hu⟩ := hvar
    simp only [putVar]
    split
    · exact .cons ⟨rfl, hv⟩ hvars
    · exact .cons ⟨rfl, hu⟩ ih

end Scope

/-! ## Names -/

mutual

/-- The names in an expression. -/
def Expr.identifiers : Expr → List String
  | .literal .. => []
  | .ident _ name => [name]
  | .assign _ name value => name :: value.identifiers
  | .unary _ _ operand => operand.identifiers
  | .binary _ _ left right => left.identifiers ++ right.identifiers
  | .logical _ _ left right => left.identifiers ++ right.identifiers
  | .group _ inner => inner.identifiers
  | .call _ _ callee args => callee.identifiers ++ Expr.listIdentifiers args

/-- The names in a sequence of expressions. -/
def Expr.listIdentifiers : List Expr → List String
  | [] => []
  | e :: es => e.identifiers ++ Expr.listIdentifiers es

end

mutual

/-- The names in a statement, those that it declares among them. -/
def Stmt.identifiers : Stmt → List String
  | .block _ body => Stmt.listIdentifiers body
  | .expr _ value => value.identifiers
  | .func _ name params body => name :: (params ++ Stmt.listIdentifiers body)
  | .ifThen _ cond yes => cond.identifiers ++ yes.identifiers
  | .ifElse _ cond yes no => cond.identifiers ++ (yes.identifiers ++ no.identifiers)
  | .print _ value => value.identifiers
  | .ret _ value => Expr.listIdentifiers value.toList
  | .var _ name value => name :: Expr.listIdentifiers value.toList
  | .whileDo _ cond body => cond.identifiers ++ body.identifiers

/-- The names in a sequence of statements. -/
def Stmt.listIdentifiers : List Stmt → List String
  | [] => []
  | s :: ss => s.identifiers ++ Stmt.listIdentifiers ss

end

/-- The names in a program. -/
def Program.identifiers (program : Program) : List String := Stmt.listIdentifiers program

theorem Expr.forall_mem_listIdentifiers {P : String → Prop} {es : List Expr} :
    (∀ name ∈ Expr.listIdentifiers es, P name) ↔ ∀ e ∈ es, ∀ name ∈ e.identifiers, P name := by
  induction es with
  | nil => simp [Expr.listIdentifiers]
  | cons e es ih => rw [Expr.listIdentifiers, List.forall_mem_append, ih, List.forall_mem_cons]

theorem Stmt.forall_mem_listIdentifiers {P : String → Prop} {ss : List Stmt} :
    (∀ name ∈ Stmt.listIdentifiers ss, P name) ↔ ∀ s ∈ ss, ∀ name ∈ s.identifiers, P name := by
  induction ss with
  | nil => simp [Stmt.listIdentifiers]
  | cons s ss ih => rw [Stmt.listIdentifiers, List.forall_mem_append, ih, List.forall_mem_cons]

/-- The names that a function uses when it is called. -/
def Closure.identifiers (c : Closure) : List String := c.params ++ Stmt.listIdentifiers c.body

/-! ## Declarations -/

/-- Whether a statement may declare a name in the scope it is run in. A block or a function body has
a scope of its own. -/
def Stmt.binds : Stmt → Bool
  | .func .. | .var .. => true
  | .ifThen _ _ yes => yes.binds
  | .ifElse _ _ yes no => yes.binds || no.binds
  | .whileDo _ _ body => body.binds
  | .block .. | .expr .. | .print .. | .ret .. => false

/-! ## Correspondences -/

theorem optionRel_of_eq {α : Type} {R : α → α → Prop} (hR : ∀ a, R a a) {o o' : Option α}
    (h : o = o') : Option.Rel R o o' := by
  subst h
  cases o with
  | none => exact .none
  | some a => exact .some (hR a)

theorem optionRel_imp {α : Type} {R S : α → α → Prop} (hRS : ∀ a b, R a b → S a b)
    {o o' : Option α} (h : Option.Rel R o o') : Option.Rel S o o' := by
  cases h with
  | none => exact .none
  | some hab => exact .some (hRS _ _ hab)

/-- A relation between machines that evaluation keeps, and the relations between values and between
scopes that go with it. -/
structure Correspondence (H : Type) [Host H] where
  World : Type
  Later : World → World → Prop
  /-- which places in the bodies of functions correspond -/
  places : Span → Span → Prop
  /-- the names that are used -/
  names : String → Prop
  scope : World → ScopeId → ScopeId → Prop
  /-- the scopes in which names can be declared -/
  home : World → ScopeId → ScopeId → Prop
  value : World → Value H → Value H → Prop
  machine : World → Machine H → Machine H → Prop
  later_refl : ∀ w, Later w w
  later_trans : ∀ {w₁ w₂ w₃}, Later w₁ w₂ → Later w₂ w₃ → Later w₁ w₃
  scope_later : ∀ {w w' s s'}, Later w w' → scope w s s' → scope w' s s'
  home_later : ∀ {w w' s s'}, Later w w' → home w s s' → home w' s s'
  scope_of_home : ∀ {w s s'}, home w s s' → scope w s s'
  value_later : ∀ {w w' v v'}, Later w w' → value w v v' → value w' v v'
  likeness : ∀ w, Value.Likeness (value w)
  body : ∀ {w id id' c c'}, value w (.function id c) (.function id' c') →
    List.Forall₂ (Stmt.Alike places places) c.body c'.body ∧ scope w c.scope c'.scope ∧
      ∀ name ∈ c.identifiers, names name
  host : ∀ {w args args'} function, List.Forall₂ (value w) args args' →
    SameFault (value w) (Host.call function args) (Host.call function args')
  newScope : ∀ {w m m' s s'}, machine w m m' → scope w s s' →
    ∃ w', Later w w' ∧ home w' m.scopes.next m'.scopes.next ∧
      machine w' { m with scopes := m.scopes.push (some s) }
        { m' with scopes := m'.scopes.push (some s') }
  define : ∀ {w m m' s s' v v'} name, names name → machine w m m' → home w s s' → value w v v' →
    ∃ w', Later w w' ∧
      machine w' { m with scopes := m.scopes.define s name v }
        { m' with scopes := m'.scopes.define s' name v' }
  assign : ∀ {w m m' s s' v v'} name, names name → machine w m m' → scope w s s' → value w v v' →
    Option.Rel
      (fun owner owner' => ∃ w', Later w w' ∧
        machine w' { m with scopes := m.scopes.define owner name v }
          { m' with scopes := m'.scopes.define owner' name v' })
      (m.scopes.resolve s name) (m'.scopes.resolve s' name)
  get? : ∀ {w m m' s s'} name, names name → machine w m m' → scope w s s' →
    Option.Rel (value w) (m.scopes.get? s name) (m'.scopes.get? s' name)
  makeFunction : ∀ {w m m' s s' body body'} name params,
    (∀ name ∈ params ++ Stmt.listIdentifiers body, names name) → machine w m m' → scope w s s' →
    List.Forall₂ (Stmt.Alike places places) body body' →
    ∃ w', Later w w' ∧
      value w' (.function m.functionsMade ⟨name, params, body, s⟩)
        (.function m'.functionsMade ⟨name, params, body', s'⟩) ∧
      machine w' { m with functionsMade := m.functionsMade + 1 }
        { m' with functionsMade := m'.functionsMade + 1 }
  readClock : ∀ {w m m'}, machine w m m' →
    m.clock.time m.clock.readings = m'.clock.time m'.clock.readings ∧
      ∃ w', Later w w' ∧
        machine w' { m with clock := { m.clock with readings := m.clock.readings + 1 } }
          { m' with clock := { m'.clock with readings := m'.clock.readings + 1 } }
  write : ∀ {w m m'} text, machine w m m' →
    m.sink.fits text = m'.sink.fits text ∧
      ∃ w', Later w w' ∧
        machine w' { m with sink := m.sink.write text } { m' with sink := m'.sink.write text }

/-- Both evaluations ran out of fuel, or both met the same fault, at places related by `Q`. -/
inductive Stop.Alike (Q : Span → Span → Prop) : Stop → Stop → Prop where
  | failed (fault : Fault) {span span' : Span} (h : Q span span') :
      Alike Q (.failed ⟨fault, span⟩) (.failed ⟨fault, span'⟩)
  | exhausted : Alike Q .exhausted .exhausted

theorem Stop.eq_of_alike {stop stop' : Stop} (h : Stop.Alike (· = ·) stop stop') :
    stop = stop' := by
  cases h with
  | failed fault hspan => rw [hspan]
  | exhausted => rfl

namespace Correspondence

variable [Host H] (C : Correspondence H) {Q : Span → Span → Prop} {w : C.World}

/-- Both evaluations gave values, related by `V`, or both stopped, and the machines correspond, in a
world later than `w`. -/
inductive Agree (Q : Span → Span → Prop) {α : Type} (V : C.World → α → α → Prop) (w : C.World) :
    EStateM.Result Stop (Machine H) α → EStateM.Result Stop (Machine H) α → Prop where
  | ok {w' : C.World} {a a' : α} {m m' : Machine H} (hw : C.Later w w') (ha : V w' a a')
      (hm : C.machine w' m m') : Agree Q V w (.ok a m) (.ok a' m')
  | error {w' : C.World} {stop stop' : Stop} {m m' : Machine H} (hw : C.Later w w')
      (hstop : stop.Alike Q stop') (hm : C.machine w' m m') :
      Agree Q V w (.error stop m) (.error stop' m')

variable {C} in
/-- What holds in a world later than a later one holds in a world later than the first. -/
theorem Agree.earlier {α : Type} {V : C.World → α → α → Prop} {w w' : C.World}
    {r r' : EStateM.Result Stop (Machine H) α} (hw : C.Later w w') (h : C.Agree Q V w' r r') :
    C.Agree Q V w r r' := by
  cases h with
  | ok hw' ha hm => exact .ok (C.later_trans hw hw') ha hm
  | error hw' hstop hm => exact .error (C.later_trans hw hw') hstop hm

/-- The actions agree on any two machines that correspond in the world `w`. -/
def Simulates (Q : Span → Span → Prop) {α : Type} (V : C.World → α → α → Prop) (w : C.World)
    (p p' : Eval H α) : Prop :=
  ∀ m m' : Machine H, C.machine w m m' → C.Agree Q V w (p m) (p' m')

/-- Values that are the same in every world. -/
def Equal {α : Type} (_ : C.World) (a a' : α) : Prop := a = a'

namespace Simulates

variable {C} {α β : Type} {V : C.World → α → α → Prop} {W : C.World → β → β → Prop}

theorem imp {Q' : Span → Span → Prop} {p p' : Eval H α} (h : C.Simulates Q V w p p')
    (hQ : ∀ span span', Q span span' → Q' span span') : C.Simulates Q' V w p p' := by
  intro m m' hm
  have hr := h m m' hm
  generalize p m = r, p' m' = r' at hr
  cases hr with
  | ok hw ha hm => exact .ok hw ha hm
  | error hw hstop hm =>
    refine .error hw ?_ hm
    cases hstop with
    | failed fault hspan => exact .failed fault (hQ _ _ hspan)
    | exhausted => exact .exhausted

protected theorem pure {a a' : α} (h : V w a a') :
    C.Simulates Q V w (pure a : Eval H α) (pure a') :=
  fun _ _ hm => .ok (C.later_refl w) h hm

/-- **Sequencing.** What comes next starts in a later world. -/
theorem bind {p p' : Eval H α} {f f' : α → Eval H β} (hp : C.Simulates Q V w p p')
    (hf : ∀ w', C.Later w w' → ∀ a a', V w' a a' → C.Simulates Q W w' (f a) (f' a')) :
    C.Simulates Q W w (p >>= f) (p' >>= f') := by
  intro m m' hm
  rw [Eval.bind_apply, Eval.bind_apply]
  have h := hp m m' hm
  generalize p m = r, p' m' = r' at h
  cases h with
  | error hw hstop hm => exact .error hw hstop hm
  | ok hw ha hm => exact (hf _ hw _ _ ha _ _ hm).earlier hw

/-! ### The actions of the machine -/

theorem fail (fault : Fault) {span span' : Span} (h : Q span span') :
    C.Simulates Q V w (Machine.fail fault span : Eval H α) (Machine.fail fault span') :=
  fun _ _ hm => .error (C.later_refl w) (.failed fault h) hm

theorem exhausted : C.Simulates Q V w (Machine.exhausted : Eval H α) Machine.exhausted :=
  fun _ _ hm => .error (C.later_refl w) .exhausted hm

theorem orFail {r r' : Except Fault α} (hr : SameFault (V w) r r') {span span' : Span}
    (h : Q span span') : C.Simulates Q V w (orFail r span : Eval H α) (orFail r' span') := by
  cases hr with
  | ok ha => exact .pure ha
  | error fault => exact .fail fault h

theorem newScope {s s' : ScopeId} (hs : C.scope w s s') :
    C.Simulates Q C.home w (Machine.newScope (some s)) (Machine.newScope (some s')) := by
  intro m m' hm
  obtain ⟨w', hw, hhome, hm⟩ := C.newScope hm hs
  exact .ok hw hhome hm

theorem define {name : String} (hname : C.names name) {s s' : ScopeId} (hs : C.home w s s')
    {v v' : Value H} (hv : C.value w v v') :
    C.Simulates Q C.Equal w (Machine.define s name v) (Machine.define s' name v') := by
  intro m m' hm
  obtain ⟨w', hw, hm⟩ := C.define name hname hm hs hv
  exact .ok hw rfl hm

theorem lookup {name : String} (hname : C.names name) {s s' : ScopeId} (hs : C.scope w s s')
    {span span' : Span} (h : Q span span') :
    C.Simulates Q C.value w (Machine.lookup s name span) (Machine.lookup s' name span') := by
  intro m m' hm
  rw [Machine.lookup, Machine.lookup]
  have hget := C.get? name hname hm hs
  generalize m.scopes.get? s name = v, m'.scopes.get? s' name = v' at hget
  cases hget with
  | none => exact fail _ h _ _ hm
  | some hv => exact .ok (C.later_refl w) hv hm

theorem assign {name : String} (hname : C.names name) {s s' : ScopeId} (hs : C.scope w s s')
    {v v' : Value H} (hv : C.value w v v') {span span' : Span} (h : Q span span') :
    C.Simulates Q C.Equal w (Machine.assign s name v span) (Machine.assign s' name v' span') := by
  intro m m' hm
  rw [Machine.assign, Machine.assign]
  have hassign := C.assign name hname hm hs hv
  generalize m.scopes.resolve s name = owner, m'.scopes.resolve s' name = owner' at hassign
  cases hassign with
  | none => exact fail _ h _ _ hm
  | some hdefine =>
    obtain ⟨w', hw, hm⟩ := hdefine
    exact .ok hw rfl hm

theorem makeFunction (name : String) {params : List String} {body body' : List Stmt}
    (hnames : ∀ name ∈ params ++ Stmt.listIdentifiers body, C.names name)
    (hbody : List.Forall₂ (Stmt.Alike C.places C.places) body body') {s s' : ScopeId}
    (hs : C.scope w s s') :
    C.Simulates Q C.value w (Machine.makeFunction ⟨name, params, body, s⟩)
      (Machine.makeFunction ⟨name, params, body', s'⟩) := by
  intro m m' hm
  obtain ⟨w', hw, hvalue, hm⟩ := C.makeFunction name params hnames hm hs hbody
  exact .ok hw hvalue hm

theorem readClock : C.Simulates Q C.value w Machine.readClock Machine.readClock := by
  intro m m' hm
  obtain ⟨htime, w', hw, hm⟩ := C.readClock hm
  rw [Machine.readClock, Machine.readClock, htime]
  exact .ok hw ((C.likeness w').number _) hm

theorem write (text : String) {span span' : Span} (h : Q span span') :
    C.Simulates Q C.Equal w (Machine.write text span) (Machine.write text span') := by
  intro m m' hm
  obtain ⟨hfits, w', hw, hm⟩ := C.write text hm
  simp only [Machine.write, hfits]
  split
  · exact .ok hw rfl hm
  · exact .error hw (.failed _ h) hm

end Simulates

/-! ## Expressions -/

/-- The calls agree on functions and arguments that correspond, in every world. -/
def CallsAgree (Q : Span → Span → Prop) (call call' : Call H) : Prop :=
  ∀ {w : C.World} {f f' : Value H} {args args' : List (Value H)} {span span' : Span},
    C.value w f f' → List.Forall₂ (C.value w) args args' → Q span span' →
    C.Simulates Q C.value w (call f args span) (call' f' args' span')

variable {C}

theorem forall₂_later {w w' : C.World} (hw : C.Later w w') {args args' : List (Value H)}
    (h : List.Forall₂ (C.value w) args args') : List.Forall₂ (C.value w') args args' :=
  h.imp fun _ _ hv => C.value_later hw hv

theorem simulates_checkCall {f f' : Value H} (hf : C.value w f f') (count : Nat) {span span' : Span}
    (h : Q span span') :
    C.Simulates Q C.Equal w (checkCall f count span) (checkCall f' count span') := by
  have hlooks := (C.likeness w).looks hf
  rw [checkCall, checkCall, hlooks.arity?_eq, hlooks.typeName_eq]
  split
  · exact .fail _ h
  · split
    · exact .pure rfl
    · exact .fail _ h

variable {call call' : Call H}

theorem simulates_evalArgs {args : List (Expr × Expr)} {s s' : ScopeId}
    (h : ∀ a ∈ args, ∀ {w}, C.scope w s s' →
      C.Simulates Q C.value w (evalExpr call s a.1) (evalExpr call' s' a.2))
    (hs : C.scope w s s') :
    C.Simulates Q (fun w => List.Forall₂ (C.value w)) w (evalArgs call s (args.map Prod.fst))
      (evalArgs call' s' (args.map Prod.snd)) := by
  induction args generalizing w with
  | nil => exact .pure .nil
  | cons a args ih =>
    obtain ⟨ha, hargs⟩ := List.forall_mem_cons.mp h
    rw [List.map_cons, List.map_cons, evalArgs, evalArgs]
    refine (ha hs).bind fun w₁ hw v v' hv => ?_
    refine (ih hargs (C.scope_later hw hs)).bind fun w₂ hw vs vs' hvs => ?_
    exact .pure (.cons (C.value_later hw hv) hvs)

theorem simulates_evalExpr (hcall : C.CallsAgree Q call call') {e e' : Expr} (h : Expr.Alike Q e e')
    (hnames : ∀ name ∈ e.identifiers, C.names name) {s s' : ScopeId} (hs : C.scope w s s') :
    C.Simulates Q C.value w (evalExpr call s e) (evalExpr call' s' e') := by
  induction h generalizing w with
  | literal _ =>
    rw [evalExpr, evalExpr]
    exact .pure ((C.likeness w).ofConstant _)
  | ident h =>
    rw [evalExpr, evalExpr]
    exact .lookup (hnames _ List.mem_cons_self) hs h
  | assign h _ ih =>
    obtain ⟨hname, hnames⟩ := List.forall_mem_cons.mp hnames
    rw [evalExpr, evalExpr]
    refine (ih hnames hs).bind fun w₁ hw v v' hv => ?_
    refine (Simulates.assign hname (C.scope_later hw hs) hv h).bind fun w₂ hw _ _ _ => ?_
    exact .pure (C.value_later hw hv)
  | unary h _ ih =>
    rw [evalExpr, evalExpr]
    exact (ih hnames hs).bind fun w₁ _ v v' hv => .orFail ((C.likeness w₁).unary _ hv) h
  | binary h _ _ ihl ihr =>
    obtain ⟨hleft, hright⟩ := List.forall_mem_append.mp hnames
    rw [evalExpr, evalExpr]
    refine (ihl hleft hs).bind fun w₁ hw v v' hv => ?_
    refine (ihr hright (C.scope_later hw hs)).bind fun w₂ hw u u' hu => ?_
    exact .orFail ((C.likeness w₂).binary _ (C.value_later hw hv) hu) h
  | @logical _ _ op _ _ _ _ _ _ _ ihl ihr =>
    obtain ⟨hleft, hright⟩ := List.forall_mem_append.mp hnames
    rw [evalExpr, evalExpr]
    refine (ihl hleft hs).bind fun w₁ hw v v' hv => ?_
    have hdecided : op.decidedBy v = op.decidedBy v' := by
      cases op <;> simp only [LogicalOp.decidedBy, ((C.likeness w₁).looks hv).truthy_eq]
    rw [hdecided]
    split
    · exact .pure hv
    · exact ihr hright (C.scope_later hw hs)
  | group _ _ ih =>
    rw [evalExpr, evalExpr]
    exact ih hnames hs
  | call _ hparen _ _ ih ihargs =>
    obtain ⟨hcallee, hothers⟩ := List.forall_mem_append.mp hnames
    rw [Expr.forall_mem_listIdentifiers, List.forall_mem_map] at hothers
    rw [evalExpr, evalExpr]
    refine (ih hcallee hs).bind fun w₁ hw f f' hf => ?_
    have hargs := simulates_evalArgs (fun a ha => ihargs a ha (hothers a ha)) (C.scope_later hw hs)
    refine hargs.bind fun w₂ hw vs vs' hvs => ?_
    have hf := C.value_later hw hf
    rw [hvs.length_eq]
    refine (simulates_checkCall hf _ hparen).bind fun w₃ hw _ _ _ => ?_
    exact hcall (C.value_later hw hf) (forall₂_later hw hvs) hparen

theorem simulates_evalOptional (hcall : C.CallsAgree Q call call') {e e' : Option Expr}
    (h : Option.Rel (Expr.Alike Q) e e')
    (hnames : ∀ name ∈ Expr.listIdentifiers e.toList, C.names name) {s s' : ScopeId}
    (hs : C.scope w s s') :
    C.Simulates Q C.value w (evalOptional call s e) (evalOptional call' s' e') := by
  cases h with
  | none => exact .pure (C.likeness w).nil
  | some h =>
    rw [Expr.forall_mem_listIdentifiers] at hnames
    exact simulates_evalExpr hcall h (hnames _ List.mem_cons_self) hs

/-! ## Statements -/

variable (C) in
/-- The statements ended in the same way, with values that correspond if they returned one. -/
inductive FlowAgrees (w : C.World) : Flow H → Flow H → Prop where
  | normal : FlowAgrees w .normal .normal
  | returned {v v' : Value H} (h : C.value w v v') : FlowAgrees w (.returned v) (.returned v')

theorem simulates_repeatWhile {cond cond' : Eval H (Value H)} {body body' : Eval H (Flow H)}
    (hcond : ∀ {w'}, C.Later w w' → C.Simulates Q C.value w' cond cond')
    (hbody : ∀ {w'}, C.Later w w' → C.Simulates Q C.FlowAgrees w' body body') (turns : Nat) :
    C.Simulates Q C.FlowAgrees w (repeatWhile cond body turns) (repeatWhile cond' body' turns) := by
  induction turns generalizing w with
  | zero => exact .exhausted
  | succ turns ih =>
    rw [repeatWhile, repeatWhile]
    refine (hcond (C.later_refl w)).bind fun w₁ hw₁ v v' hv => ?_
    rw [((C.likeness w₁).looks hv).truthy_eq]
    split
    · refine (hbody hw₁).bind fun w₂ hw₂ flow flow' hflow => ?_
      cases hflow with
      | returned h => exact .pure (.returned h)
      | normal =>
        have hw := C.later_trans hw₁ hw₂
        exact ih (fun hw' => hcond (C.later_trans hw hw'))
          fun hw' => hbody (C.later_trans hw hw')
    · exact .pure .normal

theorem simulates_execAll_of_pairs {turns : Nat} {s s' : ScopeId} {body : List (Stmt × Stmt)}
    (h : ∀ b ∈ body, ∀ {w}, C.home w s s' →
      C.Simulates Q C.FlowAgrees w (execStmt call turns s b.1) (execStmt call' turns s' b.2))
    (hs : C.home w s s') :
    C.Simulates Q C.FlowAgrees w (execAll call turns s (body.map Prod.fst))
      (execAll call' turns s' (body.map Prod.snd)) := by
  induction body generalizing w with
  | nil => exact .pure .normal
  | cons b body ih =>
    obtain ⟨hb, hbody⟩ := List.forall_mem_cons.mp h
    rw [List.map_cons, List.map_cons, execAll, execAll]
    refine (hb hs).bind fun w₁ hw flow flow' hflow => ?_
    cases hflow with
    | normal => exact ih hbody (C.home_later hw hs)
    | returned h => exact .pure (.returned h)

/-- **Statements keep machines in correspondence.** A statement that declares no name where it
stands can be run in any scopes that correspond. -/
theorem simulates_execStmt (turns : Nat) {t t' : Stmt} (h : Stmt.Alike C.places Q t t') :
    (∀ name ∈ t.identifiers, C.names name) → C.CallsAgree Q call call' →
      ∀ {w s s'}, C.scope w s s' → (t.binds = true → C.home w s s') →
      C.Simulates Q C.FlowAgrees w (execStmt call turns s t) (execStmt call' turns s' t') := by
  induction h with
  | block _ _ ih =>
    intro hnames hcall w s s' hs hhome
    rw [Stmt.identifiers, Stmt.forall_mem_listIdentifiers, List.forall_mem_map] at hnames
    rw [execStmt, execStmt]
    refine (Simulates.newScope hs).bind fun w₁ _ inner inner' hinner => ?_
    refine simulates_execAll_of_pairs (fun b hb _ hs => ?_) hinner
    exact ih b hb (hnames b hb) hcall (C.scope_of_home hs) fun _ => hs
  | expr _ hvalue =>
    intro hnames hcall w s s' hs hhome
    rw [execStmt, execStmt]
    exact (simulates_evalExpr hcall hvalue hnames hs).bind fun _ _ _ _ _ => .pure .normal
  | func _ hbody _ =>
    intro hnames hcall w s s' hs hhome
    obtain ⟨hname, hothers⟩ := List.forall_mem_cons.mp hnames
    rw [execStmt, execStmt]
    refine (Simulates.makeFunction _ hothers (forall₂_of_pairs hbody) hs).bind
      fun w₁ hw f f' hf => ?_
    exact (Simulates.define hname (C.home_later hw (hhome rfl)) hf).bind
      fun _ _ _ _ _ => .pure .normal
  | ifThen _ hcond _ ih =>
    intro hnames hcall w s s' hs hhome
    obtain ⟨hcondNames, hnames⟩ := List.forall_mem_append.mp hnames
    rw [execStmt, execStmt]
    refine (simulates_evalExpr hcall hcond hcondNames hs).bind fun w₁ hw v v' hv => ?_
    rw [((C.likeness w₁).looks hv).truthy_eq]
    split
    · exact ih hnames hcall (C.scope_later hw hs) fun hbinds => C.home_later hw (hhome hbinds)
    · exact .pure .normal
  | ifElse _ hcond _ _ ihyes ihno =>
    intro hnames hcall w s s' hs hhome
    obtain ⟨hcondNames, hnames⟩ := List.forall_mem_append.mp hnames
    obtain ⟨hyesNames, hnoNames⟩ := List.forall_mem_append.mp hnames
    rw [execStmt, execStmt]
    refine (simulates_evalExpr hcall hcond hcondNames hs).bind fun w₁ hw v v' hv => ?_
    rw [((C.likeness w₁).looks hv).truthy_eq]
    split
    · exact ihyes hyesNames hcall (C.scope_later hw hs) fun hbinds =>
        C.home_later hw (hhome (by rw [Stmt.binds, hbinds, Bool.true_or]))
    · exact ihno hnoNames hcall (C.scope_later hw hs) fun hbinds =>
        C.home_later hw (hhome (by rw [Stmt.binds, hbinds, Bool.or_true]))
  | print h hvalue =>
    intro hnames hcall w s s' hs hhome
    rw [execStmt, execStmt]
    refine (simulates_evalExpr hcall hvalue hnames hs).bind fun w₁ _ v v' hv => ?_
    rw [((C.likeness w₁).looks hv).display_eq]
    exact (Simulates.write _ h).bind fun _ _ _ _ _ => .pure .normal
  | ret _ hvalue =>
    intro hnames hcall w s s' hs hhome
    rw [execStmt, execStmt]
    exact (simulates_evalOptional hcall hvalue hnames hs).bind
      fun _ _ v v' hv => .pure (.returned hv)
  | var _ hvalue =>
    intro hnames hcall w s s' hs hhome
    obtain ⟨hname, hothers⟩ := List.forall_mem_cons.mp hnames
    rw [execStmt, execStmt]
    refine (simulates_evalOptional hcall hvalue hothers hs).bind fun w₁ hw v v' hv => ?_
    exact (Simulates.define hname (C.home_later hw (hhome rfl)) hv).bind
      fun _ _ _ _ _ => .pure .normal
  | whileDo _ hcond _ ih =>
    intro hnames hcall w s s' hs hhome
    obtain ⟨hcondNames, hnames⟩ := List.forall_mem_append.mp hnames
    rw [execStmt, execStmt]
    exact simulates_repeatWhile
      (fun hw => simulates_evalExpr hcall hcond hcondNames (C.scope_later hw hs))
      (fun hw => ih hnames hcall (C.scope_later hw hs)
        fun hbinds => C.home_later hw (hhome hbinds)) turns

theorem simulates_execAll (hcall : C.CallsAgree Q call call') (turns : Nat) {body body' : List Stmt}
    (h : List.Forall₂ (Stmt.Alike C.places Q) body body')
    (hnames : ∀ name ∈ Stmt.listIdentifiers body, C.names name) {s s' : ScopeId}
    (hs : C.home w s s') :
    C.Simulates Q C.FlowAgrees w (execAll call turns s body) (execAll call' turns s' body') := by
  obtain ⟨pairs, rfl, rfl, hpairs⟩ := exists_pairs h
  rw [Stmt.forall_mem_listIdentifiers, List.forall_mem_map] at hnames
  refine simulates_execAll_of_pairs (fun b hb _ hs => ?_) hs
  exact simulates_execStmt turns (hpairs b hb) (hnames b hb) hcall (C.scope_of_home hs) fun _ => hs

/-! ## Calls and programs -/

theorem simulates_bindParams {params : List String} (hnames : ∀ name ∈ params, C.names name)
    {args args' : List (Value H)} {s s' : ScopeId} (h : List.Forall₂ (C.value w) args args')
    (hs : C.home w s s') :
    C.Simulates Q C.Equal w (bindParams s params args) (bindParams s' params args') := by
  induction params generalizing w args args' with
  | nil =>
    rw [bindParams, bindParams]
    · exact .pure rfl
    all_goals exact nofun
  | cons param params ih =>
    cases h with
    | nil => exact .pure rfl
    | cons hv hvs =>
      obtain ⟨hname, hnames⟩ := List.forall_mem_cons.mp hnames
      rw [bindParams, bindParams]
      refine (Simulates.define hname hs hv).bind fun w₁ hw _ _ _ => ?_
      exact ih hnames (forall₂_later hw hvs) (C.home_later hw hs)

theorem callsAgree_enter {exec exec' : ScopeId → List Stmt → Eval H (Flow H)}
    (hexec : ∀ {w s s' body body'}, C.home w s s' →
      List.Forall₂ (Stmt.Alike C.places C.places) body body' →
      (∀ name ∈ Stmt.listIdentifiers body, C.names name) →
      C.Simulates C.places C.FlowAgrees w (exec s body) (exec' s' body'))
    (hQ : ∀ span span', C.places span span' → Q span span') :
    C.CallsAgree Q (enter exec) (enter exec') := by
  intro w f f' args args' span span' hf hargs hspan
  cases (C.likeness w).looks hf with
  | @function id id' c c' _ hparams =>
    obtain ⟨hbody, hs, hnames⟩ := C.body hf
    obtain ⟨hparamNames, hbodyNames⟩ := List.forall_mem_append.mp hnames
    rw [enter, enter, ← hparams]
    refine (Simulates.newScope hs).bind fun w₁ hw scope scope' hscope => ?_
    refine (simulates_bindParams hparamNames (forall₂_later hw hargs) hscope).bind
      fun w₂ hw _ _ _ => ?_
    refine ((hexec (C.home_later hw hscope) hbody hbodyNames).imp hQ).bind
      fun w₃ _ flow flow' hflow => ?_
    cases hflow with
    | normal => exact .pure (C.likeness w₃).nil
    | returned hv => exact .pure hv
  | native id id' fn =>
    cases fn with
    | clock => exact .readClock
    | host function => exact .orFail (C.host function hargs) hspan
  | _ => exact .fail _ hspan

/-- **Calls keep machines in correspondence.** The fault of a call may lie in the body of a
function, or where the call is made. -/
theorem callsAgree_callWith (hQ : ∀ span span', C.places span span' → Q span span') (fuel : Nat) :
    C.CallsAgree Q (callWith fuel) (callWith fuel) := by
  induction fuel generalizing Q with
  | zero => exact fun _ _ _ => .exhausted
  | succ fuel ih =>
    rw [callWith_succ]
    refine callsAgree_enter (fun hs hbody hnames => ?_) hQ
    exact simulates_execAll (ih fun _ _ h => h) fuel hbody hnames hs

end Correspondence

namespace Machine

/-- Both programs ended in the same way, with faults at places related by `Q`. -/
inductive Ending.Alike (Q : Span → Span → Prop) : Ending → Ending → Prop where
  | finished : Alike Q .finished .finished
  | failed (fault : Fault) {span span' : Span} (h : Q span span') :
      Alike Q (.failed ⟨fault, span⟩) (.failed ⟨fault, span'⟩)
  | exhausted : Alike Q .exhausted .exhausted

theorem Ending.eq_of_alike {ending ending' : Ending} (h : Ending.Alike (· = ·) ending ending') :
    ending = ending' := by
  cases h with
  | finished => rfl
  | failed fault hspan => rw [hspan]
  | exhausted => rfl

end Machine

/-- **Running programs that are alike on machines that correspond.** The global scopes have to be
such that names can be declared in them. -/
theorem Correspondence.execute [Host H] (C : Correspondence H) {Q : Span → Span → Prop}
    (hQ : ∀ span span', C.places span span' → Q span span') (fuel : Nat)
    {program program' : Program} (hprogram : List.Forall₂ (Stmt.Alike C.places Q) program program')
    (hnames : ∀ name ∈ program.identifiers, C.names name) {w : C.World} {m m' : Machine H}
    (hm : C.machine w m m') (hglobals : C.home w m.globals m'.globals) :
    (m.execute fuel program).1.Alike Q (m'.execute fuel program').1 ∧
      ∃ w', C.Later w w' ∧
        C.machine w' (m.execute fuel program).2 (m'.execute fuel program').2 := by
  have h := simulates_execAll (callsAgree_callWith hQ fuel) fuel hprogram hnames hglobals m m' hm
  rw [Machine.execute, Machine.execute]
  generalize execAll (callWith fuel) fuel m.globals program m = r,
    execAll (callWith fuel) fuel m'.globals program' m' = r' at h
  cases h with
  | ok hw _ hm => exact ⟨.finished, _, hw, hm⟩
  | error hw hstop hm =>
    cases hstop with
    | failed fault hspan => exact ⟨.failed fault hspan, _, hw, hm⟩
    | exhausted => exact ⟨.exhausted, _, hw, hm⟩

end BlockScript
