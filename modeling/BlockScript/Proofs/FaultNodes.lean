import Mathlib.Data.List.Induction
import BlockScript.Proofs.Origins

/-!
# Faults point at nodes

A run that stops with a fault reports the place of the node that raised it, and the node is one that
can raise such a fault. The fault may come from the body of a function that got there from anywhere
in the session, through any chain of calls, and it comes out of all of them unchanged.

For a node in the body of a function to be a node of a program, the function must have been declared
in one. So faults are traced back together with functions: every evaluation that a session comes to
leaves a sound machine, gives a value of which the origin is known, or stops with a fault that was
raised by a node the session came to (`Explained`). This is shown for the parts of a node before the
node and, by induction on the fuel, for the bodies of functions before their calls.

## Main definitions

* `Node.Raises`, `Raised` — the faults that a node can raise, and those that were raised
* `Explained` — an evaluation that leaves a sound machine, or a fault that was raised
* `Expr.Explains`, `Stmt.Explains`, `CallsExplain` — all evaluations of a kind are explained

## Main results

* `explains_expr`, `explains_stmt`, `callsExplain` — every evaluation of a session is explained
* `sound_afterSteps` — every machine of a session is sound
* `exists_raises_of_failed` — the fault of a run points at the node that raised it
-/

namespace BlockScript

variable {H : Type}

theorem Eval.bind_eq_ok {α β : Type} {p : Eval H α} {f : α → Eval H β} {m m' : Machine H} {b : β} :
    (p >>= f) m = .ok b m' ↔ ∃ a m₁, p m = .ok a m₁ ∧ f a m₁ = .ok b m' := by
  rw [Eval.bind_apply]
  cases p m with
  | ok a m₁ => simp
  | error stop m₁ => simp

/-! ## Faults and their nodes -/

/-- The node can raise the fault at the place. -/
inductive Node.Raises : Node → Fault → Span → Prop where
  | ident (span : Span) (name : String) :
      Raises (.expr (.ident span name)) (.undefinedName name) span
  | assign (span : Span) (name : String) (value : Expr) :
      Raises (.expr (.assign span name value)) (.undefinedName name) span
  | negate (span : Span) (operand : Expr) :
      Raises (.expr (.unary span .negate operand)) .operandNotNumber span
  | numbers (span : Span) {op : BinaryOp} (left right : Expr)
      (hop : op ∈ [.subtract, .multiply, .divide, .less, .lessEqual, .greater, .greaterEqual]) :
      Raises (.expr (.binary span op left right)) .operandsNotNumbers span
  | add (span : Span) (left right : Expr) :
      Raises (.expr (.binary span .add left right)) .operandsNotNumbersOrStrings span
  | arity (span paren : Span) (callee : Expr) (args : List Expr) {wanted : Nat}
      (hwanted : wanted ≠ args.length) :
      Raises (.expr (.call span paren callee args)) (.arityMismatch wanted args.length) paren
  | notCallable (span paren : Span) (callee : Expr) (args : List Expr) {type : String}
      (htype : type ≠ "function") :
      Raises (.expr (.call span paren callee args)) (.notCallable type) paren
  | print (span : Span) (value : Expr) :
      Raises (.stmt (.print span value)) (.writeRefused "stdout") span

theorem UnaryOp.raises_of_apply {op : UnaryOp} {v : Value H} {fault : Fault}
    (h : op.apply v = .error fault) (span : Span) (operand : Expr) :
    Node.Raises (.expr (.unary span op operand)) fault span := by
  cases op with
  | not => exact nomatch h
  | negate =>
    cases v with
    | number value => exact nomatch h
    | _ => cases h; exact .negate span operand

theorem UnaryOp.typeName_of_apply {op : UnaryOp} {v u : Value H} (h : op.apply v = .ok u) :
    u.typeName ≠ "function" := by
  cases op with
  | not => cases h; simp [Value.typeName]
  | negate =>
    cases v with
    | number value => cases h; simp [Value.typeName]
    | _ => cases h

theorem BinaryOp.raises_of_apply {op : BinaryOp} {v w : Value H} {fault : Fault}
    (h : op.apply v w = .error fault) (span : Span) (left right : Expr) :
    Node.Raises (.expr (.binary span op left right)) fault span := by
  cases op with
  | equal | notEqual => exact nomatch h
  | add =>
    obtain rfl : fault = .operandsNotNumbersOrStrings := by
      cases v <;> cases w <;> simp_all [BinaryOp.apply]
    exact .add span left right
  | _ =>
    obtain rfl : fault = .operandsNotNumbers := by
      cases v <;> cases w <;> simp_all [BinaryOp.apply]
    exact .numbers span left right (by decide)

theorem BinaryOp.typeName_of_apply {op : BinaryOp} {v w u : Value H} (h : op.apply v w = .ok u) :
    u.typeName ≠ "function" := by
  obtain ⟨value, rfl⟩ | ⟨value, rfl⟩ | ⟨value, rfl⟩ :
      (∃ value, u = .number value) ∨ (∃ value, u = .text value) ∨ ∃ value, u = .bool value := by
    cases op <;> cases v <;> cases w <;> simp_all [BinaryOp.apply, eq_comm]
  all_goals simp [Value.typeName]

theorem Value.typeName_of_arity? [Signature H] {v : Value H} (h : v.arity? = none) :
    v.typeName ≠ "function" := by
  cases v with
  | function | native => exact nomatch h
  | _ => simp [typeName]

variable [Host H] {start : Machine H} {steps : List (Session.Step H)} {m m' : Machine H}
  {v : Value H}

/-! ## Evaluations that are explained -/

variable (start steps) in
/-- The fault was raised at some moment, by the node itself or by a host function that it called. -/
def Raised (fault : Located) : Prop :=
  ∃ moment, Visited start steps moment ∧
    (moment.site.node.Raises fault.fault fault.span ∨
      ∃ span callee args function values,
        moment.site.node = .expr (.call span fault.span callee args) ∧
          .define (.host function) ∈ steps ∧ Host.call function values = .error fault.fault)

variable (start steps) in
/-- An evaluation that begins with the machine `m` leaves a sound one. What it gives has the
property `V`, and if it stops with a fault then that was raised. -/
inductive Explained {α : Type} (m : Machine H) (V : Machine H → α → Prop) :
    EStateM.Result Stop (Machine H) α → Prop where
  | ok {a : α} {m' : Machine H} (hm : m.Reaches 0 m') (hsound : Sound start steps m')
      (ha : V m' a) : Explained m V (.ok a m')
  | error {stop : Stop} {m' : Machine H} (hm : m.Reaches 0 m') (hsound : Sound start steps m')
      (hstop : ∀ fault, stop = .failed fault → Raised start steps fault) :
      Explained m V (.error stop m')

variable (start steps) in
/-- A value that is returned is known. -/
def FlowKnown (m : Machine H) (flow : Flow H) : Prop :=
  ∀ v, flow = .returned v → Known start steps m v

theorem FlowKnown.normal : FlowKnown start steps m .normal := by
  intro v h
  cases h

namespace Explained

variable {α β : Type} {V : Machine H → α → Prop} {W : Machine H → β → Prop}

theorem earlier {r : EStateM.Result Stop (Machine H) α} (hm : m.Reaches 0 m')
    (h : Explained start steps m' V r) : Explained start steps m V r := by
  cases h with
  | ok hm' hsound ha => exact .ok (hm.trans hm') hsound ha
  | error hm' hsound hstop => exact .error (hm.trans hm') hsound hstop

theorem reaches {r : EStateM.Result Stop (Machine H) α} (h : Explained start steps m V r) :
    m.Reaches 0 (Machine.after r) := by
  cases h with
  | ok hm _ _ => exact hm
  | error hm _ _ => exact hm

theorem sound {r : EStateM.Result Stop (Machine H) α} (h : Explained start steps m V r) :
    Sound start steps (Machine.after r) := by
  cases h with
  | ok _ hsound _ => exact hsound
  | error _ hsound _ => exact hsound

/-- **Sequencing.** What comes next knows what came before it, and on what machine. -/
theorem bind {p : Eval H α} {f : α → Eval H β} (h : Explained start steps m V (p m))
    (hf : ∀ a m₁, p m = .ok a m₁ → m.Reaches 0 m₁ → Sound start steps m₁ → V m₁ a →
      Explained start steps m₁ W (f a m₁)) : Explained start steps m W ((p >>= f) m) := by
  rw [Eval.bind_apply]
  cases hp : p m with
  | ok a m₁ =>
    rw [hp] at h
    cases h with
    | ok hm hsound ha => exact (hf a m₁ hp hm hsound ha).earlier hm
  | error stop m₁ =>
    rw [hp] at h
    cases h with
    | error hm hsound hstop => exact .error hm hsound hstop

section Actions

variable (hm : Sound start steps m) {scope : ScopeId}
include hm

protected theorem pure {a : α} (ha : V m a) : Explained start steps m V ((pure a : Eval H α) m) :=
  .ok .refl hm ha

theorem fail {fault : Fault} {span : Span} (h : Raised start steps ⟨fault, span⟩) :
    Explained start steps m V (Machine.fail fault span m) :=
  .error .refl hm fun _ hfault => Stop.failed.inj hfault ▸ h

theorem exhausted : Explained start steps m V (Machine.exhausted m) :=
  .error .refl hm fun _ hfault => nomatch hfault

theorem orFail {r : Except Fault α} {span : Span} (hok : ∀ a, r = .ok a → V m a)
    (herror : ∀ fault, r = .error fault → Raised start steps ⟨fault, span⟩) :
    Explained start steps m V (orFail r span m) := by
  cases r with
  | ok a => exact .pure hm (hok a rfl)
  | error fault => exact .fail hm (herror fault rfl)

theorem newScope (hscope : m.InUse scope) :
    Explained start steps m Machine.InUse (Machine.newScope (some scope) m) :=
  .ok (.single (.newScope m (some scope))) (hm.push hscope) (hm.inUse_next (some scope))

theorem define (hscope : m.InUse scope) (name : String) (hv : Known start steps m v) :
    Explained start steps m (fun _ _ => True) (Machine.define scope name v m) := by
  have hreaches := Machine.Reaches.single (.define m (Nat.zero_le scope) name v)
  exact .ok hreaches (hm.bind hreaches.precedes rfl rfl hscope.lt hv) trivial

theorem lookup (hscope : m.InUse scope) {name : String} {span : Span}
    (h : Raised start steps ⟨.undefinedName name, span⟩) :
    Explained start steps m (Known start steps) (Machine.lookup scope name span m) := by
  rw [Machine.lookup]
  split
  · next v hget => exact .ok .refl hm (hm.known_of_get? hscope hget)
  · exact .fail hm h

theorem assign (hscope : m.InUse scope) {name : String} {span : Span}
    (hv : Known start steps m v) (h : Raised start steps ⟨.undefinedName name, span⟩) :
    Explained start steps m (fun _ _ => True) (Machine.assign scope name v span m) := by
  rw [Machine.assign]
  split
  · next owner howner => exact .define hm (hm.inUse_of_resolve hscope howner) name hv
  · exact .fail hm h

theorem readClock : Explained start steps m (Known start steps) (Machine.readClock m) := by
  have hreaches := Machine.Reaches.single (n := 0) (.readClock m)
  exact .ok hreaches (hm.of_scopes_eq hreaches.precedes rfl rfl) trivial

theorem write (text : String) {span : Span}
    (h : Raised start steps ⟨.writeRefused "stdout", span⟩) :
    Explained start steps m (fun _ _ => True) (Machine.write text span m) := by
  have hreaches := Machine.Reaches.single (n := 0) (.write m text)
  have hsound := hm.of_scopes_eq hreaches.precedes rfl rfl
  simp only [Machine.write]
  split
  · exact .ok hreaches hsound trivial
  · exact .error hreaches hsound fun _ hfault => Stop.failed.inj hfault ▸ h

theorem bindParams (hscope : m.InUse scope) (params : List String) {args : List (Value H)}
    (hargs : ∀ v ∈ args, Known start steps m v) :
    Explained start steps m (fun _ _ => True) (bindParams scope params args m) := by
  induction params generalizing m args with
  | nil => exact .pure hm trivial
  | cons param params ih =>
    cases args with
    | nil => exact .pure hm trivial
    | cons arg args =>
      obtain ⟨harg, hargs⟩ := List.forall_mem_cons.mp hargs
      rw [BlockScript.bindParams]
      refine (Explained.define hm hscope param harg).bind fun _ m₁ _ hreaches hsound _ => ?_
      exact ih hsound (hscope.reaches hreaches) fun v hv => (hargs v hv).reaches hreaches

end Actions

end Explained

/-! ## Evaluation -/

variable {n : Nat}

theorem Visited.begins {site : Site} {scope scope' : ScopeId} {node node' : Node}
    (h : Visited start steps ⟨n, site, scope, m⟩) (hnode : site.node = node)
    (hbegins : Begins n node scope m node' scope' m') :
    Visited start steps ⟨n, site.part node', scope', m'⟩ :=
  .part h (hnode ▸ hbegins)

theorem Visited.raised {moment : Moment H} (h : Visited start steps moment) {node : Node}
    (hnode : moment.site.node = node) {fault : Fault} {span : Span}
    (hraises : node.Raises fault span) : Raised start steps ⟨fault, span⟩ :=
  ⟨moment, h, .inl (hnode ▸ hraises)⟩

variable (start steps) in
/-- Wherever the session comes to the expression, with the fuel `n`, its evaluation is explained. -/
def Expr.Explains (n : Nat) (e : Expr) : Prop :=
  ∀ {site : Site} {scope : ScopeId} {m : Machine H}, site.node = .expr e →
    Visited start steps ⟨n, site, scope, m⟩ → Sound start steps m → m.InUse scope →
    Explained start steps m (Known start steps) (evalExpr (callWith n) scope e m)

variable (start steps) in
/-- Wherever the session comes to the statement, with the fuel `n`, its run is explained. -/
def Stmt.Explains (n : Nat) (s : Stmt) : Prop :=
  ∀ {site : Site} {scope : ScopeId} {m : Machine H}, site.node = .stmt s →
    Visited start steps ⟨n, site, scope, m⟩ → Sound start steps m → m.InUse scope →
    Explained start steps m (FlowKnown start steps) (execStmt (callWith n) n scope s m)

variable (start steps) in
/-- Wherever the session comes to a call, with the fuel `n`, and has found the function and the
arguments, the rest of the call is explained. -/
def CallsExplain (n : Nat) : Prop :=
  ∀ {site : Site} {scope : ScopeId} {m m₁ m₂ : Machine H} {span paren : Span} {callee : Expr}
    {args : List Expr} {f : Value H} {values : List (Value H)},
    site.node = .expr (.call span paren callee args) → Visited start steps ⟨n, site, scope, m⟩ →
    evalExpr (callWith n) scope callee m = .ok f m₁ →
    evalArgs (callWith n) scope args m₁ = .ok values m₂ →
    f.arity? = some values.length → Sound start steps m₂ → Known start steps m₂ f →
    (∀ v ∈ values, Known start steps m₂ v) →
    Explained start steps m₂ (Known start steps) (callWith n f values paren m₂)

/-! ### Expressions -/

theorem evalArgs_cons_eq_ok {call : Call H} {scope : ScopeId} {e : Expr} {args : List Expr}
    {values : List (Value H)} : evalArgs call scope (e :: args) m = .ok values m' ↔
      ∃ v m₁ vs, evalExpr call scope e m = .ok v m₁ ∧ evalArgs call scope args m₁ = .ok vs m' ∧
        values = v :: vs := by
  rw [evalArgs, Eval.bind_eq_ok]
  constructor
  · rintro ⟨v, m₁, hv, hrest⟩
    obtain ⟨vs, m₂, hvs, hpure⟩ := Eval.bind_eq_ok.mp hrest
    injection hpure with hvalues hm
    subst hvalues hm
    exact ⟨v, m₁, vs, hv, hvs, rfl⟩
  · rintro ⟨v, m₁, vs, hv, hvs, rfl⟩
    exact ⟨v, m₁, hv, Eval.bind_eq_ok.mpr ⟨vs, m', hvs, rfl⟩⟩

theorem length_of_evalArgs {call : Call H} {scope : ScopeId} {args : List Expr}
    {values : List (Value H)} (h : evalArgs call scope args m = .ok values m') :
    values.length = args.length := by
  induction args generalizing m values with
  | nil =>
    rw [evalArgs] at h
    injection h with h
    rw [← h]
    rfl
  | cons e args ih =>
    obtain ⟨v, m₁, vs, -, hargs, rfl⟩ := evalArgs_cons_eq_ok.mp h
    rw [List.length_cons, ih hargs, List.length_cons]

theorem evalArgs_concat {call : Call H} {scope : ScopeId} {args : List Expr} {e : Expr}
    {values : List (Value H)} {m m₁ m₂ : Machine H} (h : evalArgs call scope args m = .ok values m₁)
    (he : evalExpr call scope e m₁ = .ok v m₂) :
    evalArgs call scope (args ++ [e]) m = .ok (values ++ [v]) m₂ := by
  induction args generalizing m values with
  | nil =>
    rw [evalArgs] at h
    injection h with h hm
    subst h hm
    rw [List.nil_append]
    exact evalArgs_cons_eq_ok.mpr ⟨v, m₂, [], he, by rw [evalArgs]; rfl, rfl⟩
  | cons e' args ih =>
    obtain ⟨u, m₃, us, hu, hargs, rfl⟩ := evalArgs_cons_eq_ok.mp h
    exact evalArgs_cons_eq_ok.mpr ⟨u, m₃, us ++ [v], hu, ih hargs, rfl⟩

/-- The arguments of a call, or the first few of them, one after the other. -/
theorem explained_evalArgs {args others : List Expr}
    (hargs : ∀ e ∈ args, e.Explains start steps n) {site : Site} {scope : ScopeId}
    {m₁ : Machine H} {span paren : Span} {callee : Expr} {f : Value H}
    (hnode : site.node = .expr (.call span paren callee (args ++ others)))
    (hvisited : Visited start steps ⟨n, site, scope, m⟩)
    (hcallee : evalExpr (callWith n) scope callee m = .ok f m₁) (hm₁ : Sound start steps m₁)
    (hscope : m₁.InUse scope) :
    Explained start steps m₁ (fun m values => ∀ v ∈ values, Known start steps m v)
      (evalArgs (callWith n) scope args m₁) := by
  -- By induction on the arguments that are left, after others were evaluated.
  have key : ∀ (rest done : List Expr) (values : List (Value H)) (m₂ : Machine H),
      args = done ++ rest → evalArgs (callWith n) scope done m₁ = .ok values m₂ →
      Sound start steps m₂ → m₂.InUse scope →
      Explained start steps m₂ (fun m values => ∀ v ∈ values, Known start steps m v)
        (evalArgs (callWith n) scope rest m₂) := by
    intro rest
    induction rest with
    | nil => exact fun _ _ m₂ _ _ hm₂ _ => by rw [evalArgs]; exact .pure hm₂ (List.forall_mem_nil _)
    | cons e rest ih =>
      intro done values m₂ hsplit hdone hm₂ hscope
      have he : e ∈ args := hsplit ▸ List.mem_append_right done List.mem_cons_self
      rw [hsplit, List.append_assoc, List.cons_append] at hnode
      rw [evalArgs]
      refine (hargs e he rfl (hvisited.begins hnode (.arg hcallee hdone)) hm₂ hscope).bind
        fun v m₃ hv hreaches hm₃ hknown => ?_
      have hothers := ih (done ++ [e]) (values ++ [v]) m₃ (by rw [hsplit, List.append_assoc]; rfl)
        (evalArgs_concat hdone hv) hm₃ (hscope.reaches hreaches)
      refine hothers.bind fun vs m₄ _ hreaches' hm₄ hvs => .pure hm₄ ?_
      exact List.forall_mem_cons.mpr ⟨hknown.reaches hreaches', hvs⟩
  exact key args [] [] m₁ rfl (by rw [evalArgs]; rfl) hm₁ hscope

/-- The check before a call. -/
theorem explained_checkCall {f : Value H} {count : Nat} {paren : Span} (hm : Sound start steps m)
    (htype : ∀ type, type ≠ "function" → Raised start steps ⟨.notCallable type, paren⟩)
    (hcount : ∀ wanted, wanted ≠ count → Raised start steps ⟨.arityMismatch wanted count, paren⟩) :
    Explained start steps m (fun _ _ => f.arity? = some count) (checkCall f count paren m) := by
  rw [checkCall]
  cases harity : f.arity? with
  | none => exact .fail hm (htype _ (Value.typeName_of_arity? harity))
  | some arity =>
    dsimp only
    split
    · next h => exact .pure hm (congrArg some h)
    · next h => exact .fail hm (hcount arity h)

/-- **Every evaluation of an expression** in a session is explained, if calls are. -/
theorem explains_expr (hcall : CallsExplain start steps n) (e : Expr) :
    e.Explains start steps n := by
  induction e using Expr.ind with
  | literal span value =>
    intro site scope m hnode hvisited hm hscope
    rw [evalExpr]
    exact .pure hm (.ofConstant value)
  | ident span name =>
    intro site scope m hnode hvisited hm hscope
    rw [evalExpr]
    exact .lookup hm hscope (hvisited.raised hnode (.ident span name))
  | assign span name value ih =>
    intro site scope m hnode hvisited hm hscope
    rw [evalExpr]
    refine (ih rfl (hvisited.begins hnode (.first rfl)) hm hscope).bind
      fun v m₁ _ hreaches hm₁ hv => ?_
    have hassign := Explained.assign hm₁ (hscope.reaches hreaches) hv
      (hvisited.raised hnode (.assign span name value))
    exact hassign.bind fun _ m₂ _ hreaches' hm₂ _ => .pure hm₂ (hv.reaches hreaches')
  | unary span op operand ih =>
    intro site scope m hnode hvisited hm hscope
    rw [evalExpr]
    refine (ih rfl (hvisited.begins hnode (.first rfl)) hm hscope).bind
      fun v m₁ _ _ hm₁ _ => .orFail hm₁ (fun u hu => ?_) fun fault hfault => ?_
    · exact .of_typeName (UnaryOp.typeName_of_apply hu)
    · exact hvisited.raised hnode (UnaryOp.raises_of_apply hfault span operand)
  | binary span op left right ihleft ihright =>
    intro site scope m hnode hvisited hm hscope
    rw [evalExpr]
    refine (ihleft rfl (hvisited.begins hnode (.first rfl)) hm hscope).bind
      fun v m₁ hv hreaches hm₁ _ => ?_
    refine (ihright rfl (hvisited.begins hnode (.right hv)) hm₁ (hscope.reaches hreaches)).bind
      fun w m₂ _ _ hm₂ _ => .orFail hm₂ (fun u hu => ?_) fun fault hfault => ?_
    · exact .of_typeName (BinaryOp.typeName_of_apply hu)
    · exact hvisited.raised hnode (BinaryOp.raises_of_apply hfault span left right)
  | logical span op left right ihleft ihright =>
    intro site scope m hnode hvisited hm hscope
    rw [evalExpr]
    refine (ihleft rfl (hvisited.begins hnode (.first rfl)) hm hscope).bind
      fun v m₁ hv hreaches hm₁ hknown => ?_
    split
    · exact .pure hm₁ hknown
    · next hdecided =>
      exact ihright rfl (hvisited.begins hnode (.undecided hv (by simpa using hdecided))) hm₁
        (hscope.reaches hreaches)
  | group span inner ih =>
    intro site scope m hnode hvisited hm hscope
    rw [evalExpr]
    exact ih rfl (hvisited.begins hnode (.first rfl)) hm hscope
  | call span paren callee args ih ihargs =>
    intro site scope m hnode hvisited hm hscope
    rw [evalExpr]
    refine (ih rfl (hvisited.begins hnode (.first rfl)) hm hscope).bind
      fun f m₁ hf hreaches hm₁ hknown => ?_
    have hall : site.node = .expr (.call span paren callee (args ++ [])) := by
      rw [hnode, List.append_nil]
    refine (explained_evalArgs ihargs hall hvisited hf hm₁ (hscope.reaches hreaches)).bind
      fun values m₂ hvalues hreaches' hm₂ hvaluesKnown => ?_
    have hlength : values.length = args.length := length_of_evalArgs hvalues
    refine (explained_checkCall hm₂ (fun type htype => ?_) (fun wanted hwanted => ?_)).bind
      fun _ m₃ hchecked _ hm₃ harity => ?_
    · exact hvisited.raised hnode (.notCallable span paren callee args htype)
    · rw [hlength] at hwanted ⊢
      exact hvisited.raised hnode (.arity span paren callee args hwanted)
    · obtain rfl : m₂ = m₃ := by
        rw [checkCall, harity] at hchecked
        simpa [pure, EStateM.pure] using hchecked
      exact hcall hnode hvisited hf hvalues harity hm₂ (hknown.reaches hreaches') hvaluesKnown

/-! ### Statements -/

theorem Completes.concat {call : Call H} {turns : Nat} {scope : ScopeId} {done : List Stmt}
    {s : Stmt} {m m₁ m₂ : Machine H} (h : Completes call turns scope done m m₁)
    (hs : execStmt call turns scope s m₁ = .ok .normal m₂) :
    Completes call turns scope (done ++ [s]) m m₂ := by
  induction h with
  | nil m => exact .cons hs (.nil _)
  | cons hs' _ ih => exact .cons hs' (ih hs)

/-- Statements one after the other, each of which the session comes to after those before it. -/
theorem explained_execAll {body : List Stmt} {scope : ScopeId}
    (hbody : ∀ s ∈ body, s.Explains start steps n)
    (hvisited : ∀ {done rest : List Stmt} {s : Stmt} {m₁ : Machine H}, body = done ++ s :: rest →
      Completes (callWith n) n scope done m m₁ →
      ∃ site : Site, site.node = .stmt s ∧ Visited start steps ⟨n, site, scope, m₁⟩)
    (hm : Sound start steps m) (hscope : m.InUse scope) :
    Explained start steps m (FlowKnown start steps) (execAll (callWith n) n scope body m) := by
  have key : ∀ (rest done : List Stmt) (m₁ : Machine H), body = done ++ rest →
      Completes (callWith n) n scope done m m₁ → Sound start steps m₁ → m₁.InUse scope →
      Explained start steps m₁ (FlowKnown start steps) (execAll (callWith n) n scope rest m₁) := by
    intro rest
    induction rest with
    | nil => exact fun _ m₁ _ _ hm₁ _ => by rw [execAll]; exact .pure hm₁ .normal
    | cons s rest ih =>
      intro done m₁ hsplit hdone hm₁ hscope
      have hs : s ∈ body := hsplit ▸ List.mem_append_right done List.mem_cons_self
      obtain ⟨site, hnode, hvisit⟩ := hvisited hsplit hdone
      rw [execAll]
      refine (hbody s hs hnode hvisit hm₁ hscope).bind fun flow m₂ hflow hreaches hm₂ hknown => ?_
      cases flow with
      | normal =>
        exact ih (done ++ [s]) m₂ (by rw [hsplit, List.append_assoc]; rfl) (hdone.concat hflow) hm₂
          (hscope.reaches hreaches)
      | returned value => exact .pure hm₂ hknown
  exact key body [] m rfl (.nil m) hm hscope

/-- The turns of a loop. -/
theorem explained_repeatWhile {cond : Expr} {body : Stmt} (hcond : cond.Explains start steps n)
    (hbody : body.Explains start steps n) {site : Site} {scope : ScopeId} {span : Span}
    (hnode : site.node = .stmt (.whileDo span cond body))
    (hvisited : Visited start steps ⟨n, site, scope, m⟩) (turns : Nat) {m₁ : Machine H}
    (hturns : Turns n scope cond body m m₁) (hm₁ : Sound start steps m₁) (hscope : m₁.InUse scope) :
    Explained start steps m₁ (FlowKnown start steps)
      (repeatWhile (evalExpr (callWith n) scope cond) (execStmt (callWith n) n scope body) turns
        m₁) := by
  induction turns generalizing m₁ with
  | zero => exact .exhausted hm₁
  | succ turns ih =>
    rw [repeatWhile]
    refine (hcond rfl (hvisited.begins hnode (.test hturns)) hm₁ hscope).bind
      fun v m₂ hv hreaches hm₂ _ => ?_
    split
    · next htrue =>
      have hscope₂ := hscope.reaches hreaches
      refine (hbody rfl (hvisited.begins hnode (.turn hturns hv htrue)) hm₂ hscope₂).bind
        fun flow m₃ hflow hreaches' hm₃ hknown => ?_
      cases flow with
      | normal => exact ih (hturns.tail hv htrue hflow) hm₃ (hscope₂.reaches hreaches')
      | returned value => exact .pure hm₃ hknown
    · exact .pure hm₂ .normal

theorem explained_evalOptional {value : Option Expr}
    (hvalue : ∀ e ∈ value, e.Explains start steps n) {site : Site} {scope : ScopeId}
    (hnode : site.node.first? = value) (hvisited : Visited start steps ⟨n, site, scope, m⟩)
    (hm : Sound start steps m) (hscope : m.InUse scope) :
    Explained start steps m (Known start steps) (evalOptional (callWith n) scope value m) := by
  cases value with
  | none => exact .pure hm trivial
  | some e => exact hvalue e rfl rfl (.part hvisited (.first hnode)) hm hscope

/-- **Every run of a statement** in a session is explained, if calls are. -/
theorem explains_stmt (hcall : CallsExplain start steps n) (s : Stmt) :
    s.Explains start steps n := by
  induction s using Stmt.ind with
  | block span body ih =>
    intro site scope m hnode hvisited hm hscope
    rw [execStmt]
    refine (Explained.newScope hm hscope).bind fun inner m₁ hinner _ hm₁ hscope₁ => ?_
    injection hinner with hinner hpush
    subst hinner hpush
    refine explained_execAll ih (fun {done rest s m₂} hsplit hdone => ?_) hm₁ hscope₁
    have hbegins : Begins n (.stmt (.block span body)) scope m (.stmt s) m.scopes.next m₂ :=
      hsplit ▸ .inner hdone
    exact ⟨_, rfl, hvisited.begins hnode hbegins⟩
  | expr span value =>
    intro site scope m hnode hvisited hm hscope
    rw [execStmt]
    refine (explains_expr hcall value rfl (hvisited.begins hnode (.first rfl)) hm hscope).bind
      fun v m₁ _ _ hm₁ _ => .pure hm₁ .normal
  | func span name params body _ =>
    intro site scope m hnode hvisited hm hscope
    rw [execStmt]
    have hreaches : m.Reaches 0 { m with functionsMade := m.functionsMade + 1 } :=
      .single (.makeFunction m)
    have hmade : Explained start steps m (Known start steps)
        (Machine.makeFunction ⟨name, params, body, scope⟩ m) := by
      refine .ok hreaches (hm.of_scopes_eq hreaches.precedes rfl rfl) ⟨hscope.reaches hreaches, ?_⟩
      exact ⟨_, hvisited, ⟨rfl, rfl, span, hnode⟩, hreaches.precedes⟩
    refine hmade.bind fun f m₁ _ hreaches' hm₁ hf => ?_
    refine (Explained.define hm₁ (hscope.reaches hreaches') name hf).bind
      fun _ m₂ _ _ hm₂ _ => .pure hm₂ .normal
  | ifThen span cond yes ih =>
    intro site scope m hnode hvisited hm hscope
    rw [execStmt]
    refine (explains_expr hcall cond rfl (hvisited.begins hnode (.first rfl)) hm hscope).bind
      fun v m₁ hv hreaches hm₁ _ => ?_
    split
    · next htrue =>
      exact ih rfl (hvisited.begins hnode (.onlyYes hv htrue)) hm₁ (hscope.reaches hreaches)
    · exact .pure hm₁ .normal
  | ifElse span cond yes no ihyes ihno =>
    intro site scope m hnode hvisited hm hscope
    rw [execStmt]
    refine (explains_expr hcall cond rfl (hvisited.begins hnode (.first rfl)) hm hscope).bind
      fun v m₁ hv hreaches hm₁ _ => ?_
    split
    · next htrue =>
      exact ihyes rfl (hvisited.begins hnode (.yes hv htrue)) hm₁ (hscope.reaches hreaches)
    · next hfalse =>
      exact ihno rfl (hvisited.begins hnode (.no hv (by simpa using hfalse))) hm₁
        (hscope.reaches hreaches)
  | print span value =>
    intro site scope m hnode hvisited hm hscope
    rw [execStmt]
    refine (explains_expr hcall value rfl (hvisited.begins hnode (.first rfl)) hm hscope).bind
      fun v m₁ _ _ hm₁ _ => ?_
    refine (Explained.write hm₁ _ (hvisited.raised hnode (.print span value))).bind
      fun _ m₂ _ _ hm₂ _ => .pure hm₂ .normal
  | ret span value =>
    intro site scope m hnode hvisited hm hscope
    have hfirst : site.node.first? = value := by rw [hnode]; cases value <;> rfl
    rw [execStmt]
    refine (explained_evalOptional (fun e _ => explains_expr hcall e) hfirst hvisited hm
      hscope).bind fun v m₁ _ _ hm₁ hv => .pure hm₁ fun u hu => Flow.returned.inj hu ▸ hv
  | var span name value =>
    intro site scope m hnode hvisited hm hscope
    have hfirst : site.node.first? = value := by rw [hnode]; cases value <;> rfl
    rw [execStmt]
    refine (explained_evalOptional (fun e _ => explains_expr hcall e) hfirst hvisited hm
      hscope).bind fun v m₁ _ hreaches hm₁ hv => ?_
    refine (Explained.define hm₁ (hscope.reaches hreaches) name hv).bind
      fun _ m₂ _ _ hm₂ _ => .pure hm₂ .normal
  | whileDo span cond body ih =>
    intro site scope m hnode hvisited hm hscope
    rw [execStmt]
    exact explained_repeatWhile (explains_expr hcall cond) ih hnode hvisited n (.refl m) hm hscope

/-! ### Calls -/

section Sessions

variable (hhost : ∀ function, .define (.host function) ∈ steps → Host.PassesOn function)
include hhost

/-- **Every call** in a session is explained. A function that is called has an origin, and that is
where the statements of its body stand. -/
theorem callsExplain (n : Nat) : CallsExplain start steps n := by
  induction n with
  | zero =>
    intro site scope m m₁ m₂ span paren callee args f values _ _ _ _ _ hm₂ _ _
    exact .exhausted hm₂
  | succ n ih =>
    intro site scope m m₁ m₂ span paren callee args f values hnode hvisited hcallee hargs harity hm₂
      hf hvalues
    rw [callWith_succ]
    cases f with
    | function id c =>
      obtain ⟨hscope, origin, horigin, hmakes, hearlier⟩ := hf
      rw [enter]
      refine (Explained.newScope hm₂ hscope).bind fun inner m₃ hinner hreaches hm₃ hscope₃ => ?_
      injection hinner with hinner hpush
      subst hinner hpush
      refine (Explained.bindParams hm₃ hscope₃ c.params fun v hv =>
        (hvalues v hv).reaches hreaches).bind fun _ m₄ hparams hreaches' hm₄ _ => ?_
      have henters : Enters n site.node scope m id c m₂.scopes.next m₄ :=
        hnode ▸ .call hcallee hargs (Option.some.inj harity) hparams
      have hbody := explained_execAll (fun s _ => explains_stmt ih s)
        (fun hsplit hdone => ⟨_, rfl, .body hvisited rfl henters horigin hmakes
          (hearlier.trans (hreaches.precedes.trans hreaches'.precedes)) hsplit hdone⟩)
        hm₄ (hscope₃.reaches hreaches')
      refine hbody.bind fun flow m₅ _ _ hm₅ hflow => ?_
      cases flow with
      | normal => exact .pure hm₅ trivial
      | returned value => exact .pure hm₅ (hflow value rfl)
    | native id fn =>
      cases fn with
      | clock => exact .readClock hm₂
      | host function =>
        refine .orFail hm₂ (fun v hv => ?_) fun fault hfault => ?_
        · by_cases htype : v.typeName = "function"
          · exact hvalues v (hhost function hf values v hv htype)
          · exact .of_typeName htype
        · exact ⟨_, hvisited, .inr ⟨span, callee, args, function, values, hnode, hf, hfault⟩⟩
    | _ => cases harity

/-! ## Sessions -/

theorem explained_program {before after : List (Session.Step H)} {fuel : Nat} {program : Program}
    (hsteps : steps = before ++ .run fuel program :: after)
    (hm : m = Session.afterSteps before start) (hsound : Sound start steps m) :
    Explained start steps m (FlowKnown start steps)
      (execAll (callWith fuel) fuel m.globals program m) :=
  explained_execAll (fun s _ => explains_stmt (callsExplain hhost fuel) s)
    (fun hsplit hdone => ⟨_, rfl, .top hsteps hm hsplit hdone⟩) hsound hsound.inUse_globals

/-- **Every machine of a session** is sound. -/
theorem sound_afterSteps {clock : Clock} {sink : Sink} (hstart : start = .start clock sink)
    {before after : List (Session.Step H)} (hsteps : steps = before ++ after) :
    Sound start steps (Session.afterSteps before start) := by
  induction before using List.reverseRecOn generalizing after with
  | nil =>
    subst hstart
    exact .reset (Machine.wellFormed_start clock sink)
  | append_singleton before step ih =>
    rw [List.append_assoc, List.singleton_append] at hsteps
    have hsound := ih hsteps
    rw [Session.afterSteps, List.foldl_append]
    cases step with
    | run fuel program =>
      show Sound start steps (Session.runWith fuel program (Session.afterSteps before start)).2
      rw [Session.runWith_snd, Machine.execute_snd]
      exact (explained_program hhost hsteps rfl hsound).sound
    | define native => exact hsound.defineNative (hsteps ▸ by simp)
    | reset => exact .reset (hsound.wellFormed.folded.reset).wellFormed

end Sessions

/-- **The fault of a run points at the node that raised it.** If a program fails on a fresh machine
then it has a node at the place of the fault that can raise it: a name or an assignment to that
name, if it is undefined; a negation; an operator on numbers, or an addition; a call, at its
parenthesis, with as many arguments as the fault says; or a `print`. -/
theorem exists_raises_of_failed {H : Type} [Host H] (clock : Clock) (sink : Sink) (fuel : Nat)
    (program : Program) (fault : Located)
    (h : ((Machine.start clock sink : Machine H).execute fuel program).1 = .failed fault) :
    ∃ node ∈ program.nodes, node.Raises fault.fault fault.span := by
  let start : Machine H := .start clock sink
  let steps : List (Session.Step H) := [.run fuel program]
  have hhost : ∀ function : H, .define (.host function) ∈ steps → Host.PassesOn function :=
    fun _ hdefine => nomatch List.mem_singleton.mp hdefine
  have hsound : Sound start steps start := .reset (Machine.wellFormed_start clock sink)
  have hsteps : steps = [] ++ .run fuel program :: [] := rfl
  have hm : start = Session.afterSteps [] start := rfl
  have hrun := explained_program hhost hsteps hm hsound
  have hstop : ∃ m', execAll (callWith fuel) fuel start.globals program start =
      .error (.failed fault) m' := by
    rw [Machine.execute] at h
    split at h <;> cases h
    next m' hrun => exact ⟨m', hrun⟩
  obtain ⟨m', hstop⟩ := hstop
  rw [hstop] at hrun
  cases hrun with
  | error _ _ hraised =>
    obtain ⟨moment, hvisited, hraises | ⟨_, _, _, _, _, _, hdefine, _⟩⟩ := hraised fault rfl
    · obtain ⟨_, _, hmem, hsite⟩ := hvisited.exists_in
      cases List.mem_singleton.mp hmem
      exact ⟨_, hsite.mem_nodes, hraises⟩
    · exact nomatch List.mem_singleton.mp hdefine

/-- A negation in a function that was returned from the function it was declared in, and is called
from outside of both. -/
theorem exists_raises_of_failed_negation :
    let source := "func f() \x7b func g(a) \x7b return -a; \x7d return g; \x7d f()(nil);"
    let program := (parseTokens (scan source).tokens).program
    (parseTokens (scan source).tokens).faults = [] ∧
      ((Machine.start ⟨fun _ => 0, 0⟩ (.empty none) : Machine Empty).execute 1 program).1 =
        .failed ⟨.operandNotNumber, ⟨30, 32⟩⟩ ∧
      ∃ node ∈ program.nodes, node.Raises .operandNotNumber ⟨30, 32⟩ := by
  intro source program
  have hfailed : ((Machine.start ⟨fun _ => 0, 0⟩ (.empty none) : Machine Empty).execute 1
      program).1 = .failed ⟨.operandNotNumber, ⟨30, 32⟩⟩ := by
    simp only [program, source]
    decide +kernel
  refine ⟨?_, hfailed, exists_raises_of_failed _ _ 1 _ _ hfailed⟩
  simp only [source]
  decide +kernel

end BlockScript
