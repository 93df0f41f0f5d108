import BlockScript.Proofs.FaultNodes

/-!
# Scope chains are as deep as the source is nested

A name is looked up along a chain of scopes, from the scope of the code that uses it to the global
scope. However deep calls recurse, and wherever the function that is running came from, the chain is
as long as the code is nested in its program: there is one scope for each block and each function
around it, and the global one.

That a function gets its scope from where it was declared, and not from where it is called, is what
makes it so. The length of the chain was right when the function was made (`Moment.Makes`), and the
parents of scopes never change (`Machine.Precedes.parent?_eq`). That the chain ends in the present
global scope, and not in one from before the machine started over, is because all scopes that code
is run in are in use (`Sound.getLast?_chain`).

## Main definitions

* `Scopes.parent?`, `Scopes.Chain` — the parent of a scope, and the scopes from it upwards
* `Machine.Grounded` — all chains end
* `Moment.later` — the machine that the evaluation of a moment leaves
* `Moment.Placed` — a sound machine, a scope in use and a chain of the right length

## Main results

* `Machine.Precedes.parent?_eq` — the parent of a scope stays the same for the whole session
* `Visited.sound_of_begins`, `Visited.sound_of_enters` — from a node to its parts, into functions
* `Visited.placed` — all moments of a session are placed
* `chains_match_nesting` — the scopes of a session
-/

namespace BlockScript

variable {H : Type}

/-! ## Parents -/

namespace Scopes

variable {scopes : Scopes H} {id : ScopeId}

/-- The parent of a scope, if there is such a scope. -/
def parent? (scopes : Scopes H) (id : ScopeId) : Option (Option ScopeId) :=
  scopes.cells[id]?.map Scope.parent

theorem parent?_eq_some {parent : Option ScopeId} :
    scopes.parent? id = some parent ↔
      ∃ cell, scopes.cells[id]? = some cell ∧ cell.parent = parent :=
  Option.map_eq_some_iff

theorem lt_of_parent? {parent : Option ScopeId} (h : scopes.parent? id = some parent) :
    id < scopes.cells.size := by
  obtain ⟨cell, hcell, -⟩ := parent?_eq_some.mp h
  exact (Array.getElem?_eq_some_iff.mp hcell).1

@[simp] theorem parent?_define (scopes : Scopes H) (owner : ScopeId) (name : String) (v : Value H)
    (id : ScopeId) : (scopes.define owner name v).parent? id = scopes.parent? id := by
  rw [parent?, parent?, define, Array.getElem?_modify]
  split
  · rw [Option.map_map]
    rfl
  · rfl

theorem parent?_push_of_lt (h : id < scopes.cells.size) (parent : Option ScopeId) :
    (scopes.push parent).parent? id = scopes.parent? id := by
  rw [parent?, parent?, getElem?_push_of_lt h]

theorem parent?_push_next (scopes : Scopes H) (parent : Option ScopeId) :
    (scopes.push parent).parent? scopes.next = some parent := by
  rw [parent?, push, next, Array.getElem?_push_size]
  rfl

/-! ## Chains -/

/-- The scopes from `id` upwards to one without a parent. -/
inductive Chain (scopes : Scopes H) : ScopeId → List ScopeId → Prop where
  | root {id : ScopeId} (h : scopes.parent? id = some none) : Chain scopes id [id]
  | child {id parent : ScopeId} {ids : List ScopeId} (h : scopes.parent? id = some (some parent))
      (hparent : Chain scopes parent ids) : Chain scopes id (id :: ids)

end Scopes

namespace Machine

variable {m m' : Machine H}

theorem WellFormed.parent_lt (h : m.WellFormed) {id parent : ScopeId}
    (hparent : m.scopes.parent? id = some (some parent)) : parent < id := by
  obtain ⟨cell, hcell, hparent⟩ := Scopes.parent?_eq_some.mp hparent
  exact h.parents hcell parent hparent

/-- Every chain ends, since parents are older. -/
theorem WellFormed.exists_chain (h : m.WellFormed) {id : ScopeId} (hid : id < m.scopes.cells.size) :
    ∃ ids, m.scopes.Chain id ids := by
  induction id using Nat.strongRecOn with
  | ind id ih =>
    have hcell := Array.getElem?_eq_getElem hid
    cases hparent : (m.scopes.cells[id]).parent with
    | none => exact ⟨_, .root (Scopes.parent?_eq_some.mpr ⟨_, hcell, hparent⟩)⟩
    | some parent =>
      have hlink : m.scopes.parent? id = some (some parent) :=
        Scopes.parent?_eq_some.mpr ⟨_, hcell, hparent⟩
      have hlt : parent < id := h.parent_lt hlink
      obtain ⟨ids, hids⟩ := ih parent hlt (Nat.lt_trans hlt hid)
      exact ⟨_, .child hlink hids⟩

theorem WellFormed.le_of_mem_chain (h : m.WellFormed) {id other : ScopeId} {ids : List ScopeId}
    (hids : m.scopes.Chain id ids) (hmem : other ∈ ids) : other ≤ id := by
  induction hids with
  | root _ => exact Nat.le_of_eq (List.mem_singleton.mp hmem)
  | child hparent _ ih =>
    rcases List.mem_cons.mp hmem with rfl | hmem
    · exact Nat.le_refl _
    · exact Nat.le_trans (ih hmem) (Nat.le_of_lt (h.parent_lt hparent))

/-- No chain comes to a scope twice. -/
theorem WellFormed.pairwise_chain (h : m.WellFormed) {id : ScopeId} {ids : List ScopeId}
    (hids : m.scopes.Chain id ids) : ids.Pairwise (· > ·) := by
  induction hids with
  | root _ => exact List.pairwise_singleton _ _
  | child hparent hids ih =>
    refine List.pairwise_cons.mpr ⟨fun other hother => ?_, ih⟩
    exact Nat.lt_of_le_of_lt (h.le_of_mem_chain hids hother) (h.parent_lt hparent)

/-- Every scope that is referred to exists, every parent is older than its children, and so every
chain of scopes ends and comes to no scope twice. -/
structure Grounded (m : Machine H) : Prop where
  wellFormed : m.WellFormed
  chains : ∀ id < m.scopes.cells.size,
    ∃ ids, m.scopes.Chain id ids ∧ ids.Pairwise (· > ·)

theorem WellFormed.grounded (h : m.WellFormed) : m.Grounded :=
  ⟨h, fun _ hid =>
    let ⟨ids, hids⟩ := h.exists_chain hid
    ⟨ids, hids, h.pairwise_chain hids⟩⟩

/-! ## Parents stay the same -/

variable [Host H]

theorem Advances.parent?_eq (h : Advances m m') {id : ScopeId} {parent : Option ScopeId}
    (hparent : m.scopes.parent? id = some parent) : m'.scopes.parent? id = some parent := by
  have hlt := Scopes.lt_of_parent? hparent
  cases h with
  | change h =>
    cases h with
    | newScope => rwa [Scopes.parent?_push_of_lt hlt]
    | define | assign => rwa [Scopes.parent?_define]
    | makeFunction | readClock | write => exact hparent
  | define native => rwa [defineNative, Scopes.parent?_define]
  | reset =>
    rwa [Machine.reset, defineNative, Scopes.parent?_define, Scopes.parent?_push_of_lt hlt]

/-- **No step of a session** changes the parent of a scope. -/
theorem Precedes.parent?_eq (h : m.Precedes m') {id : ScopeId} {parent : Option ScopeId}
    (hparent : m.scopes.parent? id = some parent) : m'.scopes.parent? id = some parent := by
  induction h with
  | refl => exact hparent
  | tail _ hadvance ih => exact hadvance.parent?_eq ih

theorem Precedes.chain (h : m.Precedes m') {id : ScopeId} {ids : List ScopeId}
    (hids : m.scopes.Chain id ids) : m'.scopes.Chain id ids := by
  induction hids with
  | root hparent => exact .root (h.parent?_eq hparent)
  | child hparent _ ih => exact .child (h.parent?_eq hparent) ih

end Machine

variable [Host H] {start : Machine H} {steps : List (Session.Step H)} {m m' : Machine H}

/-- The chain from a scope in use ends in the global scope. -/
theorem Sound.getLast?_chain (hm : Sound start steps m) {id : ScopeId} (hid : m.InUse id)
    {ids : List ScopeId} (hids : m.scopes.Chain id ids) : ids.getLast? = some m.globals := by
  induction hids with
  | @root id hparent =>
    obtain ⟨cell, hcell, hparent⟩ := Scopes.parent?_eq_some.mp hparent
    rcases Nat.eq_or_lt_of_le hid.le with rfl | hinner
    · rfl
    · obtain ⟨parent, hmem, -⟩ := hm.inner hcell hinner
      rw [hparent] at hmem
      exact nomatch hmem
  | @child id parent ids hparent _ ih =>
    obtain ⟨cell, hcell, hparent⟩ := Scopes.parent?_eq_some.mp hparent
    rw [List.getLast?_cons, ih (hm.inUse_parent hid hcell hparent)]
    rfl

/-! ## The machines of moments -/

/-- The machine that the evaluation of the node leaves. -/
def Moment.later (moment : Moment H) : Machine H :=
  match moment.site.node with
  | .expr e => Machine.after (evalExpr (callWith moment.fuel) moment.scope e moment.machine)
  | .stmt s =>
    Machine.after (execStmt (callWith moment.fuel) moment.fuel moment.scope s moment.machine)

/-- What holds of a moment: the code is run in a scope in use of a sound machine, and the chain from
this scope is as long as the site is deep. -/
structure Moment.Placed (start : Machine H) (steps : List (Session.Step H)) (moment : Moment H) :
    Prop where
  sound : Sound start steps moment.machine
  inUse : moment.machine.InUse moment.scope
  chain : ∃ ids, moment.machine.scopes.Chain moment.scope ids ∧
    ids.length = 1 + moment.site.depth

section Moments

variable (hhost : ∀ function, .define (.host function) ∈ steps → Host.PassesOn function)
include hhost

variable {n : Nat} {site : Site} {scope : ScopeId}

theorem Visited.sound_of_evalExpr (h : Visited start steps ⟨n, site, scope, m⟩) {e : Expr}
    (hnode : site.node = .expr e) (hm : Sound start steps m) (hscope : m.InUse scope) {v : Value H}
    (heval : evalExpr (callWith n) scope e m = .ok v m') :
    Sound start steps m' ∧ m.Reaches 0 m' ∧ Known start steps m' v := by
  have hexplained := explains_expr (callsExplain hhost n) e hnode h hm hscope
  rw [heval] at hexplained
  cases hexplained with
  | ok hreaches hsound hv => exact ⟨hsound, hreaches, hv⟩

/-- After the first few of some statements that the session comes to. -/
theorem sound_of_completes {done rest : List Stmt}
    (hvisited : ∀ {before after : List Stmt} {s : Stmt} {m₁ : Machine H},
      done ++ rest = before ++ s :: after → Completes (callWith n) n scope before m m₁ →
      ∃ site : Site, site.node = .stmt s ∧ Visited start steps ⟨n, site, scope, m₁⟩)
    (hm : Sound start steps m) (hscope : m.InUse scope)
    (hdone : Completes (callWith n) n scope done m m') :
    Sound start steps m' ∧ m.Reaches 0 m' := by
  have hexplained : Explained start steps m (FlowKnown start steps)
      (execAll (callWith n) n scope done m) := by
    refine explained_execAll (fun s _ => explains_stmt (callsExplain hhost n) s)
      (fun {before after s m₁} hsplit hbefore => ?_) hm hscope
    have hall : done ++ rest = before ++ s :: (after ++ rest) := by rw [hsplit]; simp
    exact hvisited hall hbefore
  have hrun : execAll (callWith n) n scope done m = .ok .normal m' := by
    have happend := hdone.execAll_append []
    rwa [List.append_nil, execAll] at happend
  rw [hrun] at hexplained
  exact ⟨hexplained.sound, hexplained.reaches⟩

/-- After some turns of a loop that the session comes to. -/
theorem Visited.sound_of_turns (h : Visited start steps ⟨n, site, scope, m⟩) {span : Span}
    {cond : Expr} {body : Stmt} (hnode : site.node = .stmt (.whileDo span cond body))
    (hm : Sound start steps m) (hscope : m.InUse scope) (hturns : Turns n scope cond body m m') :
    Sound start steps m' ∧ m.Reaches 0 m' := by
  induction hturns with
  | refl => exact ⟨hm, .refl⟩
  | tail hturns hcond hv hbody ih =>
    obtain ⟨hm₁, hreaches₁⟩ := ih
    have hscope₁ := hscope.reaches hreaches₁
    obtain ⟨hm₂, hreaches₂, -⟩ := (h.begins hnode (.test hturns)).sound_of_evalExpr hhost rfl hm₁
      hscope₁ hcond
    have hexplained := explains_stmt (callsExplain hhost n) body rfl
      (h.begins hnode (.turn hturns hcond hv)) hm₂ (hscope₁.reaches hreaches₂)
    rw [hbody] at hexplained
    exact ⟨hexplained.sound, hreaches₁.trans (hreaches₂.trans hexplained.reaches)⟩

omit [Host H] hhost in
theorem Node.opensScope_of_first? {node : Node} {e : Expr} (h : node.first? = some e) :
    node.opensScope = false := by
  rcases node with e' | s
  · rfl
  · cases s with
    | block | func => exact nomatch h
    | _ => rfl

/-- **From a node to its parts.** The machine stays sound. If the node opens a scope then its parts
are evaluated in a child of the scope of the node, and otherwise in the same scope. -/
theorem Visited.sound_of_begins {node : Node} {scope' : ScopeId}
    (h : Visited start steps ⟨n, site, scope, m⟩) (hm : Sound start steps m)
    (hscope : m.InUse scope) (hbegins : Begins n site.node scope m node scope' m') :
    Sound start steps m' ∧ m'.InUse scope' ∧ m.Reaches 0 m' ∧
      if site.node.opensScope then m'.scopes.parent? scope' = some (some scope)
      else scope' = scope := by
  -- Where no scope is opened it is enough that the machine stays sound.
  have hsame : ∀ {m₁ : Machine H}, Sound start steps m₁ ∧ m.Reaches 0 m₁ →
      Sound start steps m₁ ∧ m₁.InUse scope ∧ m.Reaches 0 m₁ ∧ scope = scope :=
    fun ⟨hsound, hreaches⟩ => ⟨hsound, hscope.reaches hreaches, hreaches, rfl⟩
  have hfirst : ∀ {e : Expr} {v : Value H} {m₁ : Machine H}, site.node.first? = some e →
      evalExpr (callWith n) scope e m = .ok v m₁ → Sound start steps m₁ ∧ m.Reaches 0 m₁ := by
    intro e v m₁ hfirst heval
    have hpart : Visited start steps ⟨n, site.part (.expr e), scope, m⟩ := h.part (.first hfirst)
    obtain ⟨hm₁, hreaches, -⟩ := hpart.sound_of_evalExpr hhost rfl hm hscope heval
    exact ⟨hm₁, hreaches⟩
  generalize hnode : site.node = whole at hbegins hfirst
  cases hbegins with
  | first hpart =>
    rw [Node.opensScope_of_first? hpart]
    exact hsame ⟨hm, .refl⟩
  | right hleft | undecided hleft => exact hsame (hfirst rfl hleft)
  | onlyYes hcond | yes hcond | no hcond => exact hsame (hfirst rfl hcond)
  | @arg span paren callee e before after _ f values _ m₁ _ hcallee hbefore =>
    obtain ⟨hm₁, hreaches₁⟩ := hfirst rfl hcallee
    have hexplained := explained_evalArgs (fun e _ => explains_expr (callsExplain hhost n) e) hnode
      h hcallee hm₁ (hscope.reaches hreaches₁)
    rw [hbefore] at hexplained
    exact hsame ⟨hexplained.sound, hreaches₁.trans hexplained.reaches⟩
  | @inner span t before after _ _ _ hbefore =>
    have hpush : m.Reaches 0 { m with scopes := m.scopes.push (some scope) } :=
      .single (.newScope m (some scope))
    obtain ⟨hm', hreaches⟩ := sound_of_completes hhost (fun hsplit hdone =>
      ⟨_, rfl, h.begins (hsplit ▸ hnode) (.inner hdone)⟩) (hm.push hscope)
      (hm.inUse_next (some scope)) hbefore
    refine ⟨hm', (hm.inUse_next (some scope)).reaches hreaches, hpush.trans hreaches, ?_⟩
    exact hreaches.precedes.parent?_eq (m.scopes.parent?_push_next (some scope))
  | test hturns => exact hsame (h.sound_of_turns hhost hnode hm hscope hturns)
  | @turn span cond body _ v _ m₁ _ hturns hcond hv =>
    obtain ⟨hm₁, hreaches₁⟩ := h.sound_of_turns hhost hnode hm hscope hturns
    obtain ⟨hm₂, hreaches₂, -⟩ := (h.begins hnode (.test hturns)).sound_of_evalExpr hhost rfl hm₁
      (hscope.reaches hreaches₁) hcond
    exact hsame ⟨hm₂, hreaches₁.trans hreaches₂⟩

/-- **From a call to the body of the function.** The machine stays sound, and the scope of the body
is a child of the scope in which the function was made. -/
theorem Visited.sound_of_enters {id : Nat} {c : Closure} {scope' : ScopeId}
    (h : Visited start steps ⟨n + 1, site, scope, m⟩) (hm : Sound start steps m)
    (hscope : m.InUse scope) (henters : Enters n site.node scope m id c scope' m') :
    Sound start steps m' ∧ m'.InUse scope' ∧ m'.scopes.parent? scope' = some (some c.scope) ∧
      Known start steps m' (.function id c) := by
  generalize hnode : site.node = whole at henters
  cases henters with
  | @call span paren callee args _ _ _ values _ m₁ m₂ _ hcallee hargs hcount hparams =>
    obtain ⟨hm₁, hreaches₁, hf⟩ := (h.begins hnode (.first rfl)).sound_of_evalExpr hhost rfl hm
      hscope hcallee
    have hall : site.node = .expr (.call span paren callee (args ++ [])) := by
      rw [hnode, List.append_nil]
    have hvalues := explained_evalArgs (fun e _ => explains_expr (callsExplain hhost (n + 1)) e)
      hall h hcallee hm₁ (hscope.reaches hreaches₁)
    rw [hargs] at hvalues
    cases hvalues with
    | ok hreaches₂ hm₂ hvalues =>
      have hf₂ := hf.reaches hreaches₂
      have hpush : m₂.Reaches 0 { m₂ with scopes := m₂.scopes.push (some c.scope) } :=
        .single (.newScope m₂ (some c.scope))
      have hnext := hm₂.inUse_next (some c.scope)
      have hbound := Explained.bindParams (hm₂.push hf₂.1) hnext c.params
        fun v hv => (hvalues v hv).reaches hpush
      rw [hparams] at hbound
      refine ⟨hbound.sound, hnext.reaches hbound.reaches, ?_, ?_⟩
      · exact hbound.reaches.precedes.parent?_eq (m₂.scopes.parent?_push_next (some c.scope))
      · exact (hf₂.reaches hpush).reaches hbound.reaches

variable {clock : Clock} {sink : Sink} (hstart : start = .start clock sink) {moment : Moment H}
include hstart

/-- **At every moment** the machine is sound, and the chain from the scope has one scope for each
block and each function around the node, and the global one. -/
theorem Visited.placed (h : Visited start steps moment) : moment.Placed start steps := by
  induction h with
  | @top before after fuel program done rest s m m' hsteps hm hprogram hdone =>
    have hsound : Sound start steps m := hm ▸ sound_afterSteps hhost hstart hsteps
    obtain ⟨hm', hreaches⟩ := sound_of_completes hhost (fun hsplit hbefore =>
      ⟨_, rfl, .top hsteps hm (hprogram.trans hsplit) hbefore⟩) hsound hsound.inUse_globals hdone
    have hcell := Array.getElem?_eq_getElem hsound.wellFormed.globals
    have hroot : m.scopes.parent? m.globals = some none :=
      Scopes.parent?_eq_some.mpr ⟨_, hcell, hsound.root hcell⟩
    exact ⟨hm', hsound.inUse_globals.reaches hreaches, [m.globals],
      hreaches.precedes.chain (.root hroot), rfl⟩
  | @part moment node scope m h hbegins ih =>
    obtain ⟨ids, hids, hlength⟩ := ih.chain
    obtain ⟨hm', hscope', hreaches, hopens⟩ := h.sound_of_begins hhost ih.sound ih.inUse hbegins
    have hids' := hreaches.precedes.chain hids
    refine ⟨hm', hscope', ?_⟩
    rw [Site.depth_part]
    cases hopen : moment.site.node.opensScope with
    | true =>
      rw [hopen, if_pos rfl] at hopens
      refine ⟨scope :: ids, .child hopens hids', ?_⟩
      rw [List.length_cons, hlength]
      rfl
    | false =>
      rw [hopen, if_neg Bool.false_ne_true] at hopens
      exact ⟨ids, hopens ▸ hids', hlength⟩
  | @body moment origin n id c scope done rest s m m' h hfuel henters horigin hmakes hearlier hbody
      hdone ih ihorigin =>
    obtain ⟨ids, hids, hlength⟩ := ihorigin.chain
    obtain ⟨fuel, site, scope₀, m₀⟩ := moment
    obtain rfl : fuel = n + 1 := hfuel
    obtain ⟨hm, hscope, hparent, -⟩ := h.sound_of_enters hhost ih.sound ih.inUse henters
    obtain ⟨hm', hreaches⟩ := sound_of_completes hhost (fun hsplit hbefore =>
      ⟨_, rfl, .body h rfl henters horigin hmakes hearlier (hbody.trans hsplit) hbefore⟩) hm hscope
      hdone
    obtain ⟨-, hmade, span, hnode⟩ := hmakes
    -- The chain was there when the function was made, and its scope is the last one of it.
    rw [hmade] at hparent
    have hchain : m.scopes.Chain scope (scope :: ids) := .child hparent (hearlier.chain hids)
    refine ⟨hm', hscope.reaches hreaches, scope :: ids, hreaches.precedes.chain hchain, ?_⟩
    rw [Site.depth_part, hnode, List.length_cons, hlength]
    rfl

/-- The machine stays sound to the end of the evaluation. -/
theorem Visited.sound_later (h : Visited start steps moment) :
    Sound start steps moment.later := by
  obtain ⟨hm, hscope, -⟩ := h.placed hhost hstart
  have hcalls : CallsExplain start steps moment.fuel := callsExplain hhost moment.fuel
  rw [Moment.later]
  split
  · next e hnode => exact (explains_expr hcalls e hnode h hm hscope).sound
  · next s hnode => exact (explains_stmt hcalls s hnode h hm hscope).sound

end Moments

/-- **Scope chains are as deep as the source is nested.** In every session of programs, and of host
functions that pass on the functions they are given, all machines between the steps, and before and
after the evaluation of each node, have chains of scopes that end, and hold no function of which the
scope does not exist. Every node that is evaluated is one of a program of the session, and from its
scope to the global scope there is one scope more than there are blocks and functions around it.
This goes for the bodies of functions as well: a function that is entered was made, at an earlier
moment, by the declaration that its body stands in. -/
theorem chains_match_nesting {H : Type} [Host H] (clock : Clock) (sink : Sink)
    (steps : List (Session.Step H))
    (hhost : ∀ function, .define (.host function) ∈ steps → Host.PassesOn function) :
    let start : Machine H := .start clock sink
    (∀ before after, steps = before ++ after → (Session.afterSteps before start).Grounded) ∧
    ∀ moment, Visited start steps moment →
      (∃ fuel program, .run fuel program ∈ steps ∧ moment.site.In program) ∧
      moment.machine.Grounded ∧ moment.later.Grounded ∧
      (∀ e v m', moment.site.node = .expr e →
        evalExpr (callWith moment.fuel) moment.scope e moment.machine = .ok v m' →
        v.Within m'.scopes.cells.size) ∧
      (∃ ids, moment.machine.scopes.Chain moment.scope ids ∧
        ids.length = 1 + moment.site.depth ∧ ids.getLast? = some moment.machine.globals) ∧
      ∀ n id c scope m, moment.fuel = n + 1 →
        Enters n moment.site.node moment.scope moment.machine id c scope m →
        ∃ origin, Visited start steps origin ∧ origin.Makes id c ∧ origin.machine.Precedes m := by
  intro start
  have hstart : start = .start clock sink := rfl
  refine ⟨fun before after hsteps => ?_, fun moment h => ?_⟩
  · exact (sound_afterSteps hhost hstart hsteps).wellFormed.grounded
  obtain ⟨hm, hscope, ids, hids, hlength⟩ := h.placed hhost hstart
  refine ⟨h.exists_in, hm.wellFormed.grounded, (h.sound_later hhost hstart).wellFormed.grounded,
    fun e v m' hnode heval => ?_, ⟨ids, hids, hlength, hm.getLast?_chain hscope hids⟩, ?_⟩
  · exact (h.sound_of_evalExpr hhost hnode hm hscope heval).2.2.within
  · intro n id c scope m hfuel henters
    obtain ⟨fuel, site, scope₀, m₀⟩ := moment
    obtain rfl : fuel = n + 1 := hfuel
    exact (h.sound_of_enters hhost hm hscope henters).2.2.2.2

/-- A statement in a block in a function, which is called from outside of all blocks. -/
theorem chains_match_nesting_call :
    let inner : Stmt := .expr ⟨13, 17⟩ (.literal ⟨13, 16⟩ .nil)
    let block : Stmt := .block ⟨11, 19⟩ [inner]
    let declaration : Stmt := .func ⟨0, 21⟩ "f" [] [block]
    let call : Stmt := .expr ⟨22, 26⟩ (.call ⟨22, 25⟩ ⟨24, 25⟩ (.ident ⟨22, 23⟩ "f") [])
    let steps : List (Session.Step BasicFunction) :=
      [.define (.host .pick), .run 1 [declaration, call]]
    parse "func f() \x7b \x7b nil; \x7d \x7d f();" = .ok [declaration, call] ∧
      ∃ moment, Visited (.start ⟨fun _ => 0, 0⟩ (.empty none)) steps moment ∧
        moment.site = ⟨.stmt inner, [.stmt block, .stmt declaration]⟩ ∧
        ∃ ids, moment.machine.scopes.Chain moment.scope ids ∧ ids.length = 3 ∧
          ids.getLast? = some moment.machine.globals := by
  intro inner block declaration call steps
  have hparsed : parse "func f() \x7b \x7b nil; \x7d \x7d f();" = .ok [declaration, call] := by
    simp only [declaration, call, block, inner]
    with_unfolding_all rfl
  refine ⟨hparsed, ?_⟩
  let start : Machine BasicFunction := .start ⟨fun _ => 0, 0⟩ (.empty none)
  let m₀ := Session.afterSteps [.define (.host .pick)] start
  let f : Value BasicFunction := .function m₀.functionsMade ⟨"f", [], [block], m₀.globals⟩
  let m₁ : Machine BasicFunction := { m₀ with functionsMade := m₀.functionsMade + 1 }
  let m₂ : Machine BasicFunction := { m₁ with scopes := m₁.scopes.define m₀.globals "f" f }
  let m₃ : Machine BasicFunction := { m₂ with scopes := m₂.scopes.push (some m₀.globals) }
  have hsteps : steps = [.define (.host .pick)] ++ .run 1 [declaration, call] :: [] := rfl
  have hdeclared : execStmt (callWith 1) 1 m₀.globals declaration m₀ = .ok .normal m₂ := by
    rw [execStmt]
    rfl
  have hcallee : evalExpr (callWith 1) m₀.globals (.ident ⟨22, 23⟩ "f") m₂ = .ok f m₂ := by
    rw [evalExpr]
    rfl
  have hargs : evalArgs (callWith 1) m₀.globals [] m₂ = .ok [] m₂ := by
    rw [evalArgs]
    rfl
  have hdeclaration : Visited start steps ⟨1, .top declaration, m₀.globals, m₀⟩ :=
    .top hsteps rfl (List.nil_append _).symm (.nil m₀)
  have hcall : Visited start steps ⟨1, .top call, m₀.globals, m₂⟩ :=
    .top hsteps rfl (List.singleton_append).symm (.cons hdeclared (.nil m₂))
  have hreaches : m₀.Reaches 0 m₃ :=
    ((Machine.Reaches.single (.makeFunction m₀)).trans
      (.single (.define m₁ (Nat.zero_le m₀.globals) "f" f))).trans
      (.single (.newScope m₂ (some m₀.globals)))
  have henters : Enters 0 (.expr (.call ⟨22, 25⟩ ⟨24, 25⟩ (.ident ⟨22, 23⟩ "f") [])) m₀.globals m₂
      m₀.functionsMade ⟨"f", [], [block], m₀.globals⟩ m₂.scopes.next m₃ :=
    .call hcallee hargs rfl rfl
  have hblock : Visited start steps
      ⟨0, (Site.top declaration).part (.stmt block), m₂.scopes.next, m₃⟩ :=
    .body (hcall.part (.first rfl)) rfl henters hdeclaration ⟨rfl, rfl, ⟨0, 21⟩, rfl⟩
      hreaches.precedes (List.nil_append _).symm (.nil m₃)
  have hbegins : Begins 0 (.stmt (.block ⟨11, 19⟩ ([] ++ inner :: []))) m₂.scopes.next m₃
      (.stmt inner) m₃.scopes.next { m₃ with scopes := m₃.scopes.push (some m₂.scopes.next) } :=
    .inner (.nil _)
  have hinner := hblock.part hbegins
  obtain ⟨-, hmoments⟩ := chains_match_nesting ⟨fun _ => 0, 0⟩ (.empty none) steps
    fun function _ => Host.passesOn function
  obtain ⟨-, -, -, -, hchain, -⟩ := hmoments _ hinner
  exact ⟨_, hinner, rfl, hchain⟩

end BlockScript
