import BlockScript.Proofs.Changes
import BlockScript.Proofs.Kept
import BlockScript.Proofs.Returns
import BlockScript.Proofs.StartOver

/-!
# Scopes do not leak

An expression declares no name in a scope that is there when it is evaluated, and neither does a
statement other than a declaration. They may open scopes, call functions, and stop or return from
anywhere inside, but to the scopes that were there before they can only give other values for the
names that those bind already.

For the elementary changes this is plain: to declare a name in a scope that is there is the only
one that alters what names a scope binds (`Machine.Reaches.keepsNames`). That a statement does no
such thing unless it is a declaration is what the parser takes care of (`orderly_parseTokens`).

So the global scope gains exactly the names of the declarations of a program that are completed.

## Main definitions

* `Machine.KeepsNames` — all scopes of a machine bind the same names as before
* `Machine.globalNames`, `Machine.Gains` — the names that the global scope binds, and what was added

## Main results

* `Machine.gains_execStmt`, `Machine.gains_of_completes` — the names that statements add
* `names_kept` — which names there are after each part of a program and after all of it
-/

namespace BlockScript

variable {H : Type}

/-! ## Names in scopes -/

theorem Scopes.exists_binds_of_resolve {scopes : Scopes H} {id owner : ScopeId} {name : String}
    (h : scopes.resolve id name = some owner) :
    ∃ scope, scopes.cells[owner]? = some scope ∧ scope.binds name := by
  have key : ∀ (steps : Nat) (id : ScopeId), scopes.resolveWithin name steps id = some owner →
      ∃ scope, scopes.cells[owner]? = some scope ∧ scope.binds name := by
    intro steps
    induction steps with
    | zero =>
      intro _ h
      cases h
    | succ steps ih =>
      intro id h
      rw [resolveWithin] at h
      split at h
      · cases h
      · next scope hscope =>
        split at h
        · next hbinds =>
          obtain rfl : id = owner := Option.some.inj h
          exact ⟨scope, hscope, hbinds⟩
        · split at h
          · cases h
          · exact ih _ h
  exact key (id + 1) id h

theorem Scope.mem_names_put (scope : Scope H) (name other : String) (value : Value H) :
    other ∈ (scope.put name value).names ↔ other ∈ scope.names ∨ other = name := by
  have hbinds : (scope.vars.any (·.1 == name)) = true → name ∈ scope.names := by
    intro h
    obtain ⟨var, hvar, hname⟩ := List.any_eq_true.mp h
    exact List.mem_map.mpr ⟨var, hvar, eq_of_beq hname⟩
  rw [names, put, map_fst_putVar]
  split
  · next h =>
    refine ⟨.inl, ?_⟩
    rintro (hmem | rfl)
    · exact hmem
    · exact hbinds h
  · rw [List.mem_append, List.mem_singleton, names]

namespace Machine

/-- All scopes of `m` are there in `m'`, with the same parents, and bind the same names. -/
def KeepsNames (m m' : Machine H) : Prop :=
  ∀ (id : ScopeId) (scope : Scope H), m.scopes.cells[id]? = some scope →
    ∃ scope' : Scope H, m'.scopes.cells[id]? = some scope' ∧
      scope'.parent = scope.parent ∧ scope'.names = scope.names

/-- The names that the global scope binds. -/
def globalNames (m : Machine H) : List String :=
  match m.scopes.cells[m.globals]? with
  | some scope => scope.names
  | none => []

theorem globalNames_of_cell {m : Machine H} {scope : Scope H}
    (h : m.scopes.cells[m.globals]? = some scope) : m.globalNames = scope.names := by
  rw [globalNames, h]

/-- The scope of the global names is there. -/
def HasGlobals (m : Machine H) : Prop := m.globals < m.scopes.cells.size

variable {m m' m'' : Machine H} {n : Nat}

theorem HasGlobals.exists_cell (h : m.HasGlobals) :
    ∃ scope, m.scopes.cells[m.globals]? = some scope :=
  ⟨_, Array.getElem?_eq_getElem h⟩

/-! ## Changes that keep names -/

/-- One change alters no name in the scopes before the number `n`. -/
theorem Change.names_eq (h : Change n m m') {id : ScopeId} (hid : id < n) {scope : Scope H}
    (hscope : m.scopes.cells[id]? = some scope) :
    ∃ scope' : Scope H, m'.scopes.cells[id]? = some scope' ∧
      scope'.parent = scope.parent ∧ scope'.names = scope.names := by
  cases h with
  | newScope parent =>
    have hlt : id < m.scopes.cells.size := (Array.getElem?_eq_some_iff.mp hscope).1
    exact ⟨scope, (Scopes.getElem?_push_of_lt hlt parent).trans hscope, rfl, rfl⟩
  | @define other hother name value =>
    have hne : other ≠ id := fun h => Nat.not_lt.mpr hother (h ▸ hid)
    refine ⟨scope, ?_, rfl, rfl⟩
    simpa only [Scopes.define, Array.getElem?_modify, hne, if_false] using hscope
  | @assign other owner name howner value =>
    simp only [Scopes.define, Array.getElem?_modify]
    split
    · next heq =>
      subst heq
      obtain ⟨scope', hscope', hbinds⟩ := Scopes.exists_binds_of_resolve howner
      obtain rfl : scope' = scope := Option.some.inj (hscope'.symm.trans hscope)
      have hnames := Scope.names_put_of_binds hbinds value
      exact ⟨scope'.put name value, by rw [hscope]; rfl, rfl, hnames⟩
    · exact ⟨scope, hscope, rfl, rfl⟩
  | makeFunction => exact ⟨scope, hscope, rfl, rfl⟩
  | readClock => exact ⟨scope, hscope, rfl, rfl⟩
  | write text => exact ⟨scope, hscope, rfl, rfl⟩

/-- **Changes that declare names in new scopes only** keep the names of all others. -/
theorem Reaches.keepsNames (h : m.Reaches m.scopes.cells.size m') : m.KeepsNames m' := by
  intro id scope hscope
  have hid : id < m.scopes.cells.size := (Array.getElem?_eq_some_iff.mp hscope).1
  generalize m.scopes.cells.size = n at h hid
  induction h with
  | refl => exact ⟨scope, hscope, rfl, rfl⟩
  | tail _ hchange ih =>
    obtain ⟨scope₁, hscope₁, hparent₁, hnames₁⟩ := ih
    obtain ⟨scope₂, hscope₂, hparent₂, hnames₂⟩ := hchange.names_eq hid hscope₁
    exact ⟨scope₂, hscope₂, hparent₂.trans hparent₁, hnames₂.trans hnames₁⟩

/-- No change takes a scope away. -/
theorem Reaches.size_le (h : m.Reaches n m') : m.scopes.cells.size ≤ m'.scopes.cells.size := by
  induction h with
  | refl => exact Nat.le_refl _
  | tail _ hchange ih =>
    refine Nat.le_trans ih ?_
    cases hchange <;> simp [Scopes.push, Scopes.define]

theorem Reaches.hasGlobals (h : m.Reaches n m') (hm : m.HasGlobals) : m'.HasGlobals := by
  rw [HasGlobals, h.globals_eq]
  exact Nat.lt_of_lt_of_le hm h.size_le

/-! ## What the global scope gains -/

/-- The global scope is the same one, and the names were added to it. -/
structure Gains (m : Machine H) (added : List String) (m' : Machine H) : Prop where
  globals : m'.globals = m.globals
  hasGlobals : m'.HasGlobals
  mem_iff : ∀ name, name ∈ m'.globalNames ↔ name ∈ m.globalNames ∨ name ∈ added

namespace Gains

theorem nothing (hm : m.HasGlobals) (h : m.Reaches m.scopes.cells.size m') : m.Gains [] m' := by
  obtain ⟨scope, hscope⟩ := hm.exists_cell
  obtain ⟨scope', hscope', -, hnames⟩ := h.keepsNames m.globals scope hscope
  rw [← h.globals_eq] at hscope'
  refine ⟨h.globals_eq, h.hasGlobals hm, fun name => ?_⟩
  rw [globalNames_of_cell hscope, globalNames_of_cell hscope', hnames]
  exact ⟨.inl, fun h => h.resolve_right List.not_mem_nil⟩

theorem trans {added added' : List String} (h : m.Gains added m') (h' : m'.Gains added' m'') :
    m.Gains (added ++ added') m'' := by
  refine ⟨h'.globals.trans h.globals, h'.hasGlobals, fun name => ?_⟩
  rw [h'.mem_iff, h.mem_iff, List.mem_append, or_assoc]

theorem define (hm : m.HasGlobals) {scope : ScopeId} (hscope : scope = m.globals) (name : String)
    (value : Value H) :
    m.Gains [name] { m with scopes := m.scopes.define scope name value } := by
  subst hscope
  obtain ⟨scope, hscope⟩ := hm.exists_cell
  have hcell : (m.scopes.define m.globals name value).cells[m.globals]? =
      some (scope.put name value) := by
    simp only [Scopes.define, Array.getElem?_modify, if_true, hscope, Option.map_some]
  refine ⟨rfl, by simpa [HasGlobals, Scopes.define] using hm, fun other => ?_⟩
  rw [globalNames_of_cell hscope, globalNames_of_cell hcell, Scope.mem_names_put,
    List.mem_singleton]

end Gains

variable [Host H] {fuel turns : Nat} {scope : ScopeId} {s : Stmt}

/-- A declaration finds a value without declaring anything, and gives it its name. -/
theorem execStmt_of_declared {name : String} (h : s.declared? = some name) (fuel turns : Nat)
    (scope : ScopeId) :
    ∃ p : Eval H (Value H), (∀ m : Machine H, m.Reaches m.scopes.cells.size (after (p m))) ∧
      execStmt (callWith fuel) turns scope s = do
        let v ← p
        Machine.define scope name v
        return .normal := by
  cases s with
  | func span _ params body =>
    obtain rfl : _ = name := Option.some.inj h
    refine ⟨Machine.makeFunction ⟨_, params, body, scope⟩, fun m => ?_, by rw [execStmt]⟩
    exact .single (.makeFunction m)
  | var span _ value =>
    obtain rfl : _ = name := Option.some.inj h
    refine ⟨evalOptional (callWith fuel) scope value, fun m => ?_, by rw [execStmt]⟩
    cases value with
    | none => exact .refl
    | some e => exact reaches_evalExpr fuel scope e m
  | _ => cases h

/-- **What one statement adds** to the global scope: a declaration that is completed adds its name,
and nothing else adds anything. -/
theorem gains_execStmt (hs : s.binds = s.declared?.isSome) (hm : m.HasGlobals) (fuel turns : Nat) :
    (∀ m₁, execStmt (callWith fuel) turns m.globals s m = .ok .normal m₁ →
      m.Gains s.declared?.toList m₁) ∧
    ((∀ m₁, execStmt (callWith fuel) turns m.globals s m ≠ .ok .normal m₁) →
      m.Gains [] (after (execStmt (callWith fuel) turns m.globals s m))) := by
  cases hname : s.declared? with
  | none =>
    rw [hname] at hs
    have hgains := Gains.nothing hm (reaches_execStmt fuel turns m.globals hs m)
    exact ⟨fun m₁ hrun => by rwa [hrun] at hgains, fun _ => hgains⟩
  | some name =>
    obtain ⟨p, hp, hexec⟩ := execStmt_of_declared hname (H := H) fuel turns m.globals
    have hgains := Gains.nothing hm (hp m)
    rw [hexec, Eval.bind_apply]
    cases hrun : p m with
    | error stop m₁ =>
      rw [hrun] at hgains
      exact ⟨fun _ h => (nomatch h), fun _ => hgains⟩
    | ok v m₁ =>
      rw [hrun] at hgains
      have hdefine := hgains.trans (.define hgains.hasGlobals hgains.globals.symm name v)
      refine ⟨fun m₂ h => ?_, fun h => absurd rfl (h _)⟩
      injection h with _ h
      exact h ▸ hdefine

/-- **What statements add** that are completed one after the other. -/
theorem gains_of_completes {body : List Stmt} (h : Completes (callWith fuel) turns scope body m m')
    (hbody : ∀ s ∈ body, s.binds = s.declared?.isSome) (hscope : scope = m.globals)
    (hm : m.HasGlobals) : m.Gains (body.filterMap Stmt.declared?) m' := by
  induction h with
  | nil m => exact .nothing hm .refl
  | @cons s body m m₁ m₂ hrun _ ih =>
    obtain ⟨hs, hbody⟩ := List.forall_mem_cons.mp hbody
    subst hscope
    have hfirst := (gains_execStmt hs hm fuel turns).1 m₁ hrun
    have hothers := ih hbody hfirst.globals.symm hfirst.hasGlobals
    have hadded : (s :: body).filterMap Stmt.declared? =
        s.declared?.toList ++ body.filterMap Stmt.declared? := by
      cases hname : s.declared? <;> simp [hname]
    rw [hadded]
    exact hfirst.trans hothers

/-! ## Sessions -/

theorem hasGlobals_reset (m : Machine H) : m.reset.HasGlobals := by
  simp [HasGlobals, reset, defineNative, Scopes.define, Scopes.push, Scopes.next]

theorem hasGlobals_take (step : Session.Step H) (hm : m.HasGlobals) :
    (step.take m).2.HasGlobals := by
  cases step with
  | run fuel program =>
    show (Session.runWith fuel program m).2.HasGlobals
    rw [Session.runWith_snd]
    exact (m.reaches_execute fuel program).hasGlobals hm
  | define native => simpa [HasGlobals, Session.Step.take, defineNative, Scopes.define] using hm
  | reset => exact hasGlobals_reset m

theorem hasGlobals_afterSteps (history : List (Session.Step H)) (clock : Clock) (sink : Sink) :
    (Session.afterSteps history (.start clock sink : Machine H)).HasGlobals := by
  rw [Session.afterSteps]
  refine List.foldlRecOn history _ (hasGlobals_reset _) fun m hm step _ => ?_
  exact hasGlobals_take step hm

end Machine

/-- **Scopes do not leak.** No expression, and in a program that the parser keeps, with faults or
without, no statement but a declaration alters what names the scopes bind that are there before it,
however it ends and whatever the machine. So a run of the program on a machine with any history adds
to the global scope the names of those declarations that were completed, up to the first statement
that was not, and no others. -/
theorem names_kept {H : Type} [Host H] (tokens : List Token) :
    let program := (parseTokens tokens).program
    (∀ (e : Expr) (fuel : Nat) (scope : ScopeId) (m : Machine H),
      m.KeepsNames (Machine.after (evalExpr (callWith fuel) scope e m))) ∧
    (∀ s, Node.stmt s ∈ program.nodes → s.declared? = none →
      ∀ (fuel turns : Nat) (scope : ScopeId) (m : Machine H),
        m.KeepsNames (Machine.after (execStmt (callWith fuel) turns scope s m))) ∧
    ∀ (clock : Clock) (sink : Sink) (history : List (Session.Step H)) (fuel : Nat),
      let m : Machine H := Session.afterSteps history (.start clock sink)
      ∃ done rest before, program = done ++ rest ∧
        Completes (callWith fuel) fuel m.globals done m before ∧
        (∀ s ∈ rest.head?, ∀ after,
          execStmt (callWith fuel) fuel m.globals s before ≠ .ok .normal after) ∧
        ∀ name, name ∈ (m.execute fuel program).2.globalNames ↔
          name ∈ m.globalNames ∨ name ∈ done.filterMap Stmt.declared? := by
  intro program
  refine ⟨fun e fuel scope m => (m.reaches_evalExpr fuel scope e).keepsNames,
    fun s hs hdeclared fuel turns scope m => ?_, fun clock sink history fuel => ?_⟩
  · have hbinds : s.binds = false := by rw [orderly_parseTokens tokens hs, hdeclared]; rfl
    exact (m.reaches_execStmt fuel turns scope hbinds).keepsNames
  · intro m
    have hm : m.HasGlobals := Machine.hasGlobals_afterSteps history clock sink
    have horderly : ∀ s ∈ program, s.binds = s.declared?.isSome := fun s hs =>
      orderly_parseTokens tokens (Program.stmt_mem_nodes hs)
    obtain ⟨done, rest, before, hprogram, hdone, hrest⟩ :=
      exists_completes (callWith fuel) fuel m.globals program m
    have hfirst := Machine.gains_of_completes hdone
      (fun s hs => horderly s (hprogram ▸ List.mem_append_left rest hs)) rfl hm
    refine ⟨done, rest, before, hprogram, hdone, ?_⟩
    rw [Machine.execute_snd]
    rcases hrest with ⟨rfl, hrun⟩ | ⟨s, others, rfl, hnormal, hrun⟩
    · rw [hrun]
      exact ⟨fun _ h => (nomatch h), hfirst.mem_iff⟩
    · have hs : s ∈ program := hprogram ▸ List.mem_append_right done List.mem_cons_self
      have hlast := (Machine.gains_execStmt (horderly s hs) hfirst.hasGlobals fuel fuel).2
      rw [hfirst.globals] at hlast
      rw [hrun]
      refine ⟨fun t ht => ?_, fun name => ?_⟩
      · obtain rfl : s = t := Option.some.inj ht
        exact hnormal
      · rw [(hfirst.trans (hlast hnormal)).mem_iff, List.append_nil]

/-- A block that stops after its own declaration, in a program that has a fault as well. Of the
three names that are declared in it, one is global afterwards. -/
theorem names_kept_block :
    let block : Stmt := .block ⟨7, 20⟩ [.var ⟨9, 15⟩ "b" none, .expr ⟨16, 18⟩ (.ident ⟨16, 17⟩ "c")]
    let program : Program := [.var ⟨0, 6⟩ "a" none, block, .var ⟨21, 27⟩ "d" none]
    let m : Machine Empty := Session.afterSteps [] (.start ⟨fun _ => 0, 0⟩ (.empty none))
    parseTokens (scan "var a; \x7b var b; c; \x7d var d; )").tokens =
        ⟨program, [⟨.expectedExpression, ⟨28, 29⟩⟩]⟩ ∧
      (∀ scope, m.KeepsNames (Machine.after (execStmt (callWith 1) 1 scope block m))) ∧
      (m.execute 1 program).1 = .failed ⟨.undefinedName "c", ⟨16, 17⟩⟩ ∧
      (m.execute 1 program).2.globalNames = ["clock", "a"] := by
  have hparsed : parseTokens (scan "var a; \x7b var b; c; \x7d var d; )").tokens =
      ⟨[.var ⟨0, 6⟩ "a" none,
        .block ⟨7, 20⟩ [.var ⟨9, 15⟩ "b" none, .expr ⟨16, 18⟩ (.ident ⟨16, 17⟩ "c")],
        .var ⟨21, 27⟩ "d" none], [⟨.expectedExpression, ⟨28, 29⟩⟩]⟩ := by with_unfolding_all rfl
  intro block program m
  have hkept := (names_kept (H := Empty) (scan "var a; \x7b var b; c; \x7d var d; )").tokens).2.1
  rw [hparsed] at hkept
  refine ⟨hparsed, fun scope => hkept block ?_ rfl 1 1 scope m, by decide +kernel,
    by decide +kernel⟩
  exact Program.stmt_mem_nodes (List.mem_cons_of_mem _ List.mem_cons_self)

end BlockScript
