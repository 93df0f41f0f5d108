import BlockScript.Proofs.Folding
import BlockScript.Proofs.Moments

/-!
# Where functions come from

A function may be handed through variables, arguments and results for the whole of a session before
it is called. Still it can be traced back: every function that a machine of a session holds was made
at an earlier moment, by a declaration in one of the programs of the session. This file says what it
is for a machine to hold such functions only (`Sound`), and which changes keep it so. That
evaluation makes no other changes is shown where faults are traced back as well.

The invariant is about the scopes in use, which are those since the machine last started over. What
an earlier part of the session left in older scopes is never looked at again.

A host function could give back a function that no program ever declared. So a session may define
only those host functions that pass on what they are given (`Host.PassesOn`).

## Main definitions

* `Host.PassesOn` — host functions that give back only functions they were given
* `Machine.InUse` — the scopes since a machine last started over
* `Known`, `Sound` — values, and machines with such values, of which the origin is known

## Main results

* `Host.passesOn` — host functions that look at values only as the language does pass them on
* `Sound.inUse_of_resolve`, `Sound.known_of_get?` — what names stand for in sound machines
* `Sound.push`, `Sound.bind`, `Sound.reset` — machines stay sound
-/

namespace BlockScript

variable {H : Type}

theorem Scope.mem_vars_of_get? {scope : Scope H} {name : String} {v : Value H}
    (h : scope.get? name = some v) : (name, v) ∈ scope.vars := by
  rw [get?] at h
  obtain ⟨before, after, hvars, -⟩ := List.lookup_eq_some_iff.mp h
  rw [hvars]
  exact List.mem_append_right before List.mem_cons_self

theorem Scope.eq_or_mem_of_mem_put {scope : Scope H} {name : String} {v : Value H}
    {var : String × Value H} (h : var ∈ (scope.put name v).vars) :
    var = (name, v) ∨ var ∈ scope.vars := by
  rw [put] at h
  generalize scope.vars = vars at h
  induction vars with
  | nil => exact .inl (List.mem_singleton.mp h)
  | cons other vars ih =>
    simp only [putVar] at h
    split at h
    · exact (List.mem_cons.mp h).imp_right (List.mem_cons_of_mem _)
    · rcases List.mem_cons.mp h with rfl | h
      · exact .inr List.mem_cons_self
      · exact (ih h).imp_right (List.mem_cons_of_mem _)

/-! ## Host functions -/

section Host

variable [Host H]

/-- The host function gives back no functions but those that it was given. -/
def Host.PassesOn (function : H) : Prop :=
  ∀ (args : List (Value H)) (v : Value H), Host.call function args = .ok v →
    v.typeName = "function" → v ∈ args

/-- **Host functions that look at values only as the language does** have no other functions to give
back. -/
theorem Host.passesOn [Host.Parametric H] (function : H) : Host.PassesOn function := by
  intro args v hcall hv
  let V (u u' : Value H) : Prop := u = u' ∧ (u.typeName = "function" → u ∈ args)
  have hV : Value.Likeness V :=
    { nil := ⟨rfl, fun h => by simp [Value.typeName] at h⟩
      bool := fun _ => ⟨rfl, fun h => by simp [Value.typeName] at h⟩
      number := fun _ => ⟨rfl, fun h => by simp [Value.typeName] at h⟩
      text := fun _ => ⟨rfl, fun h => by simp [Value.typeName] at h⟩
      looks := fun h => h.1 ▸ .refl _
      same_eq := fun h h' => by rw [h.1, h'.1] }
  have hsame := Host.Parametric.call_likeness hV function
    (List.forall₂_same.mpr fun u hu => ⟨rfl, fun _ => hu⟩ : List.Forall₂ V args args)
  rw [hcall] at hsame
  cases hsame with
  | ok h => exact h.2 hv

end Host

/-! ## Scopes in use -/

/-- The scope is one of those since the machine last started over. -/
structure Machine.InUse (m : Machine H) (scope : ScopeId) : Prop where
  le : m.globals ≤ scope
  lt : scope < m.scopes.cells.size

theorem Machine.InUse.reaches {m m' : Machine H} {scope : ScopeId} (h : m.InUse scope)
    (hm : m.Reaches 0 m') : m'.InUse scope :=
  ⟨hm.globals_eq ▸ h.le, Nat.lt_of_lt_of_le h.lt hm.size_le⟩

theorem Machine.WellFormed.of_scopes_eq {m m' : Machine H} (h : m.WellFormed)
    (hscopes : m'.scopes = m.scopes) (hglobals : m'.globals = m.globals) : m'.WellFormed := by
  refine ⟨?_, ?_, ?_⟩ <;> rw [hscopes]
  · exact hglobals ▸ h.globals
  · exact h.parents
  · exact h.values

variable [Host H] {start : Machine H} {steps : List (Session.Step H)}

/-! ## Sound machines -/

variable (start steps) in
/-- The session knows where the value comes from. A function was made at an earlier moment, in a
scope that is in use, and a host function was defined in one of the steps. -/
def Known (m : Machine H) : Value H → Prop
  | .function id c => m.InUse c.scope ∧
      ∃ origin, Visited start steps origin ∧ origin.Makes id c ∧ origin.machine.Precedes m
  | .native _ (.host function) => .define (.host function) ∈ steps
  | _ => True

variable (start steps) in
/-- The scopes in use have a tree of parents, with the global scope at its root, and they hold known
values. -/
structure Sound (m : Machine H) : Prop where
  wellFormed : m.WellFormed
  root : ∀ {scope : Scope H}, m.scopes.cells[m.globals]? = some scope → scope.parent = none
  inner : ∀ {id : ScopeId} {scope : Scope H}, m.scopes.cells[id]? = some scope → m.globals < id →
    ∃ parent ∈ scope.parent, m.globals ≤ parent
  values : ∀ {id : ScopeId} {scope : Scope H}, m.scopes.cells[id]? = some scope → m.globals ≤ id →
    ∀ var ∈ scope.vars, Known start steps m var.2

variable {m m' : Machine H} {v : Value H}

namespace Known

theorem of_typeName (h : v.typeName ≠ "function") : Known start steps m v := by
  cases v with
  | function | native => exact absurd rfl h
  | _ => trivial

theorem ofConstant (value : Constant) : Known start steps m (.ofConstant value) := by
  cases value <;> trivial

theorem within (h : Known start steps m v) : v.Within m.scopes.cells.size := by
  cases v with
  | function id c => exact h.1.lt
  | _ => trivial

theorem later (h : Known start steps m v) (hm : m.Precedes m') (hglobals : m'.globals = m.globals)
    (hsize : m.scopes.cells.size ≤ m'.scopes.cells.size) : Known start steps m' v := by
  cases v with
  | function id c =>
    obtain ⟨hscope, origin, horigin, hmakes, hearlier⟩ := h
    exact ⟨⟨hglobals ▸ hscope.le, Nat.lt_of_lt_of_le hscope.lt hsize⟩, origin, horigin, hmakes,
      hearlier.trans hm⟩
  | native id fn =>
    cases fn with
    | clock => trivial
    | host function => exact h
  | _ => trivial

theorem reaches (h : Known start steps m v) (hm : m.Reaches 0 m') : Known start steps m' v :=
  h.later hm.precedes hm.globals_eq hm.size_le

end Known

namespace Sound

variable {scope : ScopeId}

theorem inUse_globals (h : Sound start steps m) : m.InUse m.globals :=
  ⟨Nat.le_refl _, h.wellFormed.globals⟩

/-- The parent of a scope in use is in use. -/
theorem inUse_parent (h : Sound start steps m) (hscope : m.InUse scope) {cell : Scope H}
    (hcell : m.scopes.cells[scope]? = some cell) {parent : ScopeId}
    (hparent : parent ∈ cell.parent) : m.InUse parent := by
  have hlt : parent < scope := h.wellFormed.parents hcell parent hparent
  refine ⟨?_, Nat.lt_trans hlt hscope.lt⟩
  rcases Nat.eq_or_lt_of_le hscope.le with rfl | hinner
  · rw [h.root hcell] at hparent
    exact nomatch hparent
  · obtain ⟨other, hother, hle⟩ := h.inner hcell hinner
    exact Option.mem_unique hother hparent ▸ hle

/-- A name that is used in a scope in use belongs to a scope in use. -/
theorem inUse_of_resolve (h : Sound start steps m) (hscope : m.InUse scope) {name : String}
    {owner : ScopeId} (howner : m.scopes.resolve scope name = some owner) : m.InUse owner := by
  have key : ∀ (steps : Nat) (id : ScopeId), m.InUse id →
      m.scopes.resolveWithin name steps id = some owner → m.InUse owner := by
    intro steps
    induction steps with
    | zero =>
      intro _ _ h
      cases h
    | succ steps ih =>
      intro id hid howner
      rw [Scopes.resolveWithin] at howner
      split at howner
      · cases howner
      · next cell hcell =>
        split at howner
        · exact Option.some.inj howner ▸ hid
        · split at howner
          · cases howner
          · next parent hparent => exact ih parent (h.inUse_parent hid hcell hparent) howner
  exact key (scope + 1) scope hscope howner

/-- What a name stands for in a scope in use is known. -/
theorem known_of_get? (h : Sound start steps m) (hscope : m.InUse scope) {name : String}
    (hget : m.scopes.get? scope name = some v) : Known start steps m v := by
  rw [Scopes.get?] at hget
  obtain ⟨owner, howner, hget⟩ := Option.bind_eq_some_iff.mp hget
  obtain ⟨cell, hcell, hget⟩ := Option.bind_eq_some_iff.mp hget
  exact h.values hcell (h.inUse_of_resolve hscope howner).le (name, v) (Scope.mem_vars_of_get? hget)

/-! ### What keeps machines sound -/

/-- A new scope, with a parent in use. -/
theorem push (h : Sound start steps m) (hscope : m.InUse scope) :
    Sound start steps { m with scopes := m.scopes.push (some scope) } := by
  have hreaches : m.Reaches 0 { m with scopes := m.scopes.push (some scope) } :=
    .single (.newScope m (some scope))
  have hcells : ∀ {id : ScopeId} {cell : Scope H},
      (m.scopes.push (some scope)).cells[id]? = some cell →
        m.scopes.cells[id]? = some cell ∨ cell = ⟨some scope, []⟩ ∧ id = m.scopes.cells.size := by
    intro id cell hcell
    rw [Scopes.push, Array.getElem?_push] at hcell
    split at hcell
    · next hid => exact .inr ⟨(Option.some.inj hcell).symm, hid⟩
    · exact .inl hcell
  constructor
  · exact (h.wellFormed.folded.push (.some (Fold.home_same hscope.lt).toStands)).wellFormed
  · intro cell hcell
    rcases hcells hcell with hcell | ⟨-, hid⟩
    · exact h.root hcell
    · exact absurd hid (Nat.ne_of_lt h.wellFormed.globals)
  · intro id cell hcell hid
    rcases hcells hcell with hcell | ⟨rfl, -⟩
    · exact h.inner hcell hid
    · exact ⟨scope, rfl, hscope.le⟩
  · intro id cell hcell hid var hvar
    rcases hcells hcell with hcell | ⟨rfl, -⟩
    · exact (h.values hcell hid var hvar).reaches hreaches
    · exact absurd hvar List.not_mem_nil

theorem inUse_next (h : Sound start steps m) (parent : Option ScopeId) :
    Machine.InUse { m with scopes := m.scopes.push parent } m.scopes.next :=
  ⟨Nat.le_of_lt h.wellFormed.globals, by simp [Scopes.next, Scopes.push]⟩

/-- Changes outside of the scopes. -/
theorem of_scopes_eq (h : Sound start steps m) (hm : m.Precedes m') (hscopes : m'.scopes = m.scopes)
    (hglobals : m'.globals = m.globals) : Sound start steps m' := by
  constructor
  · exact h.wellFormed.of_scopes_eq hscopes hglobals
  · rw [hscopes, hglobals]
    exact h.root
  · rw [hscopes, hglobals]
    exact h.inner
  · rw [hscopes, hglobals]
    intro id cell hcell hid var hvar
    exact (h.values hcell hid var hvar).later hm hglobals (Nat.le_of_eq (by rw [hscopes]))

/-- A known value for a name, in a scope that is there. -/
theorem bind (h : Sound start steps m) (hm : m.Precedes m') {name : String}
    (hscopes : m'.scopes = m.scopes.define scope name v) (hglobals : m'.globals = m.globals)
    (hscope : scope < m.scopes.cells.size) (hv : Known start steps m v) : Sound start steps m' := by
  have hsize : m.scopes.cells.size ≤ m'.scopes.cells.size := by simp [hscopes, Scopes.define]
  have hcells : ∀ {id : ScopeId} {cell : Scope H}, m'.scopes.cells[id]? = some cell →
      ∃ old, m.scopes.cells[id]? = some old ∧ cell.parent = old.parent ∧
        ∀ var ∈ cell.vars, var = (name, v) ∨ var ∈ old.vars := by
    intro id cell hcell
    rw [hscopes, Scopes.define, Array.getElem?_modify] at hcell
    split at hcell
    · obtain ⟨old, hold, rfl⟩ := Option.map_eq_some_iff.mp hcell
      exact ⟨old, hold, rfl, fun var hvar => Scope.eq_or_mem_of_mem_put hvar⟩
    · exact ⟨cell, hcell, rfl, fun var hvar => .inr hvar⟩
  have hfolded := h.wellFormed.folded.define (Fold.home_same hscope) name hv.within.folded
  constructor
  · exact hfolded.wellFormed.of_scopes_eq hscopes hglobals
  · intro cell hcell
    obtain ⟨old, hold, hparent, -⟩ := hcells hcell
    exact hparent.trans (h.root (hglobals ▸ hold))
  · intro id cell hcell hid
    obtain ⟨old, hold, hparent, -⟩ := hcells hcell
    rw [hparent, hglobals]
    exact h.inner hold (hglobals ▸ hid)
  · intro id cell hcell hid var hvar
    obtain ⟨old, hold, -, hvars⟩ := hcells hcell
    rcases hvars var hvar with rfl | hvar
    · exact hv.later hm hglobals hsize
    · exact (h.values hold (hglobals ▸ hid) var hvar).later hm hglobals hsize

/-- A native that is defined in one of the steps. -/
theorem defineNative (h : Sound start steps m) {native : Native H}
    (hnative : .define native ∈ steps) : Sound start steps (m.defineNative native) := by
  refine h.bind (.single (.define m native)) rfl rfl h.wellFormed.globals ?_
  cases native with
  | clock => trivial
  | host function => exact hnative

/-- A machine that has just started over. -/
theorem reset (h : m.reset.WellFormed) : Sound start steps m.reset := by
  have hcells : ∀ {id : ScopeId} {cell : Scope H}, m.reset.scopes.cells[id]? = some cell →
      m.reset.globals ≤ id →
      id = m.reset.globals ∧ cell = ⟨none, [("clock", .native m.nativesMade .clock)]⟩ := by
    intro id cell hcell hid
    have hlt : id < m.reset.scopes.cells.size := (Array.getElem?_eq_some_iff.mp hcell).1
    have hsize : m.reset.scopes.cells.size = m.reset.globals + 1 := by
      simp [Machine.reset, Machine.defineNative, Scopes.define, Scopes.push, Scopes.next]
    rw [hsize] at hlt
    obtain rfl : id = m.reset.globals := Nat.le_antisymm (Nat.lt_succ_iff.mp hlt) hid
    refine ⟨rfl, ?_⟩
    change ((m.scopes.push none).define m.scopes.next "clock" _).cells[m.scopes.next]? = _ at hcell
    rw [Scopes.define, Array.getElem?_modify, if_pos rfl, Scopes.push, Scopes.next,
      Array.getElem?_push_size] at hcell
    exact (Option.some.inj hcell).symm
  constructor
  · exact h
  · intro cell hcell
    rw [(hcells hcell (Nat.le_refl _)).2]
  · intro id cell hcell hid
    exact absurd (hcells hcell (Nat.le_of_lt hid)).1 (Nat.ne_of_gt hid)
  · intro id cell hcell hid var hvar
    rw [(hcells hcell hid).2, List.mem_singleton] at hvar
    rw [hvar]
    trivial

end Sound

end BlockScript
