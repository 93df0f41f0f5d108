import BlockScript.Proofs.ScopeDepth
import BlockScript.Proofs.Unnamed

/-!
# Reading and writing in a graph of scopes

Scopes are shared. Any number of scopes can have the same parent, and so a name that is bound in one
scope is seen from many, but hidden from those that come to another binding of it first. Whatever
the graph looks like, reading and assigning agree: from a scope in which a name can be read, it can
be assigned, and what was assigned is read from then on wherever the name refers to the same
binding, and nowhere else. To define a name in a scope is seen from all scopes that come to this
scope before they come to another binding of the name.

The scope that a name refers to is stated by `Scopes.Refers`, without any bound on the length of the
way to it. That the search in `Scopes.resolve` never gives up too early is because parents are older
than their children (`Scopes.Built.parent_lt`), and this is all that is used of how the graph was
built.

## Main definitions

* `Scopes.Built` — stores that come about by opening scopes, defining names and assigning to them
* `Scopes.Sees` — the way from a scope to another one is free of bindings of a name
* `Scopes.Refers` — the scope whose binding of a name is meant

## Main results

* `Scopes.Built.resolve_eq_some_iff` — the search finds the scope that a name refers to
* `Scopes.Built.get?_define_of_sees`, `Scopes.Built.get?_define_of_not` — what is read after a name
  was defined
* `assign_agrees_with_lookup` — reading, assigning and defining
-/

namespace BlockScript

variable {H : Type}

namespace Scopes

variable {scopes : Scopes H} {name : String} {id owner : ScopeId}

/-! ## Graphs of scopes -/

/-- The stores that come about by opening scopes with and without a parent, by defining names and by
assigning to them. -/
inductive Built : Scopes H → Prop where
  | empty : Built .empty
  | root {scopes : Scopes H} (h : Built scopes) : Built (scopes.push none)
  | child {scopes : Scopes H} (h : Built scopes) {parent : ScopeId}
      (hparent : parent < scopes.next) :
      Built (scopes.push (some parent))
  | define {scopes : Scopes H} (h : Built scopes) (id : ScopeId) (name : String) (value : Value H) :
      Built (scopes.define id name value)
  | assign {scopes scopes' : Scopes H} (h : Built scopes) {id : ScopeId} {name : String}
      {value : Value H} (hassign : scopes.assign? id name value = some scopes') : Built scopes'

theorem parent_lt_push {parent : Option ScopeId}
    (h : ∀ {id above : ScopeId}, scopes.parent? id = some (some above) → above < id)
    (hparent : ∀ above ∈ parent, above < scopes.next) {above : ScopeId}
    (habove : (scopes.push parent).parent? id = some (some above)) : above < id := by
  rcases Nat.lt_or_ge id scopes.next with hid | hid
  · rw [parent?_push_of_lt hid] at habove
    exact h habove
  · have hlt := lt_of_parent? habove
    rw [push, Array.size_push] at hlt
    obtain rfl : id = scopes.next := Nat.le_antisymm (Nat.le_of_lt_succ hlt) hid
    rw [parent?_push_next] at habove
    exact hparent above (Option.some.inj habove)

/-- **Parents are older than their children.** -/
theorem Built.parent_lt (h : scopes.Built) {parent : ScopeId}
    (hparent : scopes.parent? id = some (some parent)) : parent < id := by
  induction h generalizing id parent with
  | empty => simp [parent?, Scopes.empty] at hparent
  | root _ ih => exact parent_lt_push ih (fun _ h => absurd h (Option.not_mem_none _)) hparent
  | child _ hlt ih => exact parent_lt_push ih (fun _ h => Option.some.inj h ▸ hlt) hparent
  | define _ _ _ _ ih => exact ih (parent?_define .. ▸ hparent)
  | assign _ hassign ih =>
    obtain ⟨owner, -, rfl⟩ := Option.map_eq_some_iff.mp hassign
    exact ih (parent?_define .. ▸ hparent)

/-! ## The scope that a name refers to -/

/-- The value that a scope itself binds to the name. -/
def own? (scopes : Scopes H) (id : ScopeId) (name : String) : Option (Value H) :=
  scopes.cells[id]?.bind fun scope => scope.get? name

/-- The scope itself binds the name. -/
def Binds (scopes : Scopes H) (id : ScopeId) (name : String) : Prop :=
  ∃ value, scopes.own? id name = some value

/-- On the way from `id` upwards, `owner` comes before any other scope that binds the name. -/
inductive Sees (scopes : Scopes H) (name : String) : ScopeId → ScopeId → Prop where
  | here {id : ScopeId} (h : id < scopes.cells.size) : Sees scopes name id id
  | up {id parent owner : ScopeId} (hparent : scopes.parent? id = some (some parent))
      (hid : ¬scopes.Binds id name) (h : Sees scopes name parent owner) : Sees scopes name id owner

/-- The name, if it is used in the scope `id`, refers to the binding of the scope `owner`. -/
structure Refers (scopes : Scopes H) (name : String) (id owner : ScopeId) : Prop where
  sees : scopes.Sees name id owner
  binds : scopes.Binds owner name

theorem lt_of_binds (h : scopes.Binds id name) : id < scopes.cells.size := by
  obtain ⟨value, hvalue⟩ := h
  obtain ⟨scope, hscope, -⟩ := Option.bind_eq_some_iff.mp hvalue
  exact (Array.getElem?_eq_some_iff.mp hscope).1

/-- One step of the way to the scope that a name refers to. -/
theorem refers_iff : scopes.Refers name id owner ↔
    scopes.Binds id name ∧ id = owner ∨
      ¬scopes.Binds id name ∧
        ∃ parent, scopes.parent? id = some (some parent) ∧ scopes.Refers name parent owner := by
  constructor
  · rintro ⟨hsees, hbinds⟩
    cases hsees with
    | here => exact .inl ⟨hbinds, rfl⟩
    | up hparent hid hsees => exact .inr ⟨hid, _, hparent, hsees, hbinds⟩
  · rintro (⟨hbinds, rfl⟩ | ⟨hid, parent, hparent, hsees, hbinds⟩)
    · exact ⟨.here (lt_of_binds hbinds), hbinds⟩
    · exact ⟨.up hparent hid hsees, hbinds⟩

theorem binds_iff_of_cell {scope : Scope H} (h : scopes.cells[id]? = some scope) :
    scopes.Binds id name ↔ scope.binds name = true := by
  rw [Binds, own?, h, Option.bind_some, Scope.binds_eq_isSome_get?, Option.isSome_iff_exists]

/-- The search takes as many steps as there can be on the way up. -/
theorem Built.resolveWithin_eq_some_iff (h : scopes.Built) {steps : Nat} (hsteps : id < steps) :
    scopes.resolveWithin name steps id = some owner ↔ scopes.Refers name id owner := by
  induction steps generalizing id with
  | zero => exact absurd hsteps (Nat.not_lt_zero id)
  | succ steps ih =>
    rw [resolveWithin, refers_iff]
    cases hcell : scopes.cells[id]? with
    | none => simp [Binds, own?, parent?, hcell]
    | some scope =>
      have hparent : scopes.parent? id = some scope.parent := by rw [parent?, hcell]; rfl
      rw [binds_iff_of_cell hcell, hparent]
      cases hbinds : scope.binds name with
      | true => simp [hbinds]
      | false =>
        cases habove : scope.parent with
        | none => simp [hbinds, habove]
        | some parent =>
          have hlt : parent < id := h.parent_lt (hparent.trans (congrArg some habove))
          simp [hbinds, habove, ih (Nat.lt_of_lt_of_le hlt (Nat.le_of_lt_succ hsteps))]

/-- **The search finds the scope that a name refers to.** -/
theorem Built.resolve_eq_some_iff (h : scopes.Built) :
    scopes.resolve id name = some owner ↔ scopes.Refers name id owner :=
  h.resolveWithin_eq_some_iff (Nat.lt_succ_self id)

theorem get?_eq_bind (scopes : Scopes H) (id : ScopeId) (name : String) :
    scopes.get? id name = (scopes.resolve id name).bind fun owner => scopes.own? owner name :=
  rfl

theorem Built.get?_of_refers (h : scopes.Built) (howner : scopes.Refers name id owner) :
    scopes.get? id name = scopes.own? owner name := by
  rw [get?_eq_bind, h.resolve_eq_some_iff.mpr howner, Option.bind_some]

/-- A name can be read if and only if it refers to a scope. -/
theorem Built.isSome_get? (h : scopes.Built) :
    (scopes.get? id name).isSome = (scopes.resolve id name).isSome := by
  rw [get?_eq_bind]
  cases howner : scopes.resolve id name with
  | none => rfl
  | some owner =>
    obtain ⟨value, hvalue⟩ := (h.resolve_eq_some_iff.mp howner).binds
    rw [Option.bind_some, hvalue]
    rfl

/-! ## Defining a name -/

section Define

variable {e : ScopeId} {x : String} {v : Value H}

theorem own?_define (scopes : Scopes H) (e : ScopeId) (x : String) (v : Value H) (id : ScopeId)
    (name : String) :
    (scopes.define e x v).own? id name =
      if id = e ∧ name = x ∧ e < scopes.cells.size then some v else scopes.own? id name := by
  rw [own?, own?, define, Array.getElem?_modify]
  by_cases hid : e = id
  · subst hid
    cases hcell : scopes.cells[e]? with
    | none =>
      have hsize := Array.getElem?_eq_none_iff.mp hcell
      simp [Nat.not_lt.mpr hsize]
    | some scope =>
      have hsize := (Array.getElem?_eq_some_iff.mp hcell).1
      simp [hsize]
  · simp [hid, Ne.symm hid]

theorem binds_define_iff : (scopes.define e x v).Binds id name ↔
    id = e ∧ name = x ∧ e < scopes.cells.size ∨ scopes.Binds id name := by
  rw [Binds, own?_define]
  split
  · next h => simp [h]
  · next h => simp [h, Binds]

/-- No way gets longer: there are more bindings than before. -/
theorem Sees.of_define (h : (scopes.define e x v).Sees name id owner) :
    scopes.Sees name id owner := by
  induction h with
  | here h => exact .here (by simpa [define] using h)
  | up hparent hid _ ih =>
    rw [parent?_define] at hparent
    exact .up hparent (fun hbinds => hid (binds_define_iff.mpr (.inr hbinds))) ih

/-- A way stays as it is, unless it goes past the new binding. -/
theorem Sees.define_or (h : scopes.Sees name id owner) (v : Value H) :
    (scopes.define e x v).Sees name id owner ∨ name = x ∧ scopes.Sees x id e := by
  induction h with
  | here h => exact .inl (.here (by simpa [Scopes.define] using h))
  | @up id parent owner hparent hid _ ih =>
    by_cases hnew : id = e ∧ name = x
    · obtain ⟨rfl, rfl⟩ := hnew
      exact .inr ⟨rfl, .here (lt_of_parent? hparent)⟩
    · have hid' : ¬(scopes.define e x v).Binds id name := by
        rw [binds_define_iff]
        rintro (⟨hid, hname, -⟩ | hbinds)
        · exact hnew ⟨hid, hname⟩
        · exact hid hbinds
      rcases ih with hsees | ⟨rfl, hsees⟩
      · exact .inl (.up (by rwa [parent?_define]) hid' hsees)
      · exact .inr ⟨rfl, .up hparent hid hsees⟩

/-- The way to the scope where the name is defined stays as it is. -/
theorem Sees.define_self (h : scopes.Sees x id e) (v : Value H) :
    (scopes.define e x v).Sees x id e := by
  induction h with
  | here h => exact .here (by simpa [Scopes.define] using h)
  | @up id parent e hparent hid _ ih =>
    by_cases hself : id = e
    · subst hself
      exact .here (by simpa [Scopes.define] using lt_of_parent? hparent)
    · refine .up (by rwa [parent?_define]) ?_ ih
      rw [binds_define_iff]
      rintro (⟨hid, -, -⟩ | hbinds)
      · exact hself hid
      · exact hid hbinds

theorem Sees.lt (h : scopes.Sees name id owner) : owner < scopes.cells.size := by
  induction h with
  | here h => exact h
  | up _ _ _ ih => exact ih

/-- **The new binding is read** from the scopes that come to it first. -/
theorem Built.get?_define_of_sees (h : scopes.Built) (hsees : scopes.Sees x id e) (v : Value H) :
    (scopes.define e x v).get? id x = some v := by
  have hown : (scopes.define e x v).own? e x = some v := by
    rw [own?_define, if_pos ⟨rfl, rfl, hsees.lt⟩]
  rw [(h.define e x v).get?_of_refers ⟨hsees.define_self v, v, hown⟩, hown]

/-- **All else is read as before.** -/
theorem Built.get?_define_of_not (h : scopes.Built) (hnot : ¬(name = x ∧ scopes.Sees x id e))
    (v : Value H) : (scopes.define e x v).get? id name = scopes.get? id name := by
  have hrefers (owner : ScopeId) :
      (scopes.define e x v).Refers name id owner ↔ scopes.Refers name id owner := by
    constructor
    · rintro ⟨hsees, hbinds⟩
      refine ⟨hsees.of_define, ?_⟩
      rcases binds_define_iff.mp hbinds with ⟨rfl, rfl, -⟩ | hbinds
      · exact absurd ⟨rfl, hsees.of_define⟩ hnot
      · exact hbinds
    · rintro ⟨hsees, hbinds⟩
      exact ⟨(hsees.define_or v).resolve_right hnot, binds_define_iff.mpr (.inr hbinds)⟩
  have hresolve : (scopes.define e x v).resolve id name = scopes.resolve id name := by
    ext owner
    rw [(h.define e x v).resolve_eq_some_iff, h.resolve_eq_some_iff, hrefers]
  rw [get?_eq_bind, get?_eq_bind, hresolve]
  cases howner : scopes.resolve id name with
  | none => rfl
  | some owner =>
    have hsees := (h.resolve_eq_some_iff.mp howner).sees
    rw [Option.bind_some, Option.bind_some, own?_define, if_neg]
    rintro ⟨rfl, rfl, -⟩
    exact hnot ⟨rfl, hsees⟩

end Define

end Scopes

/-! ## Assigning to a name -/

namespace Machine

variable {m m' : Machine H} {e : ScopeId} {x : String} {v : Value H} {span : Span}

theorem lookup_eq_ok {w : Value H} :
    lookup e x span m = .ok w m' ↔ m.scopes.get? e x = some w ∧ m = m' := by
  rw [lookup]
  cases m.scopes.get? e x with
  | none => simp [fail]
  | some value => simp

theorem assign_eq_ok : assign e x v span m = .ok () m' ↔
    ∃ owner, m.scopes.resolve e x = some owner ∧
      { m with scopes := m.scopes.define owner x v } = m' := by
  rw [assign]
  cases m.scopes.resolve e x with
  | none => simp [fail]
  | some owner => simp

theorem assign_eq_error {stop : Stop} (h : assign e x v span m = .error stop m') :
    stop = .failed ⟨.undefinedName x, span⟩ ∧ m' = m := by
  rw [assign] at h
  split at h
  · cases h
  · injection h with hstop hm
    exact ⟨hstop.symm, hm.symm⟩

/-- A name can be assigned if and only if it can be read. -/
theorem exists_assign_iff (h : m.scopes.Built) :
    (∃ m', assign e x v span m = .ok () m') ↔ ∃ w, lookup e x span m = .ok w m := by
  have hagree : (m.scopes.get? e x).isSome = (m.scopes.resolve e x).isSome := h.isSome_get?
  simp only [assign_eq_ok, lookup_eq_ok, and_true]
  rw [← Option.isSome_iff_exists, hagree, Option.isSome_iff_exists]
  constructor
  · rintro ⟨m', owner, howner, -⟩
    exact ⟨owner, howner⟩
  · rintro ⟨owner, howner⟩
    exact ⟨_, owner, howner, rfl⟩

end Machine

/-- The scopes are the same, with the same parents and the same names. -/
def Scopes.SameGraph (scopes scopes' : Scopes H) : Prop :=
  ∀ id : ScopeId, scopes'.cells[id]?.map (fun scope => (scope.parent, scope.names)) =
    scopes.cells[id]?.map fun scope => (scope.parent, scope.names)

theorem Scopes.sameGraph_define {scopes : Scopes H} {owner : ScopeId} {x : String}
    (hbinds : scopes.Binds owner x) (v : Value H) : scopes.SameGraph (scopes.define owner x v) := by
  intro id
  rw [define, Array.getElem?_modify]
  split
  · next hid =>
    subst hid
    cases hcell : scopes.cells[owner]? with
    | none => rfl
    | some scope =>
      have hnames := Scope.names_put_of_binds ((binds_iff_of_cell hcell).mp hbinds) v
      simp [hnames]
  · rfl

/-- **Reading and assigning agree**, whatever the graph of scopes. A name can be assigned from a
scope if and only if it can be read there. If it cannot, the fault is about this name at this place,
and nothing has changed. If it can, the scope reads the new value then, all scopes bind the names
they bound before, and what changes is what the same name stands for in the scopes from where it
refers to the same binding. To define a name in a scope changes what this name stands for in the
scopes from where this scope comes before any other one that binds the name. -/
theorem assign_agrees_with_lookup {H : Type} (m : Machine H) (hm : m.scopes.Built) (e : ScopeId)
    (x : String) (v : Value H) (span : Span) :
    ((∃ m', Machine.assign e x v span m = .ok () m') ↔ ∃ w, Machine.lookup e x span m = .ok w m) ∧
    (∀ stop m', Machine.assign e x v span m = .error stop m' →
      stop = .failed ⟨.undefinedName x, span⟩ ∧ m' = m) ∧
    (∀ m', Machine.assign e x v span m = .ok () m' →
      Machine.lookup e x span m' = .ok v m' ∧ m.scopes.SameGraph m'.scopes ∧
      (∀ e' x', m'.scopes.get? e' x' ≠ m.scopes.get? e' x' →
        x' = x ∧ ∃ owner, m.scopes.Refers x e owner ∧ m.scopes.Refers x e' owner) ∧
      ∀ e' owner, m.scopes.Refers x e owner → m.scopes.Refers x e' owner →
        m'.scopes.get? e' x = some v) ∧
    ∀ m', Machine.define e x v m = .ok () m' →
      (∀ e' x', m'.scopes.get? e' x' ≠ m.scopes.get? e' x' → x' = x ∧ m.scopes.Sees x e' e) ∧
      ∀ e', m.scopes.Sees x e' e → m'.scopes.get? e' x = some v := by
  refine ⟨Machine.exists_assign_iff hm, fun stop m' => Machine.assign_eq_error, ?_, ?_⟩
  · intro m' hassign
    obtain ⟨owner, hresolve, rfl⟩ := Machine.assign_eq_ok.mp hassign
    have howner := hm.resolve_eq_some_iff.mp hresolve
    refine ⟨?_, Scopes.sameGraph_define howner.binds v, ?_, ?_⟩
    · exact Machine.lookup_eq_ok.mpr ⟨hm.get?_define_of_sees howner.sees v, rfl⟩
    · intro e' x' hchange
      by_contra hnot
      refine hchange (hm.get?_define_of_not (fun hsees => hnot ?_) v)
      exact ⟨hsees.1, owner, howner, hsees.2, howner.binds⟩
    · intro e' owner' howner' hrefers
      obtain rfl : owner = owner' :=
        Option.some.inj (hresolve.symm.trans (hm.resolve_eq_some_iff.mpr howner'))
      exact hm.get?_define_of_sees hrefers.sees v
  · intro m' hdefine
    injection hdefine with _ hm'
    subst hm'
    refine ⟨fun e' x' hchange => ?_, fun e' hsees => hm.get?_define_of_sees hsees v⟩
    by_contra hnot
    exact hchange (hm.get?_define_of_not hnot v)

/-- Two children of one scope, of which one binds the name itself. -/
theorem assign_agrees_with_lookup_shadowed :
    let scopes : Scopes Empty :=
      ((((Scopes.empty.push none).define 0 "a" .nil).push (some 0)).push (some 0)).define
        1 "a" .nil
    let m : Machine Empty := ⟨scopes, 0, 0, 0, ⟨fun _ => 0, 0⟩, .empty none⟩
    scopes.Built ∧ ∃ m', Machine.assign 2 "a" (.bool true) ⟨0, 1⟩ m = .ok () m' ∧
      m'.scopes.get? 2 "a" = some (.bool true) ∧ m'.scopes.get? 0 "a" = some (.bool true) ∧
      m'.scopes.get? 1 "a" = scopes.get? 1 "a" := by
  intro scopes m
  have hbuilt : scopes.Built :=
    .define (.child (.child (.define (.root .empty) 0 "a" .nil) (by decide)) (by decide)) 1 "a" .nil
  have hresolve : scopes.resolve 2 "a" = some 0 := by decide +kernel
  obtain ⟨hsucceeds, -, hassign, -⟩ :=
    assign_agrees_with_lookup m hbuilt 2 "a" (.bool true) ⟨0, 1⟩
  obtain ⟨m', hm'⟩ := hsucceeds.mpr ⟨.nil, Machine.lookup_eq_ok.mpr ⟨rfl, rfl⟩⟩
  obtain ⟨hlookup, -, hframe, hseen⟩ := hassign m' hm'
  have htwo := hbuilt.resolve_eq_some_iff.mp hresolve
  refine ⟨hbuilt, m', hm', (Machine.lookup_eq_ok.mp hlookup).1, ?_, ?_⟩
  · exact hseen 0 0 htwo (hbuilt.resolve_eq_some_iff.mp (by decide +kernel))
  · by_contra hchange
    obtain ⟨-, owner, howner, hrefers⟩ := hframe 1 "a" hchange
    have hfirst := (hbuilt.resolve_eq_some_iff.mpr howner).symm.trans hresolve
    have hother : scopes.resolve 1 "a" = some 1 := by decide +kernel
    have hsecond := (hbuilt.resolve_eq_some_iff.mpr hrefers).symm.trans hother
    exact absurd (hfirst.symm.trans hsecond) (by decide)

end BlockScript
