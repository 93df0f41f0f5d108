import BlockScript.Proofs.StartOver

/-!
# Blank scopes do not matter

A scope that never gets a name of its own might as well not be there: whatever is looked for in it
is found in its parent. So a machine does what another one does that lacks some of its blank scopes,
if code that runs in a blank scope on the one side runs in the scope that stands in for it on the
other.

The worlds of this correspondence say which scope of the second machine stands in for each scope of
the first one. Scopes that are not blank have different ones, since names can be declared in them.
The machines make the same functions in the same order, so that these have the same identities.

A name is looked for in as many scopes as the number of the scope it is used in allows. The numbers
on the two sides have nothing to do with each other, and it makes no difference because a parent is
always older than its children (`Scopes.Folded.resolveWithin`). Machines in which this is so, and in
which all scopes that are referred to exist, are the ones that correspond to themselves.

## Main definitions

* `Fold` — which scope stands in for which, and which ones are blank
* `Machine.Folded` — machines that differ in blank scopes
* `Machine.WellFormed` — all scopes exist that are referred to, and parents are older

## Main results

* `Machine.folding` — to differ in blank scopes is a correspondence
* `Machine.Folded.pushBlank` — a blank scope can be opened on one side alone
* `Machine.WellFormed.folded` — a well-formed machine corresponds to itself
* `Machine.wellFormed_afterSteps`, `Machine.WellFormed.execStmt` — the machines of sessions are
  well-formed, and evaluation keeps them so
-/

namespace BlockScript

variable {H : Type}

/-! ## Worlds -/

/-- How the scopes of a machine are folded into those of another one. -/
structure Fold where
  /-- how many scopes there are -/
  size : Nat
  size' : Nat
  /-- the scope that stands in for a scope -/
  image : Nat → Nat
  /-- scopes that no name is declared in -/
  blank : Nat → Prop
  image_lt : ∀ s < size, image s < size'
  injective : ∀ s < size, ∀ t < size, ¬ blank s → ¬ blank t → image s = image t → s = t

namespace Fold

/-- The second scope stands in for the first. -/
structure Stands (w : Fold) (s s' : ScopeId) : Prop where
  lt : s < w.size
  image_eq : w.image s = s'

/-- The second scope stands in for the first, and names can be declared in them. -/
structure Home (w : Fold) (s s' : ScopeId) : Prop extends w.Stands s s' where
  not_blank : ¬ w.blank s

/-- The second fold has more scopes, and deals with the old ones in the same way. -/
structure Later (w w' : Fold) : Prop where
  size_le : w.size ≤ w'.size
  image_eq : ∀ s < w.size, w'.image s = w.image s
  blank_iff : ∀ s < w.size, w'.blank s ↔ w.blank s

variable {w w₁ w₂ : Fold} {s s' : ScopeId}

namespace Later

protected theorem refl (w : Fold) : w.Later w := ⟨Nat.le_refl _, fun _ _ => rfl, fun _ _ => .rfl⟩

theorem trans (h : w.Later w₁) (h' : w₁.Later w₂) : w.Later w₂ := by
  refine ⟨Nat.le_trans h.size_le h'.size_le, fun s hs => ?_, fun s hs => ?_⟩
  · rw [h'.image_eq s (Nat.lt_of_lt_of_le hs h.size_le), h.image_eq s hs]
  · rw [h'.blank_iff s (Nat.lt_of_lt_of_le hs h.size_le), h.blank_iff s hs]

theorem stands (h : w.Later w₁) (hs : w.Stands s s') : w₁.Stands s s' :=
  ⟨Nat.lt_of_lt_of_le hs.lt h.size_le, by rw [h.image_eq s hs.lt, hs.image_eq]⟩

theorem home (h : w.Later w₁) (hs : w.Home s s') : w₁.Home s s' :=
  ⟨h.stands hs.toStands, fun hblank => hs.not_blank ((h.blank_iff s hs.lt).mp hblank)⟩

end Later

/-- As many scopes on both sides, each for itself. -/
def same (n : Nat) : Fold where
  size := n
  size' := n
  image s := s
  blank _ := False
  image_lt _ hs := hs
  injective _ _ _ _ _ _ h := h

theorem home_same {n : Nat} (h : s < n) : (same n).Home s s := ⟨⟨h, rfl⟩, id⟩

/-- A new scope on both sides. -/
def push (w : Fold) : Fold where
  size := w.size + 1
  size' := w.size' + 1
  image s := if s = w.size then w.size' else w.image s
  blank s := s ≠ w.size ∧ w.blank s
  image_lt s hs := by
    have := w.image_lt s
    split <;> omega
  injective s hs t ht hblank hblank' h := by
    have hlt := w.image_lt s
    have hlt' := w.image_lt t
    split at h <;> split at h
    · omega
    · omega
    · omega
    · next hne hne' =>
      refine w.injective s (by omega) t (by omega) ?_ ?_ h
      · exact fun hs => hblank ⟨hne, hs⟩
      · exact fun ht => hblank' ⟨hne', ht⟩

theorem later_push (w : Fold) : w.Later w.push := by
  refine ⟨Nat.le_succ _, fun s hs => if_neg (Nat.ne_of_lt hs), fun s hs => ?_⟩
  exact ⟨And.right, fun h => ⟨Nat.ne_of_lt hs, h⟩⟩

theorem home_push (w : Fold) : w.push.Home w.size w.size' :=
  ⟨⟨Nat.lt_succ_self _, if_pos rfl⟩, fun h => h.1 rfl⟩

/-- A new scope on the first side, with the stand-in of its parent. -/
def pushBlank (w : Fold) {parent : Nat} (hparent : parent < w.size) : Fold where
  size := w.size + 1
  size' := w.size'
  image s := if s = w.size then w.image parent else w.image s
  blank s := s = w.size ∨ w.blank s
  image_lt s hs := by
    have := w.image_lt s
    have := w.image_lt parent hparent
    split <;> omega
  injective s hs t ht hblank hblank' h := by
    have hne : s ≠ w.size := fun hs => hblank (.inl hs)
    have hne' : t ≠ w.size := fun ht => hblank' (.inl ht)
    rw [if_neg hne, if_neg hne'] at h
    refine w.injective s (by omega) t (by omega) ?_ ?_ h
    · exact fun hs => hblank (.inr hs)
    · exact fun ht => hblank' (.inr ht)

theorem later_pushBlank (w : Fold) {parent : Nat} (hparent : parent < w.size) :
    w.Later (w.pushBlank hparent) := by
  refine ⟨Nat.le_succ _, fun s hs => if_neg (Nat.ne_of_lt hs), fun s hs => ?_⟩
  exact ⟨fun h => h.resolve_left (Nat.ne_of_lt hs), .inr⟩

theorem stands_pushBlank (h : w.Stands s s') : (w.pushBlank h.lt).Stands w.size s' :=
  ⟨Nat.lt_succ_self _, (if_pos rfl).trans h.image_eq⟩

end Fold

variable {w w' : Fold}

/-! ## Values -/

/-- The values are the same, but functions may belong to scopes that stand in for others. -/
inductive Value.Folded (w : Fold) : Value H → Value H → Prop where
  | nil : Folded w .nil .nil
  | bool (value : Bool) : Folded w (.bool value) (.bool value)
  | number (value : Float) : Folded w (.number value) (.number value)
  | text (value : String) : Folded w (.text value) (.text value)
  | function (id : Nat) (name : String) (params : List String) (body : List Stmt)
      {scope scope' : ScopeId} (h : w.Stands scope scope') :
      Folded w (.function id ⟨name, params, body, scope⟩)
        (.function id ⟨name, params, body, scope'⟩)
  | native (id : Nat) (fn : Native H) : Folded w (.native id fn) (.native id fn)

theorem Value.Folded.later {v v' : Value H} (hw : w.Later w') (h : Value.Folded w v v') :
    Value.Folded w' v v' := by
  cases h with
  | nil => exact .nil
  | bool value => exact .bool value
  | number value => exact .number value
  | text value => exact .text value
  | function id name params body h => exact .function id name params body (hw.stands h)
  | native id fn => exact .native id fn

/-- Values that differ in blank scopes only look the same. -/
theorem Value.likeness_folded (w : Fold) :
    Value.Likeness (Value.Folded w : Value H → Value H → Prop) where
  nil := .nil
  bool := .bool
  number := .number
  text := .text
  looks h := by
    cases h with
    | nil => exact .nil
    | bool value => exact .bool value
    | number value => exact .number value
    | text value => exact .text value
    | function id name params body _ => exact .function _ _ rfl rfl
    | native id fn => exact .native _ _ fn
  same_eq h hw := by cases h <;> cases hw <;> rfl

/-! ## Scopes -/

/-- The scopes, of which the first has the number `id` and is not blank, are the same but for blank
scopes above them. -/
structure Scope.Folded (w : Fold) (id : ScopeId) (s s' : Scope H) : Prop where
  parent : Option.Rel (fun p p' => p < id ∧ p' < w.image id ∧ w.image p = p') s.parent s'.parent
  vars : SameNames (Value.Folded w) s.vars s'.vars

theorem Scope.Folded.later {id : ScopeId} {s s' : Scope H} (hw : w.Later w') (hid : id < w.size)
    (h : Scope.Folded w id s s') : Scope.Folded w' id s s' := by
  refine ⟨?_, h.vars.imp fun _ _ hvar => ⟨hvar.1, hvar.2.later hw⟩⟩
  refine optionRel_imp (fun p p' hp => ?_) h.parent
  rw [hw.image_eq id hid, hw.image_eq p (Nat.lt_trans hp.1 hid)]
  exact hp

/-- The stores are the same but for blank scopes in the first one. -/
structure Scopes.Folded (w : Fold) (s s' : Scopes H) : Prop where
  size : s.cells.size = w.size
  size' : s'.cells.size = w.size'
  blank : ∀ id < w.size, w.blank id → ∃ parent : Nat, s.cells[id]? = some ⟨some parent, []⟩ ∧
    parent < id ∧ w.image parent = w.image id
  cells : ∀ id < w.size, ¬ w.blank id → ∃ scope scope', s.cells[id]? = some scope ∧
    s'.cells[w.image id]? = some scope' ∧ Scope.Folded w id scope scope'

namespace Scopes.Folded

variable {s s' : Scopes H} {id id' : ScopeId}

/-- A new scope on both sides. -/
theorem push (h : Scopes.Folded w s s') {parent parent' : Option ScopeId}
    (hparent : Option.Rel w.Stands parent parent') :
    Scopes.Folded w.push (s.push parent) (s'.push parent') := by
  have hlater := w.later_push
  refine ⟨by simp [Scopes.push, h.size, Fold.push], by simp [Scopes.push, h.size', Fold.push],
    fun id hid hblank => ?_, fun id hid hblank => ?_⟩
  · have hlt : id < w.size := (Nat.lt_succ_iff_lt_or_eq.mp hid).resolve_right hblank.1
    obtain ⟨p, hcell, hp, himage⟩ := h.blank id hlt hblank.2
    refine ⟨p, ?_, hp, ?_⟩
    · rw [Scopes.getElem?_push_of_lt (h.size ▸ hlt), hcell]
    · rw [hlater.image_eq p (Nat.lt_trans hp hlt), hlater.image_eq id hlt, himage]
  · rcases Nat.lt_succ_iff_lt_or_eq.mp hid with hlt | rfl
    · obtain ⟨scope, scope', hcell, hcell', hscope⟩ := h.cells id hlt fun hb =>
        hblank ((hlater.blank_iff id hlt).mpr hb)
      refine ⟨scope, scope', ?_, ?_, hscope.later hlater hlt⟩
      · rw [Scopes.getElem?_push_of_lt (h.size ▸ hlt), hcell]
      · rw [hlater.image_eq id hlt, Scopes.getElem?_push_of_lt (h.size' ▸ w.image_lt id hlt),
          hcell']
    · refine ⟨⟨parent, []⟩, ⟨parent', []⟩, ?_, ?_, ?_, .nil⟩
      · simp [Scopes.push, ← h.size]
      · simp [Scopes.push, ← h.size', w.home_push.image_eq]
      · refine optionRel_imp (fun p p' hp => ?_) hparent
        rw [w.home_push.image_eq, hlater.image_eq p hp.lt]
        exact ⟨hp.lt, hp.image_eq ▸ w.image_lt p hp.lt, hp.image_eq⟩

/-- A new blank scope on the first side. -/
theorem pushBlank (h : Scopes.Folded w s s') {parent : ScopeId} (hparent : parent < w.size) :
    Scopes.Folded (w.pushBlank hparent) (s.push (some parent)) s' := by
  have hlater := w.later_pushBlank hparent
  refine ⟨by simp [Scopes.push, h.size, Fold.pushBlank], h.size',
    fun id hid hblank => ?_, fun id hid hblank => ?_⟩
  · rcases Nat.lt_succ_iff_lt_or_eq.mp hid with hlt | rfl
    · obtain ⟨p, hcell, hp, himage⟩ := h.blank id hlt ((hlater.blank_iff id hlt).mp hblank)
      refine ⟨p, ?_, hp, ?_⟩
      · rw [Scopes.getElem?_push_of_lt (h.size ▸ hlt), hcell]
      · rw [hlater.image_eq p (Nat.lt_trans hp hlt), hlater.image_eq id hlt, himage]
    · refine ⟨parent, ?_, hparent, ?_⟩
      · simp [Scopes.push, ← h.size]
      · rw [hlater.image_eq parent hparent]
        exact (if_pos rfl).symm
  · have hlt : id < w.size :=
      (Nat.lt_succ_iff_lt_or_eq.mp hid).resolve_right fun hid => hblank (.inl hid)
    obtain ⟨scope, scope', hcell, hcell', hscope⟩ := h.cells id hlt fun hb =>
      hblank ((hlater.blank_iff id hlt).mpr hb)
    refine ⟨scope, scope', ?_, ?_, hscope.later hlater hlt⟩
    · rw [Scopes.getElem?_push_of_lt (h.size ▸ hlt), hcell]
    · rw [hlater.image_eq id hlt, hcell']

theorem define (h : Scopes.Folded w s s') (hid : w.Home id id') (name : String) {v v' : Value H}
    (hv : Value.Folded w v v') : Scopes.Folded w (s.define id name v) (s'.define id' name v') := by
  obtain ⟨⟨hlt, rfl⟩, hnot⟩ := hid
  refine ⟨by simp [Scopes.define, h.size], by simp [Scopes.define, h.size'],
    fun other hother hblank => ?_, fun other hother hblank => ?_⟩
  · obtain ⟨p, hcell, hp, himage⟩ := h.blank other hother hblank
    have hne : id ≠ other := fun heq => hnot (heq ▸ hblank)
    refine ⟨p, ?_, hp, himage⟩
    simpa only [Scopes.define, Array.getElem?_modify, hne, if_false] using hcell
  · obtain ⟨scope, scope', hcell, hcell', hscope⟩ := h.cells other hother hblank
    simp only [Scopes.define, Array.getElem?_modify]
    by_cases heq : id = other
    · subst heq
      refine ⟨scope.put name v, scope'.put name v', ?_, ?_, hscope.parent, ?_⟩
      · rw [if_pos rfl, hcell, Option.map_some]
      · rw [if_pos rfl, hcell', Option.map_some]
      · exact Scope.put_of_sameNames hscope.vars name hv
    · -- Scopes that are not blank have different stand-ins.
      have hne : w.image id ≠ w.image other := fun himage =>
        heq (w.injective id hlt other hother hnot hblank himage)
      exact ⟨scope, scope', by rw [if_neg heq, hcell], by rw [if_neg hne, hcell'], hscope⟩

/-- If there are enough steps to go through all older scopes, it does not matter how many. -/
theorem resolveWithin (h : Scopes.Folded w s s') (name : String) {steps steps' : Nat}
    (hid : id < w.size) (hsteps : id < steps) (hsteps' : w.image id < steps') :
    Option.Rel w.Home (s.resolveWithin name steps id)
      (s'.resolveWithin name steps' (w.image id)) := by
  induction steps generalizing steps' id with
  | zero => exact absurd hsteps (Nat.not_lt_zero id)
  | succ steps ih =>
    by_cases hblank : w.blank id
    · -- Only the first side goes on to the parent.
      obtain ⟨parent, hcell, hparent, himage⟩ := h.blank id hid hblank
      rw [Scopes.resolveWithin, hcell, ← himage]
      rw [← himage] at hsteps'
      exact ih (Nat.lt_trans hparent hid)
        (Nat.lt_of_lt_of_le hparent (Nat.le_of_lt_succ hsteps)) hsteps'
    · obtain ⟨scope, scope', hcell, hcell', hscope⟩ := h.cells id hid hblank
      cases steps' with
      | zero => exact absurd hsteps' (Nat.not_lt_zero _)
      | succ steps' =>
        rw [Scopes.resolveWithin, Scopes.resolveWithin, hcell, hcell']
        simp only [Scope.binds_eq_of_sameNames hscope.vars]
        split
        · exact .some ⟨⟨hid, rfl⟩, hblank⟩
        · have hparent := hscope.parent
          generalize scope.parent = parent, scope'.parent = parent' at hparent
          cases hparent with
          | none => exact .none
          | some hp =>
            obtain ⟨hp, hp', rfl⟩ := hp
            exact ih (Nat.lt_trans hp hid) (Nat.lt_of_lt_of_le hp (Nat.le_of_lt_succ hsteps))
              (Nat.lt_of_lt_of_le hp' (Nat.le_of_lt_succ hsteps'))

theorem resolve (h : Scopes.Folded w s s') (hid : w.Stands id id') (name : String) :
    Option.Rel w.Home (s.resolve id name) (s'.resolve id' name) := by
  obtain ⟨hlt, rfl⟩ := hid
  exact h.resolveWithin name hlt (Nat.lt_succ_self _) (Nat.lt_succ_self _)

theorem get? (h : Scopes.Folded w s s') (hid : w.Stands id id') (name : String) :
    Option.Rel (Value.Folded w) (s.get? id name) (s'.get? id' name) := by
  have hresolve := h.resolve hid name
  rw [Scopes.get?, Scopes.get?]
  generalize s.resolve id name = owner, s'.resolve id' name = owner' at hresolve
  cases hresolve with
  | none => exact .none
  | @some owner owner' howner =>
    obtain ⟨⟨hlt, rfl⟩, hnot⟩ := howner
    obtain ⟨scope, scope', hcell, hcell', hscope⟩ := h.cells owner hlt hnot
    simp only [Option.bind_eq_bind, Option.bind_some, hcell, hcell']
    exact Scope.get?_of_sameNames hscope.vars name

end Scopes.Folded

/-! ## Machines -/

/-- The machines are the same but for blank scopes in the first one. -/
structure Machine.Folded (w : Fold) (m m' : Machine H) : Prop where
  scopes : Scopes.Folded w m.scopes m'.scopes
  globals : w.Home m.globals m'.globals
  functionsMade : m.functionsMade = m'.functionsMade
  nativesMade : m.nativesMade = m'.nativesMade
  clock : m.clock = m'.clock
  sink : m.sink = m'.sink

namespace Machine

variable {m m' : Machine H}

theorem Folded.push (h : m.Folded w m') {parent parent' : Option ScopeId}
    (hparent : Option.Rel w.Stands parent parent') :
    Folded w.push { m with scopes := m.scopes.push parent }
      { m' with scopes := m'.scopes.push parent' } :=
  { h with
    scopes := h.scopes.push hparent
    globals := w.later_push.home h.globals }

theorem Folded.pushBlank (h : m.Folded w m') {parent : ScopeId} (hparent : parent < w.size) :
    Folded (w.pushBlank hparent) { m with scopes := m.scopes.push (some parent) } m' :=
  { h with
    scopes := h.scopes.pushBlank hparent
    globals := (w.later_pushBlank hparent).home h.globals }

theorem Folded.define (h : m.Folded w m') {scope scope' : ScopeId} (hscope : w.Home scope scope')
    (name : String) {v v' : Value H} (hv : Value.Folded w v v') :
    Folded w { m with scopes := m.scopes.define scope name v }
      { m' with scopes := m'.scopes.define scope' name v' } :=
  { h with scopes := h.scopes.define hscope name hv }

/-- The scope that is opened next on both sides. -/
theorem Folded.home_next (h : m.Folded w m') : w.push.Home m.scopes.next m'.scopes.next := by
  rw [Scopes.next, Scopes.next, h.scopes.size, h.scopes.size']
  exact w.home_push

/-- **To differ in blank scopes is a correspondence.** -/
def folding [Host H] [Host.Parametric H] : Correspondence H where
  World := Fold
  Later := Fold.Later
  places span span' := span = span'
  names _ := True
  scope := Fold.Stands
  home := Fold.Home
  value := Value.Folded
  machine := Machine.Folded
  later_refl := Fold.Later.refl
  later_trans := Fold.Later.trans
  scope_later hw h := hw.stands h
  home_later hw h := hw.home h
  scope_of_home h := h.toStands
  value_later hw h := h.later hw
  likeness := Value.likeness_folded
  body h := by
    cases h with
    | function id name params body h =>
      exact ⟨List.forall₂_same.mpr fun s _ => s.alike_self (fun _ _ => rfl) fun _ _ => rfl, h,
        fun _ _ => trivial⟩
  host function h := Host.Parametric.call_likeness (Value.likeness_folded _) function h
  newScope hm hs := ⟨_, Fold.later_push _, hm.home_next, hm.push (.some hs)⟩
  define name _ hm hs hv := ⟨_, .refl _, hm.define hs name hv⟩
  assign name _ hm hs hv := optionRel_imp
    (fun _ _ howner => ⟨_, .refl _, hm.define howner name hv⟩) (hm.scopes.resolve hs name)
  get? name _ hm hs := hm.scopes.get? hs name
  makeFunction name params _ hm hs hbody := by
    have hsame := hbody.imp fun _ _ h => Stmt.eq_of_alike (fun _ _ h => h) h fun _ _ h => h
    rw [List.forall₂_eq_eq_eq] at hsame
    subst hsame
    rw [hm.functionsMade]
    exact ⟨_, .refl _, .function _ name params _ hs, { hm with functionsMade := rfl }⟩
  readClock hm := by
    rw [hm.clock]
    exact ⟨rfl, _, .refl _, { hm with clock := rfl }⟩
  write text hm := by
    rw [hm.sink]
    exact ⟨rfl, _, .refl _, { hm with sink := rfl }⟩

variable [Host H]

/-- **Running a program on machines that differ in blank scopes.** -/
theorem execute_folded [Host.Parametric H] (fuel : Nat) (program : Program) (h : m.Folded w m') :
    (m.execute fuel program).1 = (m'.execute fuel program).1 ∧
      ∃ w', w.Later w' ∧ (m.execute fuel program).2.Folded w' (m'.execute fuel program).2 := by
  have hprogram : List.Forall₂ (Stmt.Alike (· = ·) (· = ·)) program program :=
    List.forall₂_same.mpr fun s _ => s.alike_self (fun _ _ => rfl) fun _ _ => rfl
  obtain ⟨hending, w', hlater, hmachine⟩ :=
    folding.execute (fun _ _ h => h) fuel hprogram (fun _ _ => trivial) h h.globals
  exact ⟨Ending.eq_of_alike hending, w', hlater, hmachine⟩

/-! ### What is done from outside -/

theorem Folded.defineNative (h : m.Folded w m') (native : Native H) :
    (m.defineNative native).Folded w (m'.defineNative native) := by
  have hvalue : Value.Folded w (.native m.nativesMade native : Value H)
      (.native m'.nativesMade native) := by
    rw [h.nativesMade]
    exact .native _ native
  exact { h with
    scopes := h.scopes.define h.globals native.name hvalue
    nativesMade := congrArg (· + 1) h.nativesMade }

/-- To start over does not need the global scopes to correspond. -/
theorem folded_reset (hscopes : Scopes.Folded w m.scopes m'.scopes)
    (hfunctions : m.functionsMade = m'.functionsMade) (hnatives : m.nativesMade = m'.nativesMade)
    (hclock : m.clock = m'.clock) (hsink : m.sink = m'.sink) :
    m.reset.Folded w.push m'.reset := by
  have hglobals : w.push.Home m.scopes.next m'.scopes.next := by
    rw [Scopes.next, Scopes.next, hscopes.size, hscopes.size']
    exact w.home_push
  have hempty : Folded w.push { m with scopes := m.scopes.push none, globals := m.scopes.next }
      { m' with scopes := m'.scopes.push none, globals := m'.scopes.next } :=
    ⟨hscopes.push .none, hglobals, hfunctions, hnatives, hclock, hsink⟩
  exact hempty.defineNative .clock

theorem Folded.reset (h : m.Folded w m') : m.reset.Folded w.push m'.reset :=
  folded_reset h.scopes h.functionsMade h.nativesMade h.clock h.sink

/-- **One step of a session** on machines that differ in blank scopes. -/
theorem Folded.take [Host.Parametric H] (h : m.Folded w m') (step : Session.Step H) :
    (step.take m).1 = (step.take m').1 ∧
      ∃ w', w.Later w' ∧ (step.take m).2.Folded w' (step.take m').2 := by
  cases step with
  | run fuel program =>
    obtain ⟨hending, w', hlater, hmachine⟩ := execute_folded fuel program h
    have houtcome := Session.runWith_fst_eq hending (by rw [hmachine.sink, h.sink])
    refine ⟨congrArg some houtcome, w', hlater, ?_⟩
    show (Session.runWith fuel program m).2.Folded w' (Session.runWith fuel program m').2
    rw [Session.runWith_snd, Session.runWith_snd]
    exact hmachine
  | define native => exact ⟨rfl, w, .refl w, h.defineNative native⟩
  | reset => exact ⟨rfl, w.push, w.later_push, h.reset⟩

/-! ## Well-formed machines -/

end Machine

/-- The value refers to no scope from the number `n` on. -/
def Value.Within (n : Nat) : Value H → Prop
  | .function _ closure => closure.scope < n
  | _ => True

theorem Value.Within.folded {n : Nat} {v : Value H} (h : v.Within n) :
    Value.Folded (.same n) v v := by
  cases v with
  | nil => exact .nil
  | bool value => exact .bool value
  | number value => exact .number value
  | text value => exact .text value
  | function id closure => exact .function id _ _ _ (Fold.home_same h).toStands
  | native id fn => exact .native id fn

theorem Value.Folded.within {v v' : Value H} (h : Value.Folded w v v') : v.Within w.size := by
  cases h with
  | function id name params body h => exact h.lt
  | _ => trivial

namespace Machine

/-- All scopes exist that are referred to, and every parent is older than its children. -/
structure WellFormed (m : Machine H) : Prop where
  globals : m.globals < m.scopes.cells.size
  parents : ∀ {id : ScopeId} {scope : Scope H}, m.scopes.cells[id]? = some scope →
    ∀ parent ∈ scope.parent, parent < id
  values : ∀ {id : ScopeId} {scope : Scope H}, m.scopes.cells[id]? = some scope →
    ∀ var ∈ scope.vars, var.2.Within m.scopes.cells.size

variable {m m' : Machine H}

/-- **A well-formed machine corresponds to itself.** -/
theorem WellFormed.folded (h : m.WellFormed) : m.Folded (.same m.scopes.cells.size) m := by
  refine ⟨⟨rfl, rfl, fun _ _ hblank => hblank.elim, fun id hid _ => ?_⟩, Fold.home_same h.globals,
    rfl, rfl, rfl, rfl⟩
  obtain ⟨scope, hscope⟩ : ∃ scope, m.scopes.cells[id]? = some scope :=
    ⟨_, Array.getElem?_eq_getElem hid⟩
  refine ⟨scope, scope, hscope, hscope, ?_, List.forall₂_same.mpr fun var hvar => ?_⟩
  · cases hparent : scope.parent with
    | none => exact .none
    | some parent =>
      have hlt := h.parents hscope parent hparent
      exact .some ⟨hlt, hlt, rfl⟩
  · exact ⟨rfl, (h.values hscope var hvar).folded⟩

theorem Folded.wellFormed (h : m.Folded w m') : m.WellFormed := by
  have hlt : ∀ {id : ScopeId} {scope : Scope H},
      m.scopes.cells[id]? = some scope → id < w.size := by
    intro id scope hscope
    rw [← h.scopes.size]
    exact (Array.getElem?_eq_some_iff.mp hscope).1
  refine ⟨h.scopes.size ▸ h.globals.lt, fun {id scope} hscope parent hparent => ?_,
    fun {id scope} hscope var hvar => ?_⟩
  · by_cases hblank : w.blank id
    · obtain ⟨p, hcell, hp, -⟩ := h.scopes.blank id (hlt hscope) hblank
      obtain rfl := Option.some.inj (hscope.symm.trans hcell)
      exact Option.some.inj hparent ▸ hp
    · obtain ⟨scope₁, scope', hcell, -, hfolded⟩ := h.scopes.cells id (hlt hscope) hblank
      obtain rfl := Option.some.inj (hscope.symm.trans hcell)
      have hrel := hfolded.parent
      rw [Option.mem_def.mp hparent] at hrel
      generalize scope'.parent = parent' at hrel
      cases hrel with
      | some hp => exact hp.1
  · rw [h.scopes.size]
    by_cases hblank : w.blank id
    · obtain ⟨p, hcell, -⟩ := h.scopes.blank id (hlt hscope) hblank
      obtain rfl := Option.some.inj (hscope.symm.trans hcell)
      exact absurd hvar List.not_mem_nil
    · obtain ⟨scope₁, scope', hcell, -, hfolded⟩ := h.scopes.cells id (hlt hscope) hblank
      obtain rfl := Option.some.inj (hscope.symm.trans hcell)
      obtain ⟨pairs, hpairs, -, hvars⟩ := exists_pairs hfolded.vars
      rw [hpairs] at hvar
      obtain ⟨pair, hpair, rfl⟩ := List.mem_map.mp hvar
      exact (hvars pair hpair).2.within

variable [Host H]

theorem wellFormed_start (clock : Clock) (sink : Sink) :
    (start clock sink : Machine H).WellFormed := by
  have hnone : Scopes.Folded (.same 0) (.empty : Scopes H) .empty :=
    ⟨rfl, rfl, fun _ h => absurd h (Nat.not_lt_zero _), fun _ h => absurd h (Nat.not_lt_zero _)⟩
  have hreset := folded_reset (m := ⟨.empty, 0, 0, 0, clock, sink⟩) hnone rfl rfl rfl rfl
  exact hreset.wellFormed

/-- **Statements keep machines well-formed**, in any scope that is there and however they end. -/
theorem WellFormed.execStmt [Host.Parametric H] (h : m.WellFormed) (fuel turns : Nat)
    {scope : ScopeId} (hscope : scope < m.scopes.cells.size) (s : Stmt) :
    (after (execStmt (callWith fuel) turns scope s m)).WellFormed := by
  have hcall : folding.CallsAgree (· = ·) (callWith fuel : Call H) (callWith fuel) :=
    Correspondence.callsAgree_callWith (fun _ _ h => h) fuel
  have halike : Stmt.Alike (· = ·) (· = ·) s s := s.alike_self (fun _ _ => rfl) fun _ _ => rfl
  have hhome : (Fold.same m.scopes.cells.size).Home scope scope := Fold.home_same hscope
  have hagree := Correspondence.simulates_execStmt turns halike (fun _ _ => trivial) hcall
    hhome.toStands (fun _ => hhome) m m h.folded
  generalize BlockScript.execStmt (callWith fuel) turns scope s m = r at hagree
  cases hagree with
  | ok _ _ hm => exact hm.wellFormed
  | error _ _ hm => exact hm.wellFormed

/-- **Every machine of a session is well-formed.** -/
theorem wellFormed_afterSteps [Host.Parametric H] (history : List (Session.Step H)) (clock : Clock)
    (sink : Sink) : (Session.afterSteps history (start clock sink : Machine H)).WellFormed := by
  rw [Session.afterSteps]
  refine List.foldlRecOn history _ (wellFormed_start clock sink) fun m hm step _ => ?_
  obtain ⟨-, w, -, hfolded⟩ := hm.folded.take step
  exact hfolded.wellFormed

end Machine

end BlockScript
