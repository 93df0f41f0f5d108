import BlockScript.Value

/-!
# Scopes

A scope binds names to values and may have a parent, in which names are looked up that it does
not bind itself. Scopes are kept in one store and referred to by number, so that a function and
the code around it share the scope they both see. A parent is always older than its children.

## Main definitions

* `Scope`, `Scopes` — a scope, and the store of all scopes
* `Scopes.resolve` — the scope that a name belongs to, seen from a scope
* `Scopes.get?`, `Scopes.define`, `Scopes.assign?` — reading, making and changing bindings

## Main results

* `Scope.names_put_of_binds` — to change a binding changes no name
-/

namespace BlockScript

/-- A scope: its parent and its own bindings, each name at most once. -/
structure Scope (H : Type) where
  parent : Option ScopeId
  vars : List (String × Value H)

namespace Scope

variable {H : Type}

/-- The names that a scope binds itself. -/
def names (scope : Scope H) : List String := scope.vars.map Prod.fst

/-- Whether a scope binds the name itself. -/
def binds (scope : Scope H) (name : String) : Bool := scope.vars.any (·.1 == name)

/-- Sets the value of a name in a list of bindings, at its old place if it has one. -/
def putVar (name : String) (value : Value H) : List (String × Value H) → List (String × Value H)
  | [] => [(name, value)]
  | (other, old) :: vars =>
    if other = name then (name, value) :: vars else (other, old) :: putVar name value vars

/-- Binds a name, in place of an earlier binding of it in the same scope. -/
def put (scope : Scope H) (name : String) (value : Value H) : Scope H :=
  { scope with vars := putVar name value scope.vars }

/-- The value that a scope itself binds to the name. -/
def get? (scope : Scope H) (name : String) : Option (Value H) := scope.vars.lookup name

@[simp] theorem parent_put (scope : Scope H) (name : String) (value : Value H) :
    (scope.put name value).parent = scope.parent := rfl

theorem map_fst_putVar (name : String) (value : Value H) (vars : List (String × Value H)) :
    (putVar name value vars).map Prod.fst =
      if vars.any (·.1 == name) then vars.map Prod.fst else vars.map Prod.fst ++ [name] := by
  induction vars with
  | nil => rfl
  | cons var vars ih =>
    obtain ⟨other, old⟩ := var
    by_cases h : other = name
    · simp [putVar, h]
    · have h' : (other == name) = false := by simpa using h
      simp only [putVar, h, if_false, List.map_cons, List.any_cons, h', Bool.false_or, ih]
      split <;> simp

/-- To change a binding changes no name. -/
theorem names_put_of_binds {scope : Scope H} {name : String} (h : scope.binds name)
    (value : Value H) : (scope.put name value).names = scope.names := by
  rw [names, put, map_fst_putVar, if_pos (by simpa [binds] using h), names]

theorem lookup_putVar (name other : String) (value : Value H) (vars : List (String × Value H)) :
    (putVar name value vars).lookup other =
      if other = name then some value else vars.lookup other := by
  induction vars with
  | nil =>
    by_cases h : other = name
    · simp [putVar, h]
    · have h' : (other == name) = false := by simpa using h
      simp [putVar, List.lookup_cons, h, h']
  | cons var vars ih =>
    obtain ⟨key, old⟩ := var
    by_cases hk : key = name
    · subst hk
      by_cases h : other = key
      · simp [putVar, h]
      · have h' : (other == key) = false := by simpa using h
        simp [putVar, List.lookup_cons, h, h']
    · simp only [putVar, hk, if_false, List.lookup_cons]
      by_cases h : other = key
      · subst h
        simp [hk]
      · have h' : (other == key) = false := by simpa using h
        simp only [h', ih]

@[simp] theorem get?_put (scope : Scope H) (name other : String) (value : Value H) :
    (scope.put name value).get? other = if other = name then some value else scope.get? other :=
  lookup_putVar ..

end Scope

/-- The store of all scopes, each under its number. -/
structure Scopes (H : Type) where
  cells : Array (Scope H)

namespace Scopes

variable {H : Type}

/-- No scope at all. -/
def empty : Scopes H := ⟨#[]⟩

/-- The number that the next scope gets. -/
def next (scopes : Scopes H) : ScopeId := scopes.cells.size

/-- Adds a scope without bindings, under the next number. -/
def push (scopes : Scopes H) (parent : Option ScopeId) : Scopes H :=
  ⟨scopes.cells.push ⟨parent, []⟩⟩

theorem getElem?_push_of_lt {scopes : Scopes H} {id : ScopeId} (h : id < scopes.cells.size)
    (parent : Option ScopeId) : (scopes.push parent).cells[id]? = scopes.cells[id]? := by
  rw [push, Array.getElem?_push, if_neg (Nat.ne_of_lt h)]

/-- The scope that binds the name, looked for in `steps` scopes from `id` upwards. -/
def resolveWithin (scopes : Scopes H) (name : String) : (steps : Nat) → ScopeId → Option ScopeId
  | 0, _ => none
  | steps + 1, id =>
    match scopes.cells[id]? with
    | none => none
    | some scope =>
      if scope.binds name then some id
      else
        match scope.parent with
        | none => none
        | some parent => scopes.resolveWithin name steps parent

/-- The scope that the name belongs to when it is used in the scope `id`. Parents are older, so
no chain is longer than the number of its first scope allows. -/
def resolve (scopes : Scopes H) (id : ScopeId) (name : String) : Option ScopeId :=
  scopes.resolveWithin name (id + 1) id

/-- The value of a name that is used in the scope `id`. -/
def get? (scopes : Scopes H) (id : ScopeId) (name : String) : Option (Value H) := do
  let owner ← scopes.resolve id name
  let scope ← scopes.cells[owner]?
  scope.get? name

/-- Binds a name in the scope `id` itself. -/
def define (scopes : Scopes H) (id : ScopeId) (name : String) (value : Value H) : Scopes H :=
  ⟨scopes.cells.modify id (·.put name value)⟩

/-- Changes the binding that a name used in the scope `id` refers to. It never makes one. -/
def assign? (scopes : Scopes H) (id : ScopeId) (name : String) (value : Value H) :
    Option (Scopes H) :=
  (scopes.resolve id name).map fun owner => scopes.define owner name value

end Scopes

end BlockScript
