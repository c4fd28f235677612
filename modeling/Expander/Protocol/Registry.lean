import Expander.Protocol.Action

/-!
# Registries

A registry gives each callee what it does. A name is given once, and the callees keep the order in
which they were registered. What the registry holds for a callee is of any type: the machine keeps
handlers in one.
-/

set_option autoImplicit false

namespace Expander

structure Registry (α : Type) where
  entries : List (Callee × α)

/-- A callee by its name, or one that has been found already. -/
inductive CalleeRef
  | name (name : String)
  | callee (callee : Callee)
deriving DecidableEq, Repr

namespace Registry

variable {α : Type}

def empty : Registry α := ⟨[]⟩

/-- The names, in order of registration. -/
def names (r : Registry α) : List String := r.entries.map (·.1.name)

def contains (r : Registry α) (name : String) : Bool := r.names.contains name

def find? (r : Registry α) (name : String) : Option (Callee × α) :=
  r.entries.find? (·.1.name = name)

/-- Registers a callee under a name that is not taken. -/
def register (r : Registry α) (callee : Callee) (what : α) : Except Failure (Registry α) :=
  if r.contains callee.name then .error (.breach (.alreadyRegistered callee.name) none)
  else .ok ⟨r.entries ++ [(callee, what)]⟩

def resolveName (r : Registry α) (name : String) : Except Failure Callee :=
  match r.find? name with
  | some entry => .ok entry.1
  | none => .error (.breach (.unknownCallee name) none)

def resolve (r : Registry α) : CalleeRef → Except Failure Callee
  | .name name => r.resolveName name
  | .callee c => .ok c

/-- What the registry holds for the callee of a name, where a name that is not registered has
`fallback`. -/
def lookupD (r : Registry α) (name : String) (fallback : α) : α :=
  ((r.find? name).map (·.2)).getD fallback

end Registry

/-- The handler of a callee. A callee that is not registered cannot be run. -/
def Registry.handler {σ : Type} (r : Registry (Handler σ)) (callee : Callee) : Handler σ :=
  r.lookupD callee.name fun _ _ ↦ throw (.breach (.unknownCallee callee.name) none)

end Expander
