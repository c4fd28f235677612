import Expander.Protocol.Registry

/-!
# Calls and returns

How a step is made from another. A call runs a callee for a chain of its own choice, a tail call
hands its chain on to another callee, and a return resumes the nearest frame of a chain: the frame's
callee receives the frame's state followed by the outputs, and answers to the rest of the chain.
A branch calls a predicate for a frame that holds both steps as its state, and the frame's callee
gives back the one that was chosen.

Names in an argument list are unique. So the outputs of a return have no name of the state they
follow, which is checked when the return is made, and already when a call is made of a callee that
declares its outputs.
-/

set_option autoImplicit false

namespace Expander

/-- An argument that holds tokens. -/
def Argument.ofTokens (name : String) (ts : List Token) : Argument := ⟨name, .tokens ts⟩

/-- The first name that occurs a second time. -/
def repeatedName? : (seen : List String) → List Argument → Option String
  | _, [] => none
  | seen, a :: args =>
    if seen.contains a.name then some a.name else repeatedName? (a.name :: seen) args

/-- Arguments with names that are unique. -/
def distinct (args : List Argument) : Except Failure (List Argument) :=
  match repeatedName? [] args with
  | some name => .error (.breach (.duplicateArgument name) none)
  | none => .ok args

/-- The arguments among some items, where an item that is none goes by the name of its type. Each
item has to be an argument of a name that no item before it has. -/
def gather (seen : List String) : List (Except String Argument) → Except Failure (List Argument)
  | [] => .ok []
  | .error type :: _ => .error (.mistyped (.notArgument type))
  | .ok a :: items =>
    if seen.contains a.name then .error (.breach (.duplicateArgument a.name) none)
    else (gather (a.name :: seen) items).map (a :: ·)

/-- An argument list behind another. -/
def appended (args more : List Argument) : Except Failure (List Argument) :=
  distinct (args ++ more)

/-- The values of arguments whose shape is exactly some names. -/
def valuesOf? (names : List String) (args : List Argument) : Option (List Value) :=
  if shape args = names then some (args.map (·.value)) else none

/-- The argument at an index, where a negative one counts from the end. -/
def argumentAt (args : List Argument) (index : Int) : Except Failure Argument :=
  let i := if index < 0 then index + args.length else index
  if i < 0 then .error (.outOfRange .storage)
  else
    match args[i.toNat]? with
    | some a => .ok a
    | none => .error (.outOfRange .storage)

/-- Names in order, each once. -/
def sortedNames (names : List String) : List String :=
  (names.mergeSort fun a b ↦ !(b < a)).eraseDups

/-- Fails if a state has one of some names of outputs; `blamed` is the callee to blame. -/
def checkDisjoint (state : List Argument) (outputs : List String) (blamed : String) :
    Except Failure Unit :=
  match (shape state).filter outputs.contains with
  | [] => .ok ()
  | names => .error (.breach (.reusedOutputs (sortedNames names)) (some blamed))

/-- A call of a callee that answers to a chain. The arguments are looked at last. -/
def callFor (target : Callee) (chain : Chain) (args : Except Failure (List Argument)) :
    Except Failure Value := do
  match target.outputs, chain with
  | some outputs, frame :: _ => checkDisjoint frame.state outputs target.name
  | _, _ => pure ()
  let args ← args
  return .pending ⟨target, chain, ← distinct args, none⟩

/-- A step of another callee for the same chain. -/
def tailCall (target : Callee) (caller : Chain) (args : Except Failure (List Argument)) :
    Except Failure Value := do
  return .pending ⟨target, caller, ← distinct (← args), none⟩

/-- Resumes the nearest frame of a chain. -/
def returnTo (caller : Chain) (outputs : Except Failure (List Argument)) :
    Except Failure Value := do
  match caller with
  | [] => throw (.breach .noContinuation none)
  | frame :: outer =>
    let outputs ← distinct (← outputs)
    checkDisjoint frame.state (shape outputs) frame.callee.name
    return .pending ⟨frame.callee, outer, ← distinct (frame.state ++ outputs), some frame⟩

/-- Where the outputs of a call go. -/
inductive Destination
  | identity
  | callee (ref : CalleeRef)
  | chain (frame : Frame) (outer : Chain)
  | unfit (type : String)

/-- The callee that gives back the only output of a call. -/
def identityReturn : Callee := ⟨"tt_identity_return", none⟩

/-- The callee that chooses between two steps. -/
def branchReturn : Callee := ⟨"private_if_branch", none⟩

section

variable {σ α : Type}

/-- The chain of a destination. -/
def Destination.open (scope : Registry α) : Destination → Action σ Chain
  | identity => return [← Action.frame identityReturn []]
  | callee ref => do return [← Action.frame (← scope.resolve ref) []]
  | chain frame outer => return frame :: outer
  | unfit type => throw (.mistyped (.notDestination type))

/-- A frame in front of a chain. The callee is found before the state is looked at. -/
def resumption (scope : Registry α) (ref : CalleeRef) (state : Except Failure (List Argument))
    (outer : Chain) : Action σ Chain := do
  let callee ← scope.resolve ref
  let state ← state
  return (← Action.frame callee (← distinct state)) :: outer

/-- A call of a callee whose outputs go to a destination. -/
def call (scope : Registry α) (target : CalleeRef) (args : Except Failure (List Argument))
    (returnsTo : Destination) : Action σ Value := do
  let target ← scope.resolve target
  let chain ← returnsTo.open scope
  callFor target chain args

/-- Calls a predicate on tokens and goes on with one of two steps. -/
def branch (scope : Registry α) (condition : CalleeRef) (input : List Token)
    (onTrue onFalse : Value) : Action σ Value := do
  let frame ← Action.frame branchReturn [⟨"true", onTrue⟩, ⟨"false", onFalse⟩]
  call scope condition (.ok [.ofTokens "input" input]) (.chain frame [])

end

/-- The token sequence that stands for a truth value. -/
def boolean (b : Bool) : List Token := [.leaf .ident (if b then "true" else "false") none]

/-- The failure of a callee none of whose rules takes arguments of this shape. -/
def noRules (callee : String) (args : List Argument) : Failure :=
  .breach (.noRules (shape args)) (some callee)

end Expander
