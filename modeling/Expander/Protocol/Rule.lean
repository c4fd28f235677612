import Expander.Protocol.Call

/-!
# Rules that do not see their callers

A rule looks at nothing but its arguments and answers with a move: a call with the frames to put in
front of the callers, a tail call, or a return. What callers there are does not enter, so a rule
does the same for every caller (`Rule.handler` applies its move to the callers it is run for).
-/

set_option autoImplicit false

namespace Expander

/-- A callee to resume, with its state. -/
structure Resumption where
  callee : Callee
  state : List Argument

inductive Move
  /-- A call whose outputs go to `near`, which answers to `outer` and then to the callers. -/
  | call (target : Callee) (args : List Argument) (near : Resumption) (outer : List Resumption)
  | tail (target : Callee) (args : List Argument)
  | giveBack (outputs : List Argument)

abbrev Rule := List Argument → Except Failure Move

section

variable {σ : Type}

/-- The frames of some resumptions in front of a chain, the first of them nearest. -/
def stack (caller : Chain) : List Resumption → Action σ Chain
  | [] => return caller
  | r :: rs => do
    let outer ← stack caller rs
    return (← Action.frame r.callee r.state) :: outer

/-- The step that a move makes for its callers. -/
def Move.perform (caller : Chain) : Move → Action σ Value
  | call target args near outer => do
    let chain ← stack caller (near :: outer)
    callFor target chain (.ok args)
  | tail target args => tailCall target caller (.ok args)
  | giveBack outputs => returnTo caller (.ok outputs)

def Rule.handler (rule : Rule) : Handler σ := fun caller args ↦ do
  let move ← rule args
  move.perform caller

end

/-! ### Values as token sequences -/

/-- The name that a value's type goes by in messages. -/
def Value.typeName : Value → String
  | tokens _ => "TokenSequence"
  | text _ => "str"
  | nothing => "NoneType"
  | outputs _ => "list"
  | pending _ => "Invocation"

/-- The tokens that a value adds to a sequence. A text adds its characters, and a value that holds
neither tokens nor characters cannot be added. -/
def Value.tokens? : Value → Except Failure (List Token)
  | tokens ts => .ok ts
  | text s => .ok (s.toList.map fun c ↦ .leaf .character (String.singleton c) none)
  | v => .error (.mistyped (.notIterable v.typeName))

/-- The tokens of a value that is to be cut. -/
def Value.cuttable? : Value → Except Failure (List Token)
  | tokens ts => .ok ts
  | text s => (text s).tokens?
  | v => .error (.mistyped (.notSubscriptable v.typeName))

/-- How many tokens or characters a value holds. -/
def Value.length? : Value → Except Failure Nat
  | tokens ts => .ok ts.length
  | text s => .ok s.length
  | v => .error (.mistyped (.notSized v.typeName))

/-- Whether a value holds nothing: no tokens, no characters, or nothing at all. -/
def Value.isVacant : Value → Bool
  | tokens ts => ts.isEmpty
  | text s => s = ""
  | nothing => true
  | _ => false

/-- The tokens of a value that may also be nothing at all. -/
def Value.tokensOrNone? (v : Value) : Except Failure (List Token) :=
  if v.isVacant then .ok [] else v.tokens?

/-- The fault at the last token of a value. What has no length has no last token to look for. -/
def Value.atLast : Value → Failure
  | nothing => .atLast []
  | v =>
    match v.tokens? with
    | .ok ts => .atLast ts
    | .error _ => .mistyped (.notSized v.typeName)

end Expander
