import Expander.Protocol.Rule

/-!
# Destinations

The callees to which outputs are returned in the end. The identity gives back the only output, or
the first of two if the second is a `rest` that holds nothing, and is a fault at the first token of
any other rest. The branch gives back the step that a predicate's answer chooses. The debug
destination shows every output on a line of its own, and the capture keeps all outputs as they are.
None of them looks at its callers.
-/

set_option autoImplicit false

namespace Expander.Destinations

variable {σ : Type}

/-- The value of an identity return. -/
def identity : List Argument → Except Failure Value
  | [⟨_, value⟩] => .ok value
  | args@([⟨_, value⟩, ⟨name, rest⟩]) =>
    if name = "rest" then
      if rest.isVacant then .ok value
      else do throw (.atFirst (← rest.tokens?))
    else .error (noRules identityReturn.name args)
  | args => .error (noRules identityReturn.name args)

/-- Whether a value is the tokens of a truth value. -/
def isBoolean (b : Bool) : Value → Bool
  | .tokens ts => Token.sameAll ts (boolean b)
  | _ => false

/-- The step that a predicate's only output chooses. -/
def chosen : List Argument → Except Failure Value
  | [⟨"true", onTrue⟩, ⟨"false", onFalse⟩, ⟨_, answer⟩] =>
    if isBoolean true answer then .ok onTrue
    else if isBoolean false answer then .ok onFalse
    else .error (.breach .notOneBoolean (some branchReturn.name))
  | _ => .error (.breach .notOneBoolean (some branchReturn.name))

def debugReturn : Callee := ⟨"tt_debug", none⟩

/-- Reports each argument and gives all of them as a text of lines. -/
def debug : Handler σ := fun _ args ↦ do
  let lines := args.map Argument.text
  lines.forM fun line ↦ Action.note (.shown line)
  return .text (String.intercalate "\n" lines)

/-- Keeps all arguments. -/
def capture : Handler σ := fun _ args ↦ return .outputs args

/-- The destinations that every expansion has. -/
def all : List (Callee × Handler σ) :=
  [(identityReturn, fun _ args ↦ identity args),
   (branchReturn, fun _ args ↦ chosen args),
   (debugReturn, debug)]

end Expander.Destinations
