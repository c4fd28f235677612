import Expander.Protocol.Machine
import Expander.Text.Numeral

/-!
# Settings

What the environment decides: whether diagnostics are coloured, and the limits of an expansion that
is not given any. A limit that is blank counts as not set; any other has to be a positive whole
number.
-/

set_option autoImplicit false

namespace Expander

/-- The variables of the environment that are looked at, where they are set. -/
structure Environment where
  noColor : Option String
  color : Option String
  recursionLimit : Option String
  stepLimit : Option String
deriving DecidableEq, Repr

def defaultRecursionLimit : Int := 128

def defaultStepLimit : Int := 100000

def recursionLimitVariable : String := "TTCALL_RECURSION_LIMIT"

def stepLimitVariable : String := "TTCALL_STEP_LIMIT"

/-- The words that turn colour off. -/
def colorOffWords : List String := ["0", "false", "no", "never"]

/-- The limit that the text of a variable sets. -/
def readLimit (setting : String) (text : Option String) (default : Int) : Except Failure Int :=
  match Text.strip (text.getD "").toList with
  | [] => .ok default
  | cs =>
    match Text.Numeral.read? cs with
    | none => .error (.unfit (.notInteger setting (String.ofList cs)))
    | some n => if n ≤ 0 then .error (.unfit (.notPositive setting n)) else .ok n

namespace Environment

/-- Colour is on unless `noColor` is set to something or `color` to a word that turns it off. -/
def useColor (env : Environment) : Bool :=
  if (env.noColor.getD "") ≠ "" then false
  else !colorOffWords.contains (env.color.getD "").toLower

def recursionLimit? (env : Environment) : Except Failure Int :=
  readLimit recursionLimitVariable env.recursionLimit defaultRecursionLimit

def stepLimit? (env : Environment) : Except Failure Int :=
  readLimit stepLimitVariable env.stepLimit defaultStepLimit

/-- The limits that are given, and for those that are not the limits of the environment, which is
asked for the depth first. -/
def limits (env : Environment) (recursion steps : Option Int) : Except Failure Limits := do
  let recursion ← match recursion with
    | some n => pure n
    | none => env.recursionLimit?
  let steps ← match steps with
    | some n => pure n
    | none => env.stepLimit?
  return ⟨recursion, steps⟩

end Environment

end Expander
