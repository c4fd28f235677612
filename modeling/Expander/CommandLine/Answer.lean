import Expander.CommandLine.Location
import Expander.CommandLine.Words
import Expander.Expansion
import Expander.Text.Utf8

/-!
# Answers to a command line

What the program prints, and how it ends. The outputs of the callee go to the debug destination and
from there to the standard output. Diagnostics and errors go to the standard error, behind the log
if it is wished for. Errors of the callees are internal errors; a limit that was reached is
reported with the settings that raise it.
-/

set_option autoImplicit false

namespace Expander.CommandLine

/-- How the program ends. -/
inductive Ending
  | exit (code : Nat)
  | usage
  | failed (failure : Failure)

structure Answer where
  ending : Ending
  stdout : String
  stderr : String

/-- An error of the command line that ends the program. -/
def errorLine (message : String) : String := "ttcall: error: " ++ message

def Answer.refused (message : String) : Answer := ⟨.exit 1, "", errorLine message ++ "\n"⟩

/-- The text of a value that is printed. -/
def printed : Value → String
  | .tokens ts => Token.renderAll ts
  | .text s => s
  | v => v.render

/-- The log as it is written to the standard error. -/
def logText (log : List Event) : String :=
  String.join (log.map fun e ↦ e.logger ++ ": " ++ e.message ++ "\n")

/-- The answer to the outcome of an expansion. -/
def Answer.ofOutcome (color : Bool) (log : String) : Except Failure Expansion → Answer
  | .ok x =>
    if x.success then ⟨.exit 0, printed x.value ++ "\n", log⟩
    else
      match x.reporter with
      | some r => ⟨.exit 1, "", log ++ r.formatAll color ++ "\n"⟩
      | none => ⟨.exit 1, "", log⟩
  | .error f@(.limit ..) =>
    ⟨.exit 1, "", log ++ errorLine (f.message ++ "; set " ++ recursionLimitVariable ++ " or " ++
      stepLimitVariable ++ " to raise it") ++ "\n"⟩
  | .error f@(.breach ..) => ⟨.exit 1, "", log ++ "ttcall: internal error: " ++ f.message ++ "\n"⟩
  | .error f => ⟨.failed f, "", log⟩

section

variable {σ : Type}

/-- Expands a source text for the command line. -/
def expandAnswer (registry : Registry (Handler σ)) (memory : σ) (env : Environment)
    (verbose : Bool) (callee file source : String) : Answer :=
  let action := expand registry (env.limits none none) callee file source
    (.callee (.callee Destinations.debugReturn))
  let (result, world) := action.outcome (.initial memory)
  .ofOutcome env.useColor (if verbose then logText world.log else "") result

/-- The answer to a request, where `contents?` gives the bytes of the file at a location. -/
def answerRequest (registry : Registry (Handler σ)) (memory : σ) (env : Environment)
    (directory : String) (contents? : String → Option (List UInt8)) : Request → Answer
  | .help => ⟨.exit 0, "usage: ttcall [-h] [--file FILE] [--verbose] callee [source]\n", ""⟩
  | .expand callee _ (some file) verbose =>
    let location := locate directory file
    if file.contains '\x00' then ⟨.failed (.unfit .nullInName), "", ""⟩
    else
      match contents? location with
      | none => .refused ("file not found: " ++ location)
      | some bytes =>
        match Text.Utf8.decode bytes with
        | .error cause => ⟨.failed (.undecodable cause), "", ""⟩
        | .ok cs =>
          expandAnswer registry memory env verbose callee location
            (String.ofList (Text.Utf8.unifyLineEnds cs))
  | .expand callee (some source) none verbose =>
    expandAnswer registry memory env verbose callee unnamedFile source
  | .expand _ none none _ => .refused "no input given"

/-- The answer to the words of a command line. -/
def answer (registry : Registry (Handler σ)) (memory : σ) (env : Environment)
    (directory : String) (contents? : String → Option (List UInt8)) (words : List String) :
    Answer :=
  match read words with
  | .ok request => answerRequest registry memory env directory contents? request
  | .error e => ⟨.usage, "", errorLine e.message⟩

end

end Expander.CommandLine
