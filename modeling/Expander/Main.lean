import Expander.CommandLine.Answer

/-!
# The program

Gives the command line, the environment and the files to the library, and prints its answer.
-/

set_option autoImplicit false

namespace Expander.CommandLine

/-- The bytes of the file that a request names, if they can be read. -/
def readNamed (directory : String) (words : List String) : IO (Option (List UInt8)) := do
  match read words with
  | .ok (.expand _ _ (some file) _) =>
    try
      return some (← IO.FS.readBinFile (locate directory file)).toList
    catch _ => return none
  | _ => return none

/-- Answers a command line and gives the code to end with. -/
def runWords (words : List String) : IO UInt32 := do
  let env : Environment :=
    ⟨← IO.getEnv "NO_COLOR", ← IO.getEnv "TTCALL_COLOR", ← IO.getEnv recursionLimitVariable,
      ← IO.getEnv stepLimitVariable⟩
  let directory := (← IO.currentDir).toString
  let contents ← readNamed directory words
  let result := answer Registry.standard () env directory (fun _ ↦ contents) words
  (← IO.getStdout).putStr result.stdout
  (← IO.getStderr).putStr result.stderr
  match result.ending with
  | .exit code => return code.toUInt32
  | .usage =>
    IO.eprintln ""
    return 2
  | .failed failure =>
    IO.eprintln failure.message
    return 1

end Expander.CommandLine

def main (words : List String) : IO UInt32 := Expander.CommandLine.runWords words
