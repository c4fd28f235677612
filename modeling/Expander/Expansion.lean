import Expander.Callees.Standard
import Expander.Settings

/-!
# Expansions

An expansion calls one callee with the tokens of a source text as its `input` and runs the call to
its end. What is wrong with the tokens, be it found by the lexer or by a callee, becomes a
diagnostic of the result. Every other failure is an error of the callees or of the settings and is
a failure of the expansion itself.
-/

set_option autoImplicit false

namespace Expander

/-- The file that a text without a file counts as. -/
def unnamedFile : String := "<input>"

structure Expansion where
  value : Value
  reporter : Option Reporter
  success : Bool

namespace Expansion

def failed (r : Reporter) : Expansion := ⟨.nothing, some r, false⟩

def succeeded (value : Value) (r : Reporter) : Expansion := ⟨value, some r, true⟩

def hasErrors (x : Expansion) : Bool :=
  match x.reporter with
  | some r => r.hasErrors
  | none => !x.success

/-- The text of all diagnostics, if there are any. -/
def errors (x : Expansion) : List String :=
  match x.reporter with
  | some r => if r.hasErrors then [r.formatAll false] else []
  | none => []

end Expansion

variable {σ : Type}

/-- The token trees of a text, with the event that they were made. -/
def lexing (file source : String) : Action σ (List Token) :=
  match lex file source with
  | .error e => throw (.unlexable e)
  | .ok ts => do
    Action.note (.lexed ts.length file)
    return ts

/-- Calls a callee with tokens as its input, and runs the call to its end. -/
def runCall (registry : Registry (Handler σ)) (limits : Limits) (callee : String)
    (input : List Token) (returnsTo : Destination) : Action σ Value := do
  let step ← call registry (.name callee) (.ok [.ofTokens "input" input]) returnsTo
  Machine.run registry.handler limits step

/-- Expands a callee on tokens, with the sources that a reporter knows. -/
def expandTokens (registry : Registry (Handler σ)) (limits : Except Failure Limits)
    (reporter : Reporter) (callee : String) (input : List Token) (returnsTo : Destination) :
    Action σ Expansion := do
  let limits ← limits
  tryCatch (do return .succeeded (← runCall registry limits callee input returnsTo) reporter)
    fun failure ↦
      match failure with
      | .fault f => do
        Action.note (.expansionFailed callee f.message)
        return .failed (reporter.report f.diagnostic)
      | other => throw other

/-- Expands a callee on a source text. -/
def expand (registry : Registry (Handler σ)) (limits : Except Failure Limits)
    (callee file source : String) (returnsTo : Destination) : Action σ Expansion := do
  let reporter := Reporter.ofSources [(file, source)]
  Action.note (.expanding callee file)
  match lex file source with
  | .error e => do
    Action.note (.lexingFailed e.cause.message)
    return .failed (reporter.report e.diagnostic)
  | .ok input => do
    Action.note (.lexed input.length file)
    expandTokens registry limits reporter callee input returnsTo

end Expander
