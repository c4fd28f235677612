import Expander.Protocol.Value

/-!
# Events

What an expansion reports while it goes on. An event is written to a log under the name of the part
that reports it, with a level and a message.
-/

set_option autoImplicit false

namespace Expander

inductive Level
  | debug
  | info
deriving DecidableEq, Repr

def Level.name : Level → String
  | debug => "DEBUG"
  | info => "INFO"

inductive Event
  | expanding (callee file : String)
  | lexed (count : Nat) (file : String)
  | lexingFailed (message : String)
  | expansionFailed (callee message : String)
  | registered (name : String)
  | step (number : Nat) (callee : String) (shape : List String) (depth : Nat)
  | finished (steps : Nat)
  | shown (line : String)
deriving DecidableEq, Repr

namespace Event

def level : Event → Level
  | shown _ => .info
  | _ => .debug

/-- The log to which an event goes. -/
def logger : Event → String
  | expanding .. | lexingFailed _ | expansionFailed .. => "ttcall.compiler.driver"
  | lexed .. => "ttcall.frontend.lexer"
  | registered _ => "ttcall.runtime.registry"
  | step .. | finished _ => "ttcall.runtime.interpreter"
  | shown _ => "ttcall.runtime.debug"

def message : Event → String
  | expanding callee file => "expanding " ++ callee ++ " on " ++ file
  | lexed count file => "lexed " ++ toString count ++ " top-level token trees from " ++ file
  | lexingFailed message => "lexing failed: " ++ message
  | expansionFailed callee message => "expansion of " ++ callee ++ " failed: " ++ message
  | registered name => "registered callee " ++ name
  | step number callee shape depth =>
    "step " ++ toString number ++ ": " ++ callee ++ " " ++ shapeText shape ++ " depth=" ++
      toString depth
  | finished steps => "expansion finished after " ++ toString steps ++ " steps"
  | shown line => line

end Event

end Expander
