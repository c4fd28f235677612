import Expander.Protocol.Call

/-!
# Traces

The steps of an invocation one by one, without the machine: what is run, with which arguments, for
which callers, and what the step resumes. Nothing holds the callees to the discipline of frames
here, so a trace may be longer than a run.
-/

set_option autoImplicit false

namespace Expander

/-- What a trace shows of a step: its callee, its arguments, the callers with the names of their
state from the nearest outwards, and the callee that it resumes if it is a return. -/
structure TraceRow where
  callee : String
  args : List String
  chain : List (String × List String)
  fires : Option String
deriving DecidableEq, Repr

def TraceRow.ofInvocation (i : Invocation) : TraceRow :=
  ⟨i.callee.name, i.args.map Argument.text,
   i.caller.map fun f ↦ (f.callee.name, shape f.state), i.fires.map (·.callee.name)⟩

/-- How a trace ends: with a value, before its next step, or with a failure. -/
inductive TraceEnd
  | value (value : Value)
  | stopped
  | failed (failure : Failure)

/-- The steps of a value, `left` of them at most. A step that fails is shown too. -/
def trace {σ : Type} (handler : Callee → Handler σ) :
    (left : Nat) → Value → StateM (World σ) (List TraceRow × TraceEnd)
  | 0, .pending _ => return ([], .stopped)
  | left + 1, .pending i => do
    let row := TraceRow.ofInvocation i
    match ← ExceptT.run (handler i.callee i.caller i.args) with
    | .ok next =>
      let (rows, last) ← trace handler left next
      return (row :: rows, last)
    | .error failure => return ([row], .failed failure)
  | _, value => return ([], .value value)

end Expander
