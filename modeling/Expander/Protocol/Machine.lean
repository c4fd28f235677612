import Std.Data.TreeMap.Basic
import Std.Data.TreeSet.Basic
import Expander.Protocol.Call

/-!
# The machine

The machine takes steps until one gives a final value: it runs the callee of an invocation and goes
on with what the callee gives back. It holds the callees to the discipline of frames. A frame is
resumed at most once; a chain has no frame that was resumed before; a callee that answers to a
chain gives back an invocation and not a value; and every frame that has been in the chain of a step
has been resumed when the machine stops. Two bounds hold the depth of chains and the number of
steps.

The discipline is kept by a `Ledger` of the frames that were resumed and of those that wait to be.
-/

set_option autoImplicit false

namespace Expander

/-- The bounds of a run. -/
structure Limits where
  recursion : Int
  steps : Int
deriving DecidableEq, Repr

structure Ledger where
  /-- The numbers of the frames that were resumed. -/
  fired : Std.TreeSet Nat
  /-- The frames that have been in a chain and were not resumed since, by their numbers. -/
  live : Std.TreeMap Nat Frame

namespace Ledger

def empty : Ledger := ⟨∅, ∅⟩

/-- Enters that a frame is resumed. -/
def fire (l : Ledger) (f : Frame) : Except Failure Ledger :=
  if l.fired.contains f.id then .error (.breach .firedTwice (some f.callee.name))
  else .ok ⟨l.fired.insert f.id, l.live.erase f.id⟩

/-- Enters that a frame is in a chain. -/
def watch (l : Ledger) (f : Frame) : Except Failure Ledger :=
  if l.fired.contains f.id then .error (.breach .usedAfterFired (some f.callee.name))
  else .ok { l with live := l.live.insertIfNew f.id f }

/-- Enters a step: what it resumes, then its chain from the nearest frame on. -/
def enter (l : Ledger) (i : Invocation) : Except Failure Ledger := do
  let l ← match i.fires with
    | some f => l.fire f
    | none => pure l
  i.caller.foldlM watch l

/-- Fails if a frame still waits to be resumed. -/
def close (l : Ledger) : Except Failure Unit :=
  if l.live.isEmpty then .ok ()
  else .error (.breach (.neverFired (sortedNames (l.live.values.map (·.callee.name)))) none)

end Ledger

namespace Machine

variable {σ : Type}

/-- Ends a run with a value. -/
def finish (ledger : Ledger) (steps : Nat) (value : Value) : Action σ Value := do
  ledger.close
  Action.note (.finished steps)
  return value

/-- Fails if a chain is deeper than a run allows. -/
def checkDepth (limits : Limits) (i : Invocation) : Except Failure Unit :=
  if limits.recursion < i.caller.length then
    .error (.limit .recursion limits.recursion i.callee.name)
  else .ok ()

/-- Takes the step of an invocation after `taken` steps, and those that follow it, `left` steps at
most. -/
def runFrom (handler : Callee → Handler σ) (limits : Limits) :
    (left : Nat) → (taken : Nat) → Ledger → Invocation → Action σ Value
  | 0, _, _, i => throw (.limit .steps limits.steps i.callee.name)
  | left + 1, taken, ledger, i => do
    let ledger ← ledger.enter i
    checkDepth limits i
    Action.note (.step (taken + 1) i.callee.name (shape i.args) i.caller.length)
    match ← handler i.callee i.caller i.args with
    | .pending next => runFrom handler limits left (taken + 1) ledger next
    | value =>
      if i.caller.isEmpty then finish ledger (taken + 1) value
      else throw (.breach .finishedEarly (some i.callee.name))

/-- Runs a step to its final value. -/
def run (handler : Callee → Handler σ) (limits : Limits) : Value → Action σ Value
  | .pending i => runFrom handler limits limits.steps.toNat 0 .empty i
  | value => finish .empty 0 value

end Machine

end Expander
