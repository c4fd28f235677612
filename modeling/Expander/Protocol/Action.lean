import Expander.Failure
import Expander.Protocol.Event

/-!
# Actions

What running a callee may do: make a frame with a number that no frame had before, report an event,
use a memory of a type that the callees choose, and fail. A failure keeps the world as it was when
it arose, so events that were reported before stay reported.
-/

set_option autoImplicit false

namespace Expander

structure World (σ : Type) where
  nextFrame : Nat
  /-- The events so far, last first. -/
  events : List Event
  memory : σ

/-- The world before anything has happened. -/
def World.initial {σ : Type} (memory : σ) : World σ := ⟨1, [], memory⟩

/-- The events so far, in order. -/
def World.log {σ : Type} (w : World σ) : List Event := w.events.reverse

abbrev Action (σ α : Type) := ExceptT Failure (StateM (World σ)) α

/-- What a callee does with its callers and its arguments. -/
abbrev Handler (σ : Type) := Chain → List Argument → Action σ Value

namespace Action

variable {σ α : Type}

def note (e : Event) : Action σ Unit :=
  modify fun w ↦ { w with events := e :: w.events }

/-- A frame of its own number. -/
def frame (callee : Callee) (state : List Argument) : Action σ Frame := do
  let id ← modifyGet fun w : World σ ↦ (w.nextFrame, { w with nextFrame := w.nextFrame + 1 })
  return ⟨id, callee, state⟩

/-- An action that does nothing but give a result or fail. -/
def ofExcept : Except Failure α → Action σ α
  | .ok a => pure a
  | .error e => throw e

instance : MonadLift (Except Failure) (Action σ) := ⟨ofExcept⟩

/-- The outcome of an action begun in a world, and the world behind it. -/
def outcome (a : Action σ α) (w : World σ) : Except Failure α × World σ :=
  ExceptT.run a |>.run w

end Action

end Expander
