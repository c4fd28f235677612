import Expander.Protocol.Machine

/-!
# Outcomes of actions

What an action gives and what world it leaves, one equation for each way in which an action is put
together (`Action.outcome_bind` and its companions), and from them what one step of the machine
comes to. A step is refused by the ledger, is too deep, fails in its callee, goes on with the next
invocation, or ends the run; `Machine.outcome_runFrom_succ` says which, and nothing later looks into
the machine's own text.
-/

set_option autoImplicit false

namespace Expander

variable {σ α β : Type}

namespace Action

@[simp] theorem outcome_pure (a : α) (w : World σ) :
    (pure a : Action σ α).outcome w = (.ok a, w) := rfl

@[simp] theorem outcome_throw (f : Failure) (w : World σ) :
    (throw f : Action σ α).outcome w = (.error f, w) := rfl

/-- A failure of the first action is that of both, in the world in which it arose. -/
theorem outcome_bind (a : Action σ α) (next : α → Action σ β) (w : World σ) :
    (a >>= next).outcome w =
      match a.outcome w with
      | (.ok x, w') => (next x).outcome w'
      | (.error f, w') => (.error f, w') := by
  simp only [outcome, ExceptT.run_bind, StateT.run_bind]
  cases h : (ExceptT.run a).run w with
  | mk result w' => cases result <;> rfl

/-- A note is added to the log, and nothing else changes. -/
@[simp] theorem outcome_note (e : Event) (w : World σ) :
    (note e).outcome w = (.ok (), { w with events := e :: w.events }) := rfl

/-- A frame is given the next number, and the number is used up. -/
@[simp] theorem outcome_frame (callee : Callee) (state : List Argument) (w : World σ) :
    (frame callee state).outcome w =
      (.ok ⟨w.nextFrame, callee, state⟩, { w with nextFrame := w.nextFrame + 1 }) := rfl

/-- A computation that does nothing to a world comes to what it comes to. -/
@[simp] theorem outcome_lift (x : Except Failure α) (w : World σ) :
    (liftM x : Action σ α).outcome w = (x, w) := by
  cases x <;> rfl

/-- A handler of failures takes over in the world that the failure left. -/
theorem outcome_tryCatch (a : Action σ α) (handle : Failure → Action σ α) (w : World σ) :
    (tryCatch a handle).outcome w =
      match a.outcome w with
      | (.ok x, w') => (.ok x, w')
      | (.error f, w') => (handle f).outcome w' := by
  change (ExceptT.run (ExceptT.tryCatch a handle)).run w = _
  simp only [ExceptT.tryCatch, ExceptT.run, ExceptT.mk, outcome, StateT.run_bind]
  cases h : StateT.run (m := Id) (ExceptT.run a) w with
  | mk result w' => cases result <;> simp_all [ExceptT.run] <;> rfl

end Action

/-! ### One step of the machine -/

/-- A value that is no pending invocation. -/
def Value.IsFinal (value : Value) : Prop := ∀ i, value ≠ .pending i

theorem Value.isFinal_or_pending (value : Value) : value.IsFinal ∨ ∃ i, value = .pending i := by
  cases value with
  | pending i => exact .inr ⟨i, rfl⟩
  | _ => exact .inl nofun

namespace Machine

/-- The world in which the callee of a step is run. -/
def announced (w : World σ) (taken : Nat) (i : Invocation) : World σ :=
  { w with events := .step (taken + 1) i.callee.name (shape i.args) i.caller.length :: w.events }

/-- What the machine does with what a callee gave back. -/
def proceed (handler : Callee → Handler σ) (limits : Limits) (left taken : Nat) (ledger : Ledger)
    (i : Invocation) : Value → Action σ Value
  | .pending next => runFrom handler limits left (taken + 1) ledger next
  | value =>
    if i.caller.isEmpty then finish ledger (taken + 1) value
    else throw (.breach .finishedEarly (some i.callee.name))

variable {handler : Callee → Handler σ} {limits : Limits} {left taken : Nat}
  {ledger : Ledger} {i : Invocation} {w : World σ}

/-- With no step left, the machine fails before it makes the call. -/
@[simp] theorem outcome_runFrom_zero :
    (runFrom handler limits 0 taken ledger i).outcome w =
      (.error (.limit .steps limits.steps i.callee.name), w) := rfl

/-- The ledger is asked first, the depth second, and the callee is run only if both agree. -/
theorem outcome_runFrom_succ :
    (runFrom handler limits (left + 1) taken ledger i).outcome w =
      match ledger.enter i with
      | .error f => (.error f, w)
      | .ok entered =>
        if limits.recursion < i.caller.length then
          (.error (.limit .recursion limits.recursion i.callee.name), w)
        else
          match (handler i.callee i.caller i.args).outcome (announced w taken i) with
          | (.error f, w') => (.error f, w')
          | (.ok value, w') => (proceed handler limits left taken entered i value).outcome w' := by
  rw [runFrom]
  simp only [Action.outcome_bind, Action.outcome_lift, Action.outcome_note]
  cases ledger.enter i with
  | error f => rfl
  | ok entered =>
    by_cases hdeep : limits.recursion < i.caller.length
    · simp only [checkDepth, if_pos hdeep]
    · simp only [checkDepth, if_neg hdeep, announced]
      split
      · next value _ heq =>
        rw [heq]
        cases value <;> rfl
      · next heq => rw [heq]

/-- A call that is left to be made is the next step. -/
@[simp] theorem proceed_pending (next : Invocation) :
    proceed handler limits left taken ledger i (.pending next) =
      runFrom handler limits left (taken + 1) ledger next := rfl

/-- A value ends the run, unless a caller waits for outputs. -/
theorem proceed_final {value : Value} (h : value.IsFinal) :
    proceed handler limits left taken ledger i value =
      if i.caller.isEmpty then finish ledger (taken + 1) value
      else throw (.breach .finishedEarly (some i.callee.name)) := by
  cases value with
  | pending next => exact absurd rfl (h next)
  | _ => rfl

/-- At the end the value stands if the ledger closes. -/
theorem outcome_finish {n : Nat} {value : Value} :
    ((finish ledger n value).outcome w).1 = ledger.close.map fun _ ↦ value := by
  rw [finish]
  simp only [Action.outcome_bind, Action.outcome_lift]
  cases ledger.close <;> rfl

end Machine

end Expander
