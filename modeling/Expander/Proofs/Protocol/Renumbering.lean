import Expander.Proofs.Protocol.Blindness

/-!
# Frames of other numbers

The number of a frame tells it from other frames and says nothing else. So a run may number its
frames in another way, as long as their order is kept (`Value.renumber`); what was made before stays
as it is if its numbers do (`Value.recast_of_below`).

A callee that depends on nothing but its callers and its arguments does not read the log or the
memory, and the number that the next frame is given is nothing to it. So it does the same for
callers and arguments whose frames have other numbers, and its result has these numbers
(`Handler.Uniform`). Blind callees are such (`Handler.Blind.uniform`). Runs of such callees that are
alike but for the numbers come to the same, and only the message of a step limit tells how many
steps there were in all (`Machine.Stage.Recasts.alikeOutcome`).
-/

set_option autoImplicit false

namespace Expander

variable {σ α β : Type}

/-! ### Values -/

/-- A value whose frames have the numbers that `ρ` gives them. -/
abbrev Value.renumber (ρ : Nat → Nat) : Value → Value := Value.recast (.numbering ρ)

abbrev Argument.renumber (ρ : Nat → Nat) : Argument → Argument := Argument.recast (.numbering ρ)

abbrev Frame.renumber (ρ : Nat → Nat) : Frame → Frame := Frame.recast (.numbering ρ)

abbrev Invocation.renumber (ρ : Nat → Nat) : Invocation → Invocation :=
  Invocation.recast (.numbering ρ)

mutual

/-- All frames of a value were made before the frame of a number. -/
def Value.Below (n : Nat) : Value → Prop
  | .outputs args => Argument.AllBelow n args
  | .pending i => i.Below n
  | .tokens _ | .text _ | .nothing => True

def Argument.Below (n : Nat) : Argument → Prop
  | ⟨_, value⟩ => value.Below n

def Argument.AllBelow (n : Nat) : List Argument → Prop
  | [] => True
  | a :: args => a.Below n ∧ Argument.AllBelow n args

def Frame.Below (n : Nat) : Frame → Prop
  | ⟨id, _, state⟩ => id < n ∧ Argument.AllBelow n state

def Frame.AllBelow (n : Nat) : List Frame → Prop
  | [] => True
  | f :: chain => f.Below n ∧ Frame.AllBelow n chain

def Frame.OptionBelow (n : Nat) : Option Frame → Prop
  | none => True
  | some f => f.Below n

def Invocation.Below (n : Nat) : Invocation → Prop
  | ⟨_, caller, args, fires⟩ =>
    Frame.AllBelow n caller ∧ Argument.AllBelow n args ∧ Frame.OptionBelow n fires

end

mutual

/-- Numbers that stay change nothing in a value that was made before all others. -/
theorem Value.recast_of_below {ρ : Nat → Nat} {n : Nat} (hρ : ∀ k < n, ρ k = k) :
    (v : Value) → v.Below n → v.recast (.numbering ρ) = v
  | .tokens ts, _ => (Value.recast_tokens ts).trans (congrArg Value.tokens (List.map_id ts))
  | .text _, _ | .nothing, _ => by rw [Value.recast]
  | .outputs args, h => by
    rw [Value.recast, Argument.recastAll_of_below hρ args h]
  | .pending i, h => by
    rw [Value.recast, Invocation.recast_of_below hρ i h]

/-- The same for an argument, and below for all that values are made of. -/
theorem Argument.recast_of_below {ρ : Nat → Nat} {n : Nat} (hρ : ∀ k < n, ρ k = k) :
    (a : Argument) → a.Below n → a.recast (.numbering ρ) = a
  | ⟨_, value⟩, h => by
    rw [Argument.recast, Value.recast_of_below hρ value h]

theorem Argument.recastAll_of_below {ρ : Nat → Nat} {n : Nat} (hρ : ∀ k < n, ρ k = k) :
    (args : List Argument) → Argument.AllBelow n args →
      Argument.recastAll (.numbering ρ) args = args
  | [], _ => by rw [Argument.recastAll]
  | a :: args, h => by
    rw [Argument.recastAll, Argument.recast_of_below hρ a h.1,
      Argument.recastAll_of_below hρ args h.2]

theorem Frame.recast_of_below {ρ : Nat → Nat} {n : Nat} (hρ : ∀ k < n, ρ k = k) :
    (f : Frame) → f.Below n → f.recast (.numbering ρ) = f
  | ⟨id, _, state⟩, h => by
    have hid : (Recasting.numbering ρ).number id = id := hρ id h.1
    rw [Frame.recast, hid, Argument.recastAll_of_below hρ state h.2]

theorem Frame.recastAll_of_below {ρ : Nat → Nat} {n : Nat} (hρ : ∀ k < n, ρ k = k) :
    (chain : List Frame) → Frame.AllBelow n chain → Frame.recastAll (.numbering ρ) chain = chain
  | [], _ => by rw [Frame.recastAll]
  | f :: chain, h => by
    rw [Frame.recastAll, Frame.recast_of_below hρ f h.1, Frame.recastAll_of_below hρ chain h.2]

theorem Frame.recastOption_of_below {ρ : Nat → Nat} {n : Nat} (hρ : ∀ k < n, ρ k = k) :
    (fires : Option Frame) → Frame.OptionBelow n fires →
      Frame.recastOption (.numbering ρ) fires = fires
  | none, _ => by rw [Frame.recastOption]
  | some f, h => by rw [Frame.recastOption, Frame.recast_of_below hρ f h]

theorem Invocation.recast_of_below {ρ : Nat → Nat} {n : Nat} (hρ : ∀ k < n, ρ k = k) :
    (i : Invocation) → i.Below n → i.recast (.numbering ρ) = i
  | ⟨_, caller, args, fires⟩, h => by
    rw [Invocation.recast, Frame.recastAll_of_below hρ caller h.1,
      Argument.recastAll_of_below hρ args h.2.1, Frame.recastOption_of_below hρ fires h.2.2]

end

/-! ### Callees -/

/-- An action that gives what another one gives, under other numbers and as `f` makes it. -/
def Action.Renumbers (ρ : Nat → Nat) (f : α → β) (a : Action σ α) (b : Action σ β) : Prop :=
  ∀ w w' : World σ, w.Renumbers ρ w' →
    (b.outcome w').1 = (a.outcome w).1.map f ∧ (a.outcome w).2.Renumbers ρ (b.outcome w').2

/-- A callee that depends on nothing but its callers and arguments, whatever numbers their frames
have. -/
def Handler.Uniform (handler : Handler σ) : Prop :=
  ∀ ρ : Nat → Nat, StrictMono ρ → ∀ (caller : Chain) (args : List Argument),
    Action.Renumbers ρ (Value.renumber ρ) (handler caller args)
      (handler (caller.map (Frame.renumber ρ)) (args.map (Argument.renumber ρ)))

section

variable {ρ : Nat → Nat}

/-- A failure has no number of a frame in it. -/
@[simp] theorem Failure.recast_numbering (f : Failure) : f.recast (.numbering ρ) = f := by
  rcases f with _ | (_ | _) | _ <;> rfl

/-- So to number anew changes a result only where there is one. -/
@[simp] theorem Recasting.result_numbering (f : α → β) (x : Except Failure α) :
    (numbering ρ).result f x = x.map f := by
  cases x with
  | error e => exact congrArg Except.error e.recast_numbering
  | ok a => rfl

/-- To do the same with other numbers is one case of doing the same with what is recast. -/
theorem Action.renumbers_iff_recasts {f : α → β} {a : Action σ α} {b : Action σ β} :
    a.Renumbers ρ f b ↔ a.Recasts (.numbering ρ) f b := by
  unfold Action.Renumbers Action.Recasts
  simp only [Recasting.result_numbering]
  exact Iff.rfl

/-- A uniform callee, as one that recasts. -/
theorem Handler.Uniform.recasts {handler : Handler σ} (h : handler.Uniform) (hρ : StrictMono ρ) :
    handler.Recasts (.numbering ρ) :=
  fun caller args ↦ Action.renumbers_iff_recasts.mp (h ρ hρ caller args)

/-- A callee that sees neither places nor the numbers of frames depends on nothing but its callers
and arguments. -/
theorem Handler.Blind.uniform {handler : Handler σ} (h : handler.Blind) : handler.Uniform :=
  fun ρ _ caller args ↦ Action.renumbers_iff_recasts.mpr (h (.numbering ρ) caller args)

end

/-! ### Runs -/

namespace Machine

/-- Outcomes that are the same but for the numbers of frames and for the number of steps that the
message of a step limit quotes. -/
inductive AlikeOutcome (ρ : Nat → Nat) (steps steps' : Int) :
    Except Failure Value → Except Failure Value → Prop
  | same (result : Except Failure Value) :
      AlikeOutcome ρ steps steps' result (result.map (Value.renumber ρ))
  | stopped (callee : String) : AlikeOutcome ρ steps steps' (.error (.limit .steps steps callee))
      (.error (.limit .steps steps' callee))

/-- Under limits that allow as many steps to come, runs that are alike but for the numbers of frames
come to the same. -/
theorem Stage.Recasts.alikeOutcome {ρ : Nat → Nat} {handler : Callee → Handler σ} {s s' : Stage σ}
    (h : s.Recasts (.numbering ρ) s') (hρ : StrictMono ρ) (hhandler : ∀ c, (handler c).Uniform)
    (recursion steps steps' : Int) (left : Nat) :
    AlikeOutcome ρ steps steps' (s.run handler ⟨recursion, steps⟩ left).1
      (s'.run handler ⟨recursion, steps'⟩ left).1 := by
  rcases h.run hρ (fun c ↦ (hhandler c).recasts hρ) recursion steps steps' left with
    heq | ⟨callee, hstopped, hstopped'⟩
  · rw [heq, Recasting.result_numbering]
    exact .same _
  · rw [hstopped, hstopped']
    exact .stopped callee

end Machine

end Expander
