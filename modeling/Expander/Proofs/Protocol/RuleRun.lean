import Expander.Expansion
import Expander.Proofs.Protocol.Course

/-!
# Runs of rules

A run does what the evaluation of rules says. Without limits it goes through steps of the depths of
the evaluation, to its end with the failure or with what the destination makes of the outputs
(`call_goes`). With limits it ends so if the steps fit into them; otherwise it reaches one of the
limits, and it is known which one (`runCall_of_goes`).

The course of the run without limits is known (`Evaluates.courses`), and a run with limits breaks
off where one of its steps is refused (`Machine.Stage.Goes.limited`).
-/

set_option autoImplicit false

namespace Expander

variable {σ : Type}

namespace Machine

/-! ### Steps within the limits -/

/-- Steps at some depths, below a chain of a length, that reach neither limit. -/
structure Fits (limits : Limits) (left depth : Nat) (ds : List Nat) : Prop where
  length_le : ds.length ≤ left
  depth_le : ∀ d ∈ ds, ((depth + d : Nat) : Int) ≤ limits.recursion

/-- The failure of steps that reach a limit, by the limit they reach. -/
def Exceeds (limits : Limits) (left depth : Nat) (ds : List Nat) (f : Failure) : Prop :=
  (left < ds.length ∧ ∃ callee, f = .limit .steps limits.steps callee) ∨
    ((∃ d ∈ ds, limits.recursion < ((depth + d : Nat) : Int)) ∧
      ∃ callee, f = .limit .recursion limits.recursion callee)

variable {handler : Callee → Handler σ} {limits : Limits} {left depth d : Nat} {ds : List Nat}

/-- Steps fit if the first is not too deep, and the others fit in what is left. -/
theorem fits_cons : Fits limits (left + 1) depth (d :: ds) ↔
    ((depth + d : Nat) : Int) ≤ limits.recursion ∧ Fits limits left depth ds := by
  constructor
  · intro h
    exact ⟨h.depth_le d List.mem_cons_self, Nat.le_of_succ_le_succ h.length_le,
      fun d' hd' ↦ h.depth_le d' (List.mem_cons_of_mem d hd')⟩
  · rintro ⟨hd, h⟩
    exact ⟨Nat.succ_le_succ h.length_le, List.forall_mem_cons.mpr ⟨hd, h.depth_le⟩⟩

/-- Where later steps exceed a limit, all do. -/
theorem Exceeds.cons {f : Failure} (h : Exceeds limits left depth ds f) :
    Exceeds limits (left + 1) depth (d :: ds) f := by
  rcases h with ⟨hlength, hf⟩ | ⟨⟨d', hd', hdeep⟩, hf⟩
  · exact .inl ⟨Nat.succ_lt_succ hlength, hf⟩
  · exact .inr ⟨⟨d', List.mem_cons_of_mem d hd', hdeep⟩, hf⟩

/-- A run with limits goes the way of the run without them, or reaches a limit on it. -/
theorem Stage.Goes.limited {s t : Stage σ} (h : s.Goes handler depth ds t) (limits : Limits)
    (left : Nat) :
    (Fits limits left depth ds →
      s.run handler limits left = t.run handler limits (left - ds.length)) ∧
    (¬ Fits limits left depth ds → ∃ f, Exceeds limits left depth ds f ∧
      (s.run handler limits left).1 = .error f) := by
  induction h generalizing left with
  | stays => exact ⟨fun _ ↦ rfl, fun hfits ↦ absurd ⟨Nat.zero_le left, by simp⟩ hfits⟩
  | @steps s t d ds hd _ ih =>
    obtain ⟨i, hi⟩ := Stage.next?_of_depth? hd
    cases left with
    | zero =>
      exact ⟨fun hfits ↦ absurd hfits.length_le (Nat.not_succ_le_zero _),
        fun _ ↦ ⟨_, .inl ⟨Nat.succ_pos _, _, rfl⟩, Stage.run_of_none_left hi⟩⟩
    | succ left =>
      rw [fits_cons, List.length_cons, Nat.add_sub_add_right]
      by_cases hdepth : ((depth + d : Nat) : Int) ≤ limits.recursion
      · have hallowed : ∀ d', s.depth? = some d' → (d' : Int) ≤ limits.recursion := by
          intro d' hd'
          rw [hd, Option.some.injEq] at hd'
          exact hd' ▸ hdepth
        obtain ⟨hfits, hexceeds⟩ := ih left
        rw [Stage.run_advance hallowed]
        refine ⟨fun hboth ↦ hfits hboth.2, fun hnot ↦ ?_⟩
        obtain ⟨f, hf, hresult⟩ := hexceeds fun hrest ↦ hnot ⟨hdepth, hrest⟩
        exact ⟨f, hf.cons, hresult⟩
      · have hdeep := Int.not_le.mp hdepth
        exact ⟨fun hboth ↦ absurd hboth.1 hdepth, fun _ ↦
          ⟨_, .inr ⟨⟨d, List.mem_cons_self, hdeep⟩, _, rfl⟩, Stage.run_of_deep hi hd hdeep⟩⟩

/-! ### Calls to a destination -/

/-- The depths of the steps of a call below a single frame, with the step that the frame takes in
the end. -/
def deliveryDepths (ds : List Nat) : Returned → List Nat
  | .error _ => ds.map (· + 1)
  | .ok _ => ds.map (· + 1) ++ [0]

/-- A run that comes to a return to a single frame ends with the failure, or with what the frame's
callee makes of the outputs. -/
theorem Stage.Goes.deliver {s t : Stage σ} {frame : Frame} {r : Returned}
    (h : s.Goes handler 1 ds t) (hreturns : t.Returns [frame] r)
    (hnames : ∀ outs, r = .ok outs → (shape (frame.state ++ outs)).Nodup)
    {final : List Argument → Except Failure Value}
    (hlast : ∀ outs, r = .ok outs →
      ∀ w, ((handler frame.callee [] (frame.state ++ outs)).outcome w).1 = final outs)
    (hfinal : ∀ outs value, r = .ok outs → final outs = .ok value → value.IsFinal) :
    ∃ w, s.Goes handler 0 (deliveryDepths ds r) (.ended (r >>= final, w)) := by
  have hbelow : s.Goes handler 0 (ds.map (· + 1)) t := Stage.Goes.shift (by rwa [Nat.zero_add])
  cases r with
  | error f =>
    obtain ⟨w, rfl⟩ := hreturns
    exact ⟨w, hbelow⟩
  | ok outs =>
    obtain ⟨q, past, hq, hnext, rfl⟩ := hreturns frame [] rfl (hnames outs rfl)
    have hcaller : q.next.caller = [] := by
      rw [hnext]
      rfl
    have hresult : ((handler q.next.callee [] q.next.args).outcome
        (announced q.world q.taken q.next)).1 = final outs := by
      rw [hnext]
      exact hlast outs rfl _
    obtain ⟨w, hadvance⟩ := hq.advance_last hcaller (fun value ↦ hfinal outs value rfl) hresult
    refine ⟨w, hbelow.trans (.steps ?_ (hadvance ▸ .stays))⟩
    rw [hq.depth?, hcaller]
    rfl

end Machine

open Machine

section

variable {registry : Registry (Handler σ)} {serves : Callee → Rule → Prop} {name : String}
  {target : Callee} {returnsTo : Destination} {last : Callee} {input : List Token} {ds : List Nat}
  {r : Returned} {final : List Argument → Except Failure Value}

/-- A call to a destination of one frame makes a step, and the run of that step without limits goes
as the evaluation says, to its end with the failure or with what the destination makes of the
outputs. -/
theorem call_goes (hserves : ∀ c rule, serves c rule → registry.handler c = rule.handler)
    (htarget : registry.resolveName name = .ok target)
    (hopen : returnsTo.open registry = (do return [← Action.frame last []] : Action σ Chain))
    (h : Evaluates serves (.run target [.ofTokens "input" input]) ds r)
    (hnames : ∀ outs, r = .ok outs → (shape outs).Nodup)
    (hlast : ∀ outs, r = .ok outs → ∀ w, ((registry.handler last [] outs).outcome w).1 = final outs)
    (hfinal : ∀ outs value, r = .ok outs → final outs = .ok value → value.IsFinal) (w : World σ) :
    ∃ step w₁ w', (call registry (.name name) (.ok [.ofTokens "input" input]) returnsTo).outcome w =
        (.ok step, w₁) ∧
      (Stage.start w₁ step).Goes registry.handler 0 (deliveryDepths ds r)
        (.ended (r >>= final, w')) := by
  have hargs : (shape [Argument.ofTokens "input" input]).Nodup := List.nodup_singleton _
  let p : Point σ := ⟨0, 0, .empty, ⟨target, [⟨w.nextFrame, last, []⟩],
    [.ofTokens "input" input], none⟩, { w with nextFrame := w.nextFrame + 1 }⟩
  have hp : p.Sound [] := by
    refine ⟨Ledger.records_empty, ?_, ?_, ?_, ?_, ?_⟩ <;> simp [p, Invocation.frames, InChain]
  obtain ⟨t, hgoes, hreturns⟩ := h.courses hserves p [] hp rfl rfl
  obtain ⟨w', hends⟩ := hgoes.deliver hreturns hnames hlast hfinal
  refine ⟨.pending p.next, p.world, w', ?_, hends⟩
  simp only [call, hopen, Registry.resolve, htarget, Action.outcome_bind, Action.outcome_lift,
    Action.outcome_frame, Action.outcome_pure]
  rw [callFor_cons hargs (by simp [shape])]

/-- A call whose step goes to an end without limits goes there with limits too, if they let it. -/
theorem runCall_of_goes {step : Value} {w w₁ w' : World σ} {ds : List Nat}
    {result : Except Failure Value}
    (hcall : (call registry (.name name) (.ok [.ofTokens "input" input]) returnsTo).outcome w =
      (.ok step, w₁))
    (hgoes : (Stage.start w₁ step).Goes registry.handler 0 ds (.ended (result, w')))
    (limits : Limits) :
    (Fits limits limits.steps.toNat 0 ds →
      ((runCall registry limits name input returnsTo).outcome w).1 = result) ∧
    (¬ Fits limits limits.steps.toNat 0 ds → ∃ f, Exceeds limits limits.steps.toNat 0 ds f ∧
      ((runCall registry limits name input returnsTo).outcome w).1 = .error f) := by
  obtain ⟨hfits, hexceeds⟩ := hgoes.limited limits limits.steps.toNat
  have hrun : (runCall registry limits name input returnsTo).outcome w =
      (Stage.start w₁ step).run registry.handler limits limits.steps.toNat := by
    rw [runCall, Action.outcome_bind, hcall, ← Stage.run_start]
  rw [← hrun] at hfits hexceeds
  exact ⟨fun h ↦ congrArg Prod.fst (hfits h), hexceeds⟩

end

end Expander
