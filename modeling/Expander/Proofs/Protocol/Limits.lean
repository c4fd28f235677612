import Mathlib.Data.Nat.Find
import Mathlib.Logic.Function.Iterate
import Mathlib.Tactic.ByContra
import Mathlib.Tactic.Push
import Expander.Callees.Standard
import Expander.Proofs.Protocol.Outcome

/-!
# What the limits of a run decide

A run without limits goes from stage to stage: in front of each step it holds what the machine holds
there, and at its end it stays (`Stage.advance`). The ledger is asked and the callee is run as by
the machine; only the number of steps and the depth of a chain are not looked at.

The machine goes through the same stages until a step is one too many or its chain too deep, and
there it breaks off (`Machine.run_limited`). So the limits are all that a run with them adds: they
change no outcome, and a higher limit changes no outcome but that of a limit. Nothing is asked of
the callees.
-/

set_option autoImplicit false

namespace Expander

variable {σ : Type}

namespace Machine

/-! ### Stages -/

/-- A run without limits: in front of a step, behind `taken` others, or at its end. -/
inductive Stage (σ : Type)
  | attempts (taken : Nat) (ledger : Ledger) (next : Invocation) (world : World σ)
  | ended (outcome : Except Failure Value × World σ)

namespace Stage

/-- How a run begins. -/
def start (w : World σ) : Value → Stage σ
  | .pending i => .attempts 0 .empty i w
  | value => .ended ((finish .empty 0 value).outcome w)

/-- The end of a run behind a step that gave a value. -/
def conclude (ledger : Ledger) (taken : Nat) (i : Invocation) (value : Value) : Action σ Value :=
  if i.caller.isEmpty then finish ledger (taken + 1) value
  else throw (.breach .finishedEarly (some i.callee.name))

/-- One step of a run without limits. -/
def advance (handler : Callee → Handler σ) : Stage σ → Stage σ
  | .attempts taken ledger i w =>
    match ledger.enter i with
    | .error f => .ended (.error f, w)
    | .ok entered =>
      match (handler i.callee i.caller i.args).outcome (announced w taken i) with
      | (.error f, w') => .ended (.error f, w')
      | (.ok (.pending next), w') => .attempts (taken + 1) entered next w'
      | (.ok value, w') => .ended ((conclude entered taken i value).outcome w')
  | .ended outcome => .ended outcome

/-- The step that is attempted. -/
def next? : Stage σ → Option Invocation
  | .attempts _ _ i _ => some i
  | .ended _ => none

/-- The length of the chain of the step that is attempted, if the ledger lets it pass. -/
def depth? : Stage σ → Option Nat
  | .attempts _ ledger i _ =>
    match ledger.enter i with
    | .ok _ => some i.caller.length
    | .error _ => none
  | .ended _ => none

/-- How a run with limits goes on from here, by `left` steps at most. -/
def run (handler : Callee → Handler σ) (limits : Limits) (left : Nat) :
    Stage σ → Except Failure Value × World σ
  | .attempts taken ledger i w => (runFrom handler limits left taken ledger i).outcome w
  | .ended outcome => outcome

variable {handler : Callee → Handler σ} {limits : Limits} {left : Nat} {s : Stage σ}
  {i : Invocation}

/-- A run goes through the stages, with as many steps left as are allowed. -/
theorem run_start (w : World σ) (value : Value) :
    (Machine.run handler limits value).outcome w =
      (start w value).run handler limits limits.steps.toNat := by
  cases value <;> rfl

/-- With no step left, a call that is still to be made is refused. -/
theorem run_of_none_left (h : s.next? = some i) :
    (s.run handler limits 0).1 = .error (.limit .steps limits.steps i.callee.name) := by
  cases s with
  | attempts taken ledger next w =>
    cases h
    rw [run, outcome_runFrom_zero]
  | ended outcome => cases h

/-- A call that is too deep is refused before it is made. -/
theorem run_of_deep (h : s.next? = some i) {d : Nat} (hd : s.depth? = some d)
    (hdeep : limits.recursion < d) :
    (s.run handler limits (left + 1)).1 =
      .error (.limit .recursion limits.recursion i.callee.name) := by
  cases s with
  | attempts taken ledger next w =>
    cases h
    cases henter : ledger.enter i with
    | error f => simp [depth?, henter] at hd
    | ok entered =>
      simp only [depth?, henter, Option.some.injEq] at hd
      rw [run, outcome_runFrom_succ, henter]
      dsimp only
      rw [if_pos (hd ▸ hdeep)]
  | ended outcome => cases h

/-- A step that the limits allow is the step of the run without them. -/
theorem run_advance (hdepth : ∀ d, s.depth? = some d → (d : Int) ≤ limits.recursion) :
    s.run handler limits (left + 1) = (s.advance handler).run handler limits left := by
  cases s with
  | attempts taken ledger next w =>
    rw [run, outcome_runFrom_succ, advance]
    cases henter : ledger.enter next with
    | error f => rfl
    | ok entered =>
      have hnext : (next.caller.length : Int) ≤ limits.recursion :=
        hdepth _ (by simp only [depth?, henter])
      dsimp only
      rw [if_neg (Int.not_lt.mpr hnext)]
      rcases (handler next.callee next.caller next.args).outcome (announced w taken next)
        with ⟨_ | value, w'⟩
      · rfl
      · cases value <;> rfl
  | ended outcome => rfl

/-- Steps that are not too deep use up as many of those left. -/
theorem run_iterate (n : Nat) (hdepth : ∀ m < n, ∀ d,
      ((advance handler)^[m] s).depth? = some d → (d : Int) ≤ limits.recursion) :
    s.run handler limits (left + n) = ((advance handler)^[n] s).run handler limits left := by
  induction n generalizing s with
  | zero => rfl
  | succ n ih =>
    have hhere : ∀ d, s.depth? = some d → (d : Int) ≤ limits.recursion := hdepth 0 n.succ_pos
    rw [← Nat.add_assoc, run_advance hhere, Function.iterate_succ_apply]
    exact ih fun m hm ↦ hdepth (m + 1) (Nat.succ_lt_succ hm)

/-- A stage that has a depth has a call to make. -/
theorem next?_of_depth? {d : Nat} (hd : s.depth? = some d) : ∃ i, s.next? = some i := by
  cases s with
  | attempts taken ledger i w => exact ⟨i, rfl⟩
  | ended outcome => cases hd

/-- A stage without a call to make has ended. -/
theorem eq_ended_of_next? (h : s.next? = none) : ∃ outcome, s = .ended outcome := by
  cases s with
  | attempts => cases h
  | ended outcome => exact ⟨outcome, rfl⟩

end Stage

/-- The stage of a run without limits behind `n` steps. -/
def stage (handler : Callee → Handler σ) (start : Value) (w : World σ) (n : Nat) : Stage σ :=
  (Stage.advance handler)^[n] (.start w start)

/-- A run that has come to its end stays there. -/
theorem stage_of_ended {handler : Callee → Handler σ} {start : Value} {w : World σ} {m n : Nat}
    {outcome : Except Failure Value × World σ} (h : stage handler start w m = .ended outcome)
    (hmn : m ≤ n) : stage handler start w n = .ended outcome := by
  induction hmn with
  | refl => exact h
  | step _ ih => rw [stage, Function.iterate_succ_apply', ← stage, ih, Stage.advance]

/-! ### Limits -/

/-- Whether the step at a stage behind `n` others is one that limits refuse. -/
def Stage.Refused (limits : Limits) (n : Nat) (s : Stage σ) : Prop :=
  limits.steps < n + 1 ∨ ∃ d, s.depth? = some d ∧ limits.recursion < d

section

variable {handler : Callee → Handler σ} {limits : Limits} {start : Value} {w : World σ}

/-- A stage that is not refused is not too deep. -/
theorem depth_le_of_not_refused {n : Nat} {s : Stage σ} (h : ¬ s.Refused limits n) (d : Nat)
    (hd : s.depth? = some d) : (d : Int) ≤ limits.recursion :=
  Int.not_lt.mp fun hdeep ↦ h (.inr ⟨d, hd, hdeep⟩)

/-- A run whose steps so far no limit refuses is at the stage of the run without limits. -/
theorem outcome_run_eq_stage {n : Nat} (hn : n ≤ limits.steps.toNat) (hdepth : ∀ m < n, ∀ d,
      (stage handler start w m).depth? = some d → (d : Int) ≤ limits.recursion) :
    (run handler limits start).outcome w =
      (stage handler start w n).run handler limits (limits.steps.toNat - n) := by
  rw [Stage.run_start, ← Nat.sub_add_cancel hn, Stage.run_iterate n hdepth, Nat.add_sub_cancel]
  rfl

/-- A run whose stages stay within the limits comes to what they come to. -/
theorem outcome_run_of_ended {n : Nat} {outcome : Except Failure Value × World σ}
    (hend : stage handler start w n = .ended outcome) (hn : n ≤ limits.steps) (hdepth : ∀ m d,
      (stage handler start w m).depth? = some d → (d : Int) ≤ limits.recursion) :
    (run handler limits start).outcome w = outcome := by
  have hn' : n ≤ limits.steps.toNat := by omega
  rw [outcome_run_eq_stage hn' fun m _ ↦ hdepth m, hend]
  rfl

/-- A run ends at the first stage that is refused, with the limit that was reached: that of steps if
both were. -/
theorem outcome_run_of_refused {n : Nat} {i : Invocation}
    (hi : (stage handler start w n).next? = some i)
    (hrefused : (stage handler start w n).Refused limits n)
    (hfirst : ∀ m < n, ¬ (stage handler start w m).Refused limits m) :
    ((run handler limits start).outcome w).1 = .error
      (if limits.steps ≤ n then .limit .steps limits.steps i.callee.name
        else .limit .recursion limits.recursion i.callee.name) := by
  have hn : n ≤ limits.steps.toNat := by
    rcases n with _ | n
    · exact Nat.zero_le _
    · have hprev : ¬ limits.steps < (n : Int) + 1 := fun h ↦ hfirst n n.lt_succ_self (.inl h)
      omega
  rw [outcome_run_eq_stage hn fun m hm ↦ depth_le_of_not_refused (hfirst m hm)]
  by_cases hsteps : limits.steps ≤ n
  · rw [if_pos hsteps, show limits.steps.toNat - n = 0 by omega]
    exact Stage.run_of_none_left hi
  · obtain ⟨d, hd, hdeep⟩ := hrefused.resolve_left (by omega)
    rw [if_neg hsteps, show limits.steps.toNat - n = limits.steps.toNat - n - 1 + 1 by omega]
    exact Stage.run_of_deep hi hd hdeep

/-- Either no step of a run is refused and the run comes to an end, or there is a first step that
is. -/
theorem ended_or_refused (handler : Callee → Handler σ) (hsteps : 0 ≤ limits.steps) (start : Value)
    (w : World σ) :
    (∃ n outcome, stage handler start w n = .ended outcome ∧ (n : Int) ≤ limits.steps ∧
      ∀ m d, (stage handler start w m).depth? = some d → (d : Int) ≤ limits.recursion) ∨
    ∃ n i, (stage handler start w n).next? = some i ∧ (stage handler start w n).Refused limits n ∧
      ∀ m < n, ¬ (stage handler start w m).Refused limits m := by
  classical
  by_cases hex : ∃ n, ∃ i, (stage handler start w n).next? = some i ∧
      (stage handler start w n).Refused limits n
  · obtain ⟨i, hi, hrefused⟩ := Nat.find_spec hex
    refine .inr ⟨Nat.find hex, i, hi, hrefused, fun m hm hm' ↦ ?_⟩
    cases hnext : (stage handler start w m).next? with
    | some j => exact Nat.find_min hex hm ⟨j, hnext, hm'⟩
    | none =>
      obtain ⟨outcome, hend⟩ := Stage.eq_ended_of_next? hnext
      rw [stage_of_ended hend (Nat.le_of_lt hm)] at hi
      cases hi
  · push Not at hex
    cases hnext : (stage handler start w limits.steps.toNat).next? with
    | some i => exact (hex _ i hnext (.inl (by omega))).elim
    | none =>
      obtain ⟨outcome, hend⟩ := Stage.eq_ended_of_next? hnext
      refine .inl ⟨_, outcome, hend, Int.le_of_eq (Int.toNat_of_nonneg hsteps), fun m d hd ↦ ?_⟩
      obtain ⟨i, hi⟩ := Stage.next?_of_depth? hd
      exact depth_le_of_not_refused (hex m i hi) d hd

end

/-- A run with limits has the outcome of the run without them if that run ends and none of its steps
is refused. Otherwise there is a first step that is refused, and the run breaks off with the callee
of that step: because of the number of steps if they are used up, and because of the depth of the
chain if not. So an outcome that is not that of a limit is the outcome under any higher limits. -/
theorem run_limited (handler : Callee → Handler σ) (limits : Limits) (hsteps : 0 ≤ limits.steps)
    (start : Value) (w : World σ) :
    (∀ n outcome, stage handler start w n = .ended outcome → (n : Int) ≤ limits.steps →
      (∀ m d, (stage handler start w m).depth? = some d → (d : Int) ≤ limits.recursion) →
        (run handler limits start).outcome w = outcome) ∧
    (∀ n i, (stage handler start w n).next? = some i →
      (stage handler start w n).Refused limits n →
      (∀ m < n, ¬ (stage handler start w m).Refused limits m) →
        ((run handler limits start).outcome w).1 = .error
          (if limits.steps ≤ n then .limit .steps limits.steps i.callee.name
            else .limit .recursion limits.recursion i.callee.name)) ∧
    ((∃ n outcome, stage handler start w n = .ended outcome ∧ (n : Int) ≤ limits.steps ∧
      ∀ m d, (stage handler start w m).depth? = some d → (d : Int) ≤ limits.recursion) ∨
      ∃ n i, (stage handler start w n).next? = some i ∧
        (stage handler start w n).Refused limits n ∧
          ∀ m < n, ¬ (stage handler start w m).Refused limits m) ∧
    ∀ higher : Limits, limits.recursion ≤ higher.recursion → limits.steps ≤ higher.steps →
      (∀ bound k callee,
        ((run handler limits start).outcome w).1 ≠ .error (.limit bound k callee)) →
        (run handler higher start).outcome w = (run handler limits start).outcome w := by
  refine ⟨fun n outcome hend hn hdepth ↦ outcome_run_of_ended hend hn hdepth,
    fun n i hi hrefused hfirst ↦ outcome_run_of_refused hi hrefused hfirst,
    ended_or_refused handler hsteps start w,
    fun higher hrecursion hsteps' hunlimited ↦ ?_⟩
  rcases ended_or_refused handler hsteps start w with
    ⟨n, outcome, hend, hn, hdepth⟩ | ⟨n, i, hi, hrefused, hfirst⟩
  · rw [outcome_run_of_ended hend hn hdepth]
    exact outcome_run_of_ended hend (Int.le_trans hn hsteps')
      fun m d hd ↦ Int.le_trans (hdepth m d hd) hrecursion
  · have hlimit := outcome_run_of_refused hi hrefused hfirst
    split at hlimit
    · exact absurd hlimit (hunlimited _ _ _)
    · exact absurd hlimit (hunlimited _ _ _)

/-- A step of the callee that shows its arguments, of which it is given none, for some callers. -/
def shownNothing (caller : Chain) : Value := .pending ⟨Destinations.debugReturn, caller, [], none⟩

/-- A step that asks whether a comma is one and answers to the identity, which takes a second
step. -/
def commaAsked : Value :=
  .pending ⟨Predicate.isComma.callee, [⟨1, identityReturn, []⟩],
    [.ofTokens "input" [.leaf .punct "," none]], none⟩

/-- One step needs one, and a chain of one frame is too deep where none is allowed. A question needs
two steps and has its answer under any limits from there on; with one step it breaks off in front of
the identity. -/
theorem run_limited_debug :
    ((run (σ := Unit) Registry.standard.handler ⟨0, 1⟩ (shownNothing [])).outcome (.initial ())).1 =
      .ok (.text "") ∧
    ((run (σ := Unit) Registry.standard.handler ⟨0, 0⟩ (shownNothing [])).outcome (.initial ())).1 =
      .error (.limit .steps 0 "tt_debug") ∧
    ((run (σ := Unit) Registry.standard.handler ⟨0, 1⟩
      (shownNothing [⟨1, identityReturn, []⟩])).outcome (.initial ())).1 =
        .error (.limit .recursion 0 "tt_debug") ∧
    ((run (σ := Unit) Registry.standard.handler ⟨1, 2⟩ commaAsked).outcome (.initial ())).1 =
      .ok (.tokens (boolean true)) ∧
    (∀ depth steps : Nat,
      ((run (σ := Unit) Registry.standard.handler ⟨depth + 1, steps + 2⟩ commaAsked).outcome
        (.initial ())).1 = .ok (.tokens (boolean true))) ∧
    ((run (σ := Unit) Registry.standard.handler ⟨1, 1⟩ commaAsked).outcome (.initial ())).1 =
      .error (.limit .steps 1 "tt_identity_return") := by
  have hanswer : ((run (σ := Unit) Registry.standard.handler ⟨1, 2⟩ commaAsked).outcome
      (.initial ())).1 = .ok (.tokens (boolean true)) := by
    have hends := (run_limited (σ := Unit) Registry.standard.handler ⟨1, 2⟩ (by decide)
      commaAsked (.initial ())).1 2 _ rfl (by decide)
    rw [hends]
    · rfl
    · rintro (_ | _ | m) d hd
      · cases hd
        decide
      · cases hd
        decide
      · rw [stage_of_ended (m := 2) rfl (Nat.le_add_left 2 m)] at hd
        cases hd
  refine ⟨?_, ?_, ?_, hanswer, fun depth steps ↦ ?_, ?_⟩
  · have hends := (run_limited (σ := Unit) Registry.standard.handler ⟨0, 1⟩ (by decide)
      (shownNothing []) (.initial ())).1 1 _ rfl (by decide)
    rw [hends]
    · rfl
    · rintro (_ | m) d hd
      · cases hd
        decide
      · rw [stage_of_ended (m := 1) rfl (Nat.le_add_left 1 m)] at hd
        cases hd
  · exact (run_limited (σ := Unit) Registry.standard.handler ⟨0, 0⟩ (by decide)
      (shownNothing []) (.initial ())).2.1 0 _ rfl (.inl (by decide)) nofun
  · exact (run_limited (σ := Unit) Registry.standard.handler ⟨0, 1⟩ (by decide)
      (shownNothing [⟨1, identityReturn, []⟩]) (.initial ())).2.1 0 _ rfl
        (.inr ⟨1, rfl, by decide⟩) nofun
  · have hhigher := (run_limited (σ := Unit) Registry.standard.handler ⟨1, 2⟩ (by decide)
      commaAsked (.initial ())).2.2.2 ⟨depth + 1, steps + 2⟩ (by dsimp only; omega)
        (by dsimp only; omega) (by rw [hanswer]; exact nofun)
    rw [hhigher]
    exact hanswer
  · refine (run_limited (σ := Unit) Registry.standard.handler ⟨1, 1⟩ (by decide) commaAsked
      (.initial ())).2.1 1 ⟨identityReturn, [], _, _⟩ rfl (.inl (by decide)) ?_
    rintro m hm (hsteps | ⟨d, hd, hdeep⟩)
    · exact absurd hsteps (by dsimp only; omega)
    · obtain rfl : m = 0 := by omega
      cases hd
      exact absurd hdeep (by decide)

end Machine

end Expander
