import Mathlib.Data.List.Nodup
import Mathlib.Tactic.SplitIfs
import Expander.Callees.Standard
import Expander.Protocol.Trace
import Expander.Proofs.Protocol.Ledger
import Expander.Proofs.Protocol.Outcome

/-!
# The fire-once discipline

The unchecked rewriting of a step replaces an invocation by what its callee gives back until that is
no invocation (`Rewrites`). Nothing is checked and nothing is reported on the way. A list of steps
is `Disciplined` if no frame is resumed twice, no chain has a frame that was resumed before or is
resumed by the step itself, the last step answers to no one, and every frame of a chain is resumed
by some step.

Within its limits the machine gives a value if and only if the rewriting reaches that value by
disciplined steps, and it ends in a breach of the protocol if the rewriting reaches a value by steps
that are not disciplined (`Machine.run_eq_ok_iff_disciplined`). The one thing asked of the callees
is that they do not read the log, in which the machine reports each of its steps.

A trace shows the steps of the rewriting itself (`trace_eq_value_iff`), so it may go on where the
machine breaks off.
-/

set_option autoImplicit false

namespace Expander

variable {σ α β : Type}

/-! ### Callees that do not read the log -/

/-- Worlds that differ at most in what was reported. -/
structure World.Alike (w w' : World σ) : Prop where
  nextFrame : w.nextFrame = w'.nextFrame
  memory : w.memory = w'.memory

theorem World.Alike.refl (w : World σ) : w.Alike w := ⟨rfl, rfl⟩

namespace Action

/-- Whatever was reported before, the action gives the same result and does the same. -/
def IgnoresLog (a : Action σ α) : Prop :=
  ∀ w w' : World σ, w.Alike w' →
    (a.outcome w).1 = (a.outcome w').1 ∧ (a.outcome w).2.Alike (a.outcome w').2

theorem ignoresLog_pure (a : α) : (pure a : Action σ α).IgnoresLog :=
  fun _ _ h ↦ ⟨rfl, h⟩

theorem ignoresLog_throw (f : Failure) : (throw f : Action σ α).IgnoresLog :=
  fun _ _ h ↦ ⟨rfl, h⟩

/-- A computation that does nothing to a world does not read its log. -/
theorem ignoresLog_lift (x : Except Failure α) : (liftM x : Action σ α).IgnoresLog := by
  intro w w' h
  simpa using h

/-- To write to the log is not to read it. -/
theorem ignoresLog_note (e : Event) : (note e : Action σ Unit).IgnoresLog :=
  fun _ _ h ↦ ⟨rfl, h.nextFrame, h.memory⟩

/-- To take the next number is not to read the log. -/
theorem ignoresLog_frame (callee : Callee) (state : List Argument) :
    (frame callee state : Action σ Frame).IgnoresLog := by
  intro w w' h
  refine ⟨?_, congrArg (· + 1) h.nextFrame, h.memory⟩
  simp only [outcome_frame, h.nextFrame]

/-- Actions that do not read the log, one after the other, do not. -/
theorem IgnoresLog.bind {a : Action σ α} {next : α → Action σ β} (ha : a.IgnoresLog)
    (hnext : ∀ x, (next x).IgnoresLog) : (a >>= next).IgnoresLog := by
  intro w w' h
  obtain ⟨hresult, halike⟩ := ha w w' h
  rw [outcome_bind, outcome_bind]
  rcases hw : a.outcome w with ⟨result, w₁⟩
  rcases hw' : a.outcome w' with ⟨result', w₁'⟩
  rw [hw, hw'] at hresult halike
  cases hresult
  cases result with
  | error f => exact ⟨rfl, halike⟩
  | ok x => exact hnext x _ _ halike

end Action

/-- Callees whose results and effects do not depend on what was reported before. -/
def Deterministic (handler : Callee → Handler σ) : Prop :=
  ∀ callee caller args, (handler callee caller args).IgnoresLog

/-- What the same callee does in worlds that differ in what was reported. -/
theorem Deterministic.outcome_alike {handler : Callee → Handler σ} (h : Deterministic handler)
    {i : Invocation} {w w' w₁ : World σ} (hw : w.Alike w') {value : Value}
    (hrun : (handler i.callee i.caller i.args).outcome w = (.ok value, w₁)) :
    ∃ w₁', (handler i.callee i.caller i.args).outcome w' = (.ok value, w₁') ∧ w₁.Alike w₁' := by
  obtain ⟨hresult, halike⟩ := h i.callee i.caller i.args w w' hw
  rw [hrun] at hresult halike
  exact ⟨((handler i.callee i.caller i.args).outcome w').2, Prod.ext hresult.symm rfl, halike⟩

theorem ignoresLog_stack (caller : Chain) (rs : List Resumption) :
    (stack caller rs : Action σ Chain).IgnoresLog := by
  induction rs with
  | nil => exact Action.ignoresLog_pure caller
  | cons r rs ih =>
    exact ih.bind fun _ ↦ (Action.ignoresLog_frame _ _).bind fun _ ↦ Action.ignoresLog_pure _

/-- A rule is given its arguments and no log. -/
theorem ignoresLog_rule (rule : Rule) (caller : Chain) (args : List Argument) :
    (rule.handler caller args : Action σ Value).IgnoresLog := by
  refine (Action.ignoresLog_lift (rule args)).bind fun move ↦ ?_
  cases move with
  | call target args near outer =>
    exact (ignoresLog_stack caller (near :: outer)).bind fun _ ↦ Action.ignoresLog_lift _
  | tail target args => exact Action.ignoresLog_lift _
  | giveBack outputs => exact Action.ignoresLog_lift _

/-- The destination that shows its outputs writes to the log only. -/
theorem ignoresLog_debug (caller : Chain) (args : List Argument) :
    (Destinations.debug caller args : Action σ Value).IgnoresLog := by
  have hlines : ∀ lines : List String,
      (lines.forM fun line ↦ (Action.note (.shown line) : Action σ Unit)).IgnoresLog := by
    intro lines
    induction lines with
    | nil => exact Action.ignoresLog_pure ()
    | cons line lines ih => exact (Action.ignoresLog_note _).bind fun _ ↦ ih
  exact (hlines _).bind fun _ ↦ Action.ignoresLog_pure _

/-- The standard callees do not read the log, so a registry of them and of more such callees is
deterministic. -/
theorem deterministic_standardAnd {more : List (Callee × Handler σ)}
    (h : ∀ entry ∈ more, ∀ caller args, (entry.2 caller args).IgnoresLog) :
    Deterministic (Registry.standardAnd more).handler := by
  have hall : ∀ entry ∈ (Registry.standardAnd more).entries, ∀ caller args,
      (entry.2 caller args).IgnoresLog := by
    intro entry hentry caller args
    simp only [Registry.standardAnd, standardCallees, Destinations.all, List.mem_append,
      List.mem_map, List.mem_cons, List.not_mem_nil, or_false] at hentry
    rcases hentry with (((rfl | rfl | rfl) | ⟨p, -, rfl⟩) | ⟨n, -, rfl⟩) | hentry
    · exact Action.ignoresLog_lift _
    · exact Action.ignoresLog_lift _
    · exact ignoresLog_debug caller args
    · exact ignoresLog_rule _ caller args
    · exact ignoresLog_rule _ caller args
    · exact h entry hentry caller args
  intro callee caller args
  simp only [Registry.handler, Registry.lookupD]
  cases hfind : (Registry.standardAnd more).find? callee.name with
  | none => exact Action.ignoresLog_throw _
  | some entry => exact hall entry (List.mem_of_find?_eq_some hfind) caller args

/-! ### The unchecked rewriting -/

/-- A value is rewritten to a final one by the steps of some invocations, in a world that changes
only as the callees change it. No step fails. -/
inductive Rewrites (handler : Callee → Handler σ) :
    World σ → Value → List Invocation → Value → Prop
  | final {w : World σ} {value : Value} (h : value.IsFinal) : Rewrites handler w value [] value
  | step {w w' : World σ} {i : Invocation} {next value : Value} {steps : List Invocation}
      (hrun : (handler i.callee i.caller i.args).outcome w = (.ok next, w'))
      (hrest : Rewrites handler w' next steps value) :
      Rewrites handler w (.pending i) (i :: steps) value

/-! ### Traces -/

section

variable {handler : Callee → Handler σ} {w : World σ} {left : Nat} {start value : Value}
  {steps : List Invocation} {rows : List TraceRow}

/-- A trace shows a step, and behind it the trace of what the step gave back. A step that fails is
shown as the last one. -/
theorem trace_pending_succ {i : Invocation} :
    (trace handler (left + 1) (.pending i)).run w =
      match (handler i.callee i.caller i.args).outcome w with
      | (.ok next, w') =>
        (((trace handler left next).run w').1.map (TraceRow.ofInvocation i :: ·) id,
          ((trace handler left next).run w').2)
      | (.error f, w') => (([TraceRow.ofInvocation i], .failed f), w') := by
  rw [trace]
  simp only [Action.outcome, StateT.run_bind]
  rcases (ExceptT.run (handler i.callee i.caller i.args)).run w with ⟨_ | next, w'⟩ <;> rfl

/-- The trace of a value that is final has no rows. -/
theorem trace_final (h : value.IsFinal) :
    (trace handler left value).run w = (([], .value value), w) := by
  cases value with
  | pending i => exact absurd rfl (h i)
  | _ => cases left <;> rfl

/-- Steps that the unchecked rewriting takes are the rows of the trace, if it is allowed as many. -/
theorem trace_of_rewrites (h : Rewrites handler w start steps value)
    (hleft : steps.length ≤ left) :
    ((trace handler left start).run w).1 = (steps.map TraceRow.ofInvocation, .value value) := by
  induction h generalizing left with
  | final hfinal =>
    rw [trace_final hfinal]
    rfl
  | step hrun hrest ih =>
    obtain ⟨left, rfl⟩ := Nat.exists_eq_add_of_le' (Nat.one_le_of_lt hleft)
    rw [trace_pending_succ, hrun]
    dsimp only
    rw [ih (Nat.le_of_succ_le_succ hleft)]
    rfl

/-- The rows of a trace that ends with a value are steps of the rewriting. -/
theorem rewrites_of_trace (h : ((trace handler left start).run w).1 = (rows, .value value)) :
    ∃ steps, Rewrites handler w start steps value ∧ steps.length ≤ left ∧
      rows = steps.map TraceRow.ofInvocation := by
  induction left generalizing start w rows with
  | zero =>
    obtain hfinal | ⟨i, rfl⟩ := start.isFinal_or_pending
    · rw [trace_final hfinal] at h
      cases h
      exact ⟨[], .final hfinal, Nat.le_refl 0, rfl⟩
    · cases h
  | succ left ih =>
    obtain hfinal | ⟨i, rfl⟩ := start.isFinal_or_pending
    · rw [trace_final hfinal] at h
      cases h
      exact ⟨[], .final hfinal, Nat.zero_le _, rfl⟩
    · rw [trace_pending_succ] at h
      rcases hrun : (handler i.callee i.caller i.args).outcome w with ⟨_ | next, w'⟩
      · rw [hrun] at h
        cases h
      · rw [hrun] at h
        obtain ⟨hrows, hend⟩ := Prod.mk.inj h
        obtain ⟨steps, hrest, hlength, heq⟩ := ih (Prod.ext rfl hend)
        exact ⟨i :: steps, .step hrun hrest, Nat.succ_le_succ hlength,
          hrows.symm.trans (congrArg (_ :: ·) heq)⟩

/-- **A trace shows the unchecked rewriting.** It ends with a value if and only if the rewriting
reaches that value in no more steps than the trace may show, and then its rows are those steps. -/
theorem trace_eq_value_iff :
    ((trace handler left start).run w).1 = (rows, .value value) ↔
      ∃ steps, Rewrites handler w start steps value ∧ steps.length ≤ left ∧
        rows = steps.map TraceRow.ofInvocation := by
  constructor
  · exact rewrites_of_trace
  · rintro ⟨steps, h, hlength, rfl⟩
    exact trace_of_rewrites h hlength

end

/-- The fire-once discipline of the steps of a whole run. -/
structure Disciplined (steps : List Invocation) : Prop where
  /-- No frame is resumed by two steps. -/
  firedOnce : (firedIds steps).Nodup
  /-- No frame in the chain of a step was resumed by that step or an earlier one. -/
  unfired : ∀ before i after, steps = before ++ i :: after →
    ∀ f ∈ i.caller, f.id ∉ firedIds (before ++ [i])
  /-- The step that gave the final value answers to no one. -/
  uncalled : ∀ i, steps.getLast? = some i → i.caller = []
  /-- Every frame in the chain of a step is resumed by some step. -/
  allFired : ∀ i ∈ steps, ∀ f ∈ i.caller, f.id ∈ firedIds steps

/-- Steps that reach neither limit. -/
structure Within (limits : Limits) (steps : List Invocation) : Prop where
  length_le : steps.length ≤ limits.steps.toNat
  depth_le : ∀ i ∈ steps, (i.caller.length : Int) ≤ limits.recursion

/-! ### The discipline step by step -/

/-- Each of some steps may follow those before it, the first of them some steps that are past. -/
def AdmitsAll (past : List Invocation) : List Invocation → Prop
  | [] => True
  | i :: steps => Ledger.Admits past i ∧ AdmitsAll (past ++ [i]) steps

/-- What is left of the discipline of a run when some of its steps are past. -/
structure Keeps (past steps : List Invocation) : Prop where
  admits : AdmitsAll past steps
  uncalled : ∀ i, steps.getLast? = some i → i.caller = []
  allFired : ∀ n, InChain (past ++ steps) n → n ∈ firedIds (past ++ steps)

/-- A step keeps the numbers that have fired different if what it fires has not fired. -/
theorem firedIds_concat_nodup {past : List Invocation} {i : Invocation}
    (h : (firedIds past).Nodup) :
    (firedIds (past ++ [i])).Nodup ↔ ∀ f, i.fires = some f → f.id ∉ firedIds past := by
  cases hfires : i.fires with
  | none =>
    rw [firedIds_concat_none hfires]
    simpa using h
  | some f =>
    rw [firedIds_concat_some hfires, List.nodup_append_comm, List.singleton_append,
      List.nodup_cons]
    simp [h]

/-- Steps are admitted one after the other if and only if nothing fires twice, and nothing that has
fired stands in a chain behind that. -/
theorem admitsAll_iff {past steps : List Invocation} (hpast : (firedIds past).Nodup) :
    AdmitsAll past steps ↔ (firedIds (past ++ steps)).Nodup ∧
      ∀ before i after, steps = before ++ i :: after →
        ∀ f ∈ i.caller, f.id ∉ firedIds (past ++ before ++ [i]) := by
  induction steps generalizing past with
  | nil => simpa [AdmitsAll] using hpast
  | cons i steps ih =>
    have hshift : past ++ i :: steps = past ++ [i] ++ steps := by simp
    constructor
    · rintro ⟨hadmits, hrest⟩
      have hnodup := (firedIds_concat_nodup hpast).mpr hadmits.fresh
      obtain ⟨hall, hunfired⟩ := (ih hnodup).mp hrest
      refine ⟨by rw [hshift]; exact hall, ?_⟩
      intro before j after heq
      cases before with
      | nil =>
        obtain ⟨rfl, rfl⟩ : i = j ∧ steps = after := by simpa using heq
        simpa using hadmits.unfired
      | cons k before =>
        obtain ⟨rfl, rfl⟩ : i = k ∧ steps = before ++ j :: after := by simpa using heq
        simpa using hunfired before j after rfl
    · rintro ⟨hall, hunfired⟩
      rw [hshift] at hall
      have hnodup : (firedIds (past ++ [i])).Nodup := by
        rw [firedIds_append] at hall
        exact (List.nodup_append.mp hall).1
      refine ⟨⟨(firedIds_concat_nodup hpast).mp hnodup, ?_⟩, (ih hnodup).mpr ⟨hall, ?_⟩⟩
      · simpa using hunfired [] i steps rfl
      · intro before j after heq
        simpa using hunfired (i :: before) j after (by simp [heq])

/-- From the beginning, to keep the discipline is to be disciplined. -/
theorem keeps_nil_iff {steps : List Invocation} : Keeps [] steps ↔ Disciplined steps := by
  have hadmits : AdmitsAll [] steps ↔ (firedIds steps).Nodup ∧
      ∀ before i after, steps = before ++ i :: after →
        ∀ f ∈ i.caller, f.id ∉ firedIds (before ++ [i]) := admitsAll_iff List.nodup_nil
  constructor
  · intro h
    obtain ⟨honce, hunfired⟩ := hadmits.mp h.admits
    exact ⟨honce, hunfired, h.uncalled, fun i hi f hf ↦ h.allFired f.id ⟨i, hi, f, hf, rfl⟩⟩
  · intro h
    refine ⟨hadmits.mpr ⟨h.firedOnce, h.unfired⟩, h.uncalled, ?_⟩
    rintro n ⟨i, hi, f, hf, rfl⟩
    exact h.allFired i hi f hf

/-- The discipline is kept step by step. -/
theorem keeps_cons_iff {past steps : List Invocation} {i : Invocation} (h : steps ≠ []) :
    Keeps past (i :: steps) ↔ Ledger.Admits past i ∧ Keeps (past ++ [i]) steps := by
  have hshift : past ++ i :: steps = past ++ [i] ++ steps := by simp
  obtain ⟨j, rest, rfl⟩ := List.exists_cons_of_ne_nil h
  constructor
  · intro hk
    refine ⟨hk.admits.1, hk.admits.2, ?_, ?_⟩
    · simpa [List.getLast?_cons_cons] using hk.uncalled
    · rw [← hshift]
      exact hk.allFired
  · rintro ⟨hadmits, hk⟩
    refine ⟨⟨hadmits, hk.admits⟩, ?_, ?_⟩
    · simpa [List.getLast?_cons_cons] using hk.uncalled
    · rw [hshift]
      exact hk.allFired

/-- At the last step nothing may wait any longer. -/
theorem keeps_singleton_iff {past : List Invocation} {i : Invocation} :
    Keeps past [i] ↔ Ledger.Admits past i ∧ i.caller = [] ∧
      ∀ n, InChain (past ++ [i]) n → n ∈ firedIds (past ++ [i]) := by
  constructor
  · intro h
    exact ⟨h.admits.1, h.uncalled i rfl, h.allFired⟩
  · rintro ⟨hadmits, hcaller, hall⟩
    refine ⟨⟨hadmits, trivial⟩, ?_, hall⟩
    rintro j hj
    cases hj
    exact hcaller

/-! ### The machine and the rewriting -/

namespace Machine

variable {handler : Callee → Handler σ} {limits : Limits} {left taken : Nat} {ledger : Ledger}
  {i : Invocation} {w w' : World σ} {past steps : List Invocation} {value : Value}

/-- What is reported of a step makes no difference to worlds that are alike. -/
theorem alike_announced (h : w.Alike w') : w.Alike (announced w' taken i) :=
  ⟨h.nextFrame, h.memory⟩

/-- The machine ends the last step of a run as the discipline asks. -/
theorem proceed_last (hledger : ledger.Records (past ++ [i])) (hadmits : Ledger.Admits past i)
    (hfinal : value.IsFinal) :
    (Keeps past [i] →
      ((proceed handler limits left taken ledger i value).outcome w).1 = .ok value) ∧
    (¬ Keeps past [i] → ∃ breach blamed,
      ((proceed handler limits left taken ledger i value).outcome w).1 =
        .error (.breach breach blamed)) := by
  rw [keeps_singleton_iff, proceed_final hfinal]
  by_cases hcaller : i.caller = []
  · rw [if_pos (by rw [hcaller]; rfl), outcome_finish]
    refine ⟨fun h ↦ ?_, fun h ↦ ?_⟩
    · rw [(Ledger.close_eq_ok_iff hledger).mpr h.2.2]
      rfl
    · obtain ⟨callees, hclose⟩ :=
        Ledger.close_of_waiting hledger fun hall ↦ h ⟨hadmits, hcaller, hall⟩
      exact ⟨.neverFired callees, none, by rw [hclose]; rfl⟩
  · rw [if_neg (by simpa using hcaller)]
    exact ⟨fun h ↦ absurd h.2.1 hcaller, fun _ ↦ ⟨.finishedEarly, some i.callee.name, rfl⟩⟩

/-- The machine follows the rewriting as long as the discipline is kept, and breaks off where it is
not. -/
theorem runFrom_of_rewrites (hdet : Deterministic handler) {start : Value}
    (h : Rewrites handler w start steps value) (hstart : start = .pending i)
    (hw : w.Alike w') (hledger : ledger.Records past) (hleft : steps.length ≤ left)
    (hdepth : ∀ j ∈ steps, (j.caller.length : Int) ≤ limits.recursion) :
    (Keeps past steps → ((runFrom handler limits left taken ledger i).outcome w').1 = .ok value) ∧
    (¬ Keeps past steps → ∃ breach blamed,
      ((runFrom handler limits left taken ledger i).outcome w').1 =
        .error (.breach breach blamed)) := by
  induction h generalizing i w' past ledger left taken with
  | final hfinal => exact absurd hstart (hfinal i)
  | @step w w₁ j next value steps hrun hrest ih =>
    cases hstart
    obtain ⟨left, rfl⟩ : ∃ n, left = n + 1 :=
      Nat.exists_eq_add_one_of_ne_zero (by rw [List.length_cons] at hleft; omega)
    rw [outcome_runFrom_succ]
    by_cases hadmits : Ledger.Admits past j
    · obtain ⟨entered, henter, hrecords⟩ := Ledger.enter_of_admits hledger hadmits
      have hannounced : w.Alike (announced w' taken j) := alike_announced hw
      obtain ⟨w₁', hrun', hw₁⟩ := hdet.outcome_alike hannounced hrun
      rw [henter]
      dsimp only
      rw [if_neg (Int.not_lt.mpr (hdepth j List.mem_cons_self)), hrun']
      dsimp only
      cases hrest with
      | final hfinal => exact proceed_last hrecords hadmits hfinal
      | @step _ _ k _ _ steps hrun₁ hrest₁ =>
        rw [proceed_pending, keeps_cons_iff (List.cons_ne_nil k steps)]
        obtain ⟨hkept, hbroken⟩ := ih rfl hw₁ hrecords
          (by simpa using hleft) fun m hm ↦ hdepth m (List.mem_cons_of_mem j hm)
        exact ⟨fun h ↦ hkept h.2, fun h ↦ hbroken fun hk ↦ h ⟨hadmits, hk⟩⟩
    · obtain ⟨breach, blamed, hrefused⟩ := Ledger.enter_of_not_admits hledger hadmits
      rw [hrefused]
      exact ⟨fun h ↦ absurd h.admits.1 hadmits, fun _ ↦ ⟨breach, blamed, rfl⟩⟩

/-- A run of the machine to a value is a rewriting that keeps the discipline. -/
theorem rewrites_of_runFrom (hdet : Deterministic handler) (hw : w'.Alike w)
    (hledger : ledger.Records past)
    (h : ((runFrom handler limits left taken ledger i).outcome w').1 = .ok value) :
    ∃ steps, Rewrites handler w (.pending i) steps value ∧ Keeps past steps ∧
      steps.length ≤ left ∧ ∀ j ∈ steps, (j.caller.length : Int) ≤ limits.recursion := by
  induction left generalizing i w w' past ledger taken with
  | zero => cases h
  | succ left ih =>
    rw [outcome_runFrom_succ] at h
    cases henter : ledger.enter i with
    | error f =>
      rw [henter] at h
      cases h
    | ok entered =>
      obtain ⟨hadmits, hrecords⟩ := Ledger.admits_of_enter hledger henter
      rw [henter] at h
      dsimp only at h
      by_cases hdeep : limits.recursion < i.caller.length
      · rw [if_pos hdeep] at h
        cases h
      rw [if_neg hdeep] at h
      have hi : (i.caller.length : Int) ≤ limits.recursion := Int.not_lt.mp hdeep
      rcases hrun : (handler i.callee i.caller i.args).outcome (announced w' taken i)
        with ⟨_ | next, w₁'⟩
      · rw [hrun] at h
        cases h
      rw [hrun] at h
      dsimp only at h
      have hback : (announced w' taken i).Alike w := ⟨hw.nextFrame, hw.memory⟩
      obtain ⟨w₁, hrun₁, hw₁⟩ := hdet.outcome_alike hback hrun
      obtain hfinal | ⟨k, rfl⟩ := next.isFinal_or_pending
      · by_cases hkeeps : Keeps past [i]
        · rw [(proceed_last hrecords hadmits hfinal).1 hkeeps] at h
          cases h
          exact ⟨[i], .step hrun₁ (.final hfinal), hkeeps, by simp, by simpa using hi⟩
        · obtain ⟨breach, blamed, heq⟩ := (proceed_last hrecords hadmits hfinal).2 hkeeps
          rw [heq] at h
          cases h
      · obtain ⟨steps, hrest, hkeeps, hlength, hdepth⟩ := ih hw₁ hrecords h
        have hne : steps ≠ [] := by
          rintro rfl
          cases hrest with
          | final hk => exact hk k rfl
        refine ⟨i :: steps, .step hrun₁ hrest, (keeps_cons_iff hne).mpr ⟨hadmits, hkeeps⟩, ?_, ?_⟩
        · simpa using hlength
        · intro j hj
          rcases List.mem_cons.mp hj with rfl | hj
          · exact hi
          · exact hdepth j hj

/-- What the machine runs to a value, a trace of as many steps shows to that value; and the steps
that it shows keep the discipline. -/
theorem trace_of_runFrom (hdet : Deterministic handler)
    (h : ((runFrom handler limits left taken .empty i).outcome w).1 = .ok value) :
    ∃ steps, Disciplined steps ∧ ((trace handler left (.pending i)).run w).1 =
      (steps.map TraceRow.ofInvocation, .value value) := by
  obtain ⟨steps, hrest, hkeeps, hlength, -⟩ :=
    rewrites_of_runFrom hdet (.refl w) Ledger.records_empty h
  exact ⟨steps, keeps_nil_iff.mp hkeeps, trace_of_rewrites hrest hlength⟩

/-- **The machine enforces exactly the discipline.** A run within its limits gives a value if and
only if the unchecked rewriting reaches that value by disciplined steps. If the rewriting reaches a
value by other steps, the run ends in a breach of the protocol. -/
theorem run_eq_ok_iff_disciplined (hdet : Deterministic handler) (start : Value) :
    (∀ value, ((run handler limits start).outcome w).1 = .ok value ↔
      ∃ steps, Rewrites handler w start steps value ∧ Within limits steps ∧ Disciplined steps) ∧
    ∀ steps value, Rewrites handler w start steps value → Within limits steps →
      ¬ Disciplined steps → ∃ breach blamed,
        ((run handler limits start).outcome w).1 = .error (.breach breach blamed) := by
  obtain hfinal | ⟨i, rfl⟩ := start.isFinal_or_pending
  · have hrun : ((run handler limits start).outcome w).1 = .ok start := by
      cases start with
      | pending i => exact absurd rfl (hfinal i)
      | _ => exact outcome_finish
    have hsteps : ∀ steps value, Rewrites handler w start steps value →
        steps = [] ∧ value = start := by
      intro steps value h
      cases h with
      | final => exact ⟨rfl, rfl⟩
      | step => exact absurd rfl (hfinal _)
    have hnone : Disciplined [] := keeps_nil_iff.mp ⟨trivial, by simp, by simp [InChain]⟩
    refine ⟨fun value ↦ ⟨fun h ↦ ?_, ?_⟩, fun steps value h _ hbroken ↦ ?_⟩
    · rw [hrun] at h
      cases h
      exact ⟨[], .final hfinal, ⟨by simp, by simp⟩, hnone⟩
    · rintro ⟨steps, h, -, -⟩
      rw [hrun, (hsteps steps value h).2]
    · rw [(hsteps steps value h).1] at hbroken
      exact absurd hnone hbroken
  · refine ⟨fun value ↦ ⟨fun h ↦ ?_, ?_⟩, fun steps value h hwithin hbroken ↦ ?_⟩
    · obtain ⟨steps, hrest, hkeeps, hlength, hdepth⟩ :=
        rewrites_of_runFrom hdet (.refl w) Ledger.records_empty h
      exact ⟨steps, hrest, ⟨hlength, hdepth⟩, keeps_nil_iff.mp hkeeps⟩
    · rintro ⟨steps, h, hwithin, hdisciplined⟩
      exact (runFrom_of_rewrites hdet h rfl (.refl w) Ledger.records_empty hwithin.length_le
        hwithin.depth_le).1 (keeps_nil_iff.mpr hdisciplined)
    · exact (runFrom_of_rewrites hdet h rfl (.refl w) Ledger.records_empty hwithin.length_le
        hwithin.depth_le).2 (mt keeps_nil_iff.mp hbroken)

/-- A step that asks whether a token is a comma, for the branch between two steps. -/
def asksComma (t : Token) (onTrue onFalse : Value) : Value :=
  .pending ⟨Predicate.isComma.callee,
    [⟨0, branchReturn, [⟨"true", onTrue⟩, ⟨"false", onFalse⟩]⟩], [.ofTokens "input" [t]], none⟩

/-- The return of nothing to the frame of a number. -/
def resumes (id : Nat) : Value :=
  .pending ⟨identityReturn, [], [⟨"output", .nothing⟩], some ⟨id, identityReturn, []⟩⟩

/-- The callee that shows its arguments ends a run if it answers to no one, and breaks the protocol
if a frame still waits. A branch resumes its own frame, the frame `0`; so the step that it gives
back may resume the frame `1` and not the frame `0`. -/
theorem run_debug_disciplined :
    ((run Registry.standard.handler ⟨4, 4⟩ (.pending ⟨Destinations.debugReturn, [],
      [.ofTokens "answer" (boolean true)], none⟩)).outcome (.initial ())).1 =
        .ok (.text "answer = [\x7b true \x7d]") ∧
    (∃ breach blamed, ((run Registry.standard.handler ⟨4, 4⟩ (.pending ⟨Destinations.debugReturn,
      [⟨1, identityReturn, []⟩], [], none⟩)).outcome (.initial ())).1 =
        .error (.breach breach blamed)) ∧
    ((run Registry.standard.handler ⟨4, 4⟩ (asksComma (.leaf .punct "," none) (resumes 1)
      (resumes 0))).outcome (.initial ())).1 = .ok .nothing ∧
    ∃ breach blamed, ((run Registry.standard.handler ⟨4, 4⟩ (asksComma (.leaf .ident "x" none)
      (resumes 1) (resumes 0))).outcome (.initial ())).1 = .error (.breach breach blamed) := by
  have hdet : Deterministic (Registry.standard (σ := Unit)).handler :=
    deterministic_standardAnd (by simp)
  refine ⟨?_, ?_, ?_, ?_⟩
  · refine ((run_eq_ok_iff_disciplined hdet _).1 _).mpr ⟨[_], .step rfl (.final ?_), ?_, ?_⟩
    · rintro i ⟨⟩
    · exact ⟨by decide, by simp⟩
    · exact keeps_nil_iff.mp (keeps_singleton_iff.mpr ⟨⟨by simp, by simp⟩, rfl, by simp [InChain]⟩)
  · refine (run_eq_ok_iff_disciplined hdet _).2 [_] (.text "") (.step rfl (.final ?_)) ?_ ?_
    · rintro i ⟨⟩
    · exact ⟨by decide, by simp⟩
    · intro h
      cases h.uncalled _ rfl
  · refine ((run_eq_ok_iff_disciplined hdet _).1 _).mpr
      ⟨[_, _, _], .step rfl (.step rfl (.step rfl (.final ?_))), ⟨by decide, by simp⟩, ?_⟩
    · rintro i ⟨⟩
    · rw [← keeps_nil_iff, keeps_cons_iff (by simp), keeps_cons_iff (by simp), keeps_singleton_iff]
      exact ⟨⟨by simp, by simp [firedIds]⟩, ⟨by simp [firedIds], by simp⟩,
        ⟨by simp [firedIds], by simp⟩, rfl, by simp [InChain, firedIds]⟩
  · refine (run_eq_ok_iff_disciplined hdet _).2 [_, _, _] .nothing
      (.step rfl (.step rfl (.step rfl (.final ?_)))) ⟨by decide, by simp⟩ ?_
    · rintro i ⟨⟩
    · intro h
      exact absurd h.firedOnce (by decide)

end Machine

end Expander
