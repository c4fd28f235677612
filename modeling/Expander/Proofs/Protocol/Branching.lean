import Mathlib.Tactic.SplitIfs
import Expander.Proofs.Grammar.Blindness
import Expander.Proofs.Protocol.Evaluation
import Expander.Proofs.Protocol.Renumbering

/-!
# A branch is the step that it chooses

A branch runs a predicate for a frame of its own, which holds both steps and answers to no one. When
the predicate has given its answer to that frame, nothing waits any longer, and no frame was resumed
that is older than the branch. So the run of the chosen step goes on as if nothing had been run
before (`branch_is_chosen`): the frames that it makes have higher numbers, and the steps of the
predicate and of the branch are taken from the limit. Of the other step nothing is left.

What is asked of the predicate is that it decides (`Decides`), and of all callees that they depend
on nothing but their callers and arguments (`Handler.Uniform`). The standard callees are such, since
they are blind (`blind_standard`), and each predicate among them decides on a token
(`Predicate.decides`).
-/

set_option autoImplicit false

namespace Expander

variable {σ α : Type}

/-! ### Numbers that make room for others -/

/-- The numbers from `n` on, raised by `k`. -/
def raise (n k i : Nat) : Nat := if i < n then i else i + k

/-- To make room does not confuse numbers, nor change their order. -/
theorem strictMono_raise (n k : Nat) : StrictMono (raise n k) := by
  intro i j hij
  unfold raise
  split_ifs <;> omega

/-- The numbers of frames that are there already stay. -/
theorem raise_of_lt {n k i : Nat} (h : i < n) : raise n k i = i := if_pos h

/-- No number is raised to one of those that room was made for. -/
theorem raise_lt_or_le (n k i : Nat) : raise n k i < n ∨ n + k ≤ raise n k i := by
  unfold raise
  split_ifs <;> omega

/-- A world that has given out more numbers is one with room made for them. -/
theorem World.renumbers_raise {w w' : World σ} (h : w.nextFrame ≤ w'.nextFrame) :
    w.Renumbers (raise w.nextFrame (w'.nextFrame - w.nextFrame)) w' := by
  intro j
  rw [raise, if_neg (Nat.not_lt.mpr (Nat.le_add_right _ j))]
  omega

/-- A ledger in which nothing waits, and nothing was resumed that is given a number, is as good as
empty. -/
theorem Ledger.recasts_settled {R : Recasting} {l : Ledger} (hfired : ∀ n, R.number n ∉ l.fired)
    (hlive : ∀ n, n ∉ l.live) : Recasts R .empty l where
  fired n := by simp [empty, hfired n]
  live n := by simp [empty, Std.TreeMap.getElem?_eq_none (hlive (R.number n))]
  numbered n hn := absurd hn (hlive n)

namespace Machine

variable {handler : Callee → Handler σ}

/-- Behind a step without callers that gives a step made before, a run goes on as the run of that
step begins. -/
theorem recasts_start {R : Recasting} (hR : StrictMono R.number) {l : Ledger}
    (hledger : Ledger.empty.Recasts R l) {w w' : World σ} (hworld : w.Renumbers R.number w')
    {value : Value} (hvalue : value.recast R = value) (taken : Nat) {i : Invocation}
    (hcaller : i.caller = []) :
    (Stage.start w value).Recasts R (.behind l taken i (.ok value, w')) := by
  have hempty : Ledger.empty.close = .ok () := rfl
  have hfinal : ((Stage.conclude l taken i value).outcome w').1 =
      R.result (Value.recast R) ((finish .empty 0 value : Action σ Value).outcome w).1 := by
    rw [outcome_conclude, hcaller, outcome_finish, hledger.close hR, hempty]
    exact congrArg Except.ok hvalue.symm
  cases value with
  | pending next =>
    rw [Value.recast_pending, Value.pending.injEq] at hvalue
    have hattempts : (Stage.attempts 0 .empty next w).Recasts R
        (.attempts (taken + 1) l (next.recast R) w') := .attempts hledger hworld
    rwa [hvalue] at hattempts
  | tokens | text | nothing | outputs => exact .ended hfinal

/-! ### Predicates that decide -/

/-- The step that runs a predicate on tokens for a frame. -/
def asking (p : Callee) (x : List Token) (k : Frame) : Value :=
  .pending ⟨p, [k], [.ofTokens "input" x], none⟩

/-- A predicate that was run for a frame gives it its answer: behind `m` steps the frame is resumed
with one output, which holds a truth value and goes by no name of a branch. By then no frame was
resumed but such as were made meanwhile, and no other frame waits. -/
structure Answers (handler : Callee → Handler σ) (p : Callee) (x : List Token) (b : Bool) (m r : Nat)
    (w : World σ) (k : Frame) (name : String) (answer : List Token) (ledger : Ledger)
    (w' : World σ) : Prop where
  resumes : stage handler (asking p x k) w m =
    .attempts m ledger (k.resumed [] [.ofTokens name answer]) w'
  boolean : Token.sameAll answer (boolean b) = true
  free : name ≠ "true" ∧ name ≠ "false"
  fired : ∀ n ∈ ledger.fired, w.nextFrame ≤ n ∧ n < w'.nextFrame
  live : ∀ n ∈ ledger.live, n = k.id
  numbered : w.nextFrame ≤ w'.nextFrame
  depth_le : ∀ j < m, ∀ d, (stage handler (asking p x k) w j).depth? = some d → d ≤ r

/-- A predicate decides for a truth value on tokens, in `m` steps on chains of at most `r` frames:
it gives that answer to any frame that was made before, answers to no one, and has a state of names
that no output of the predicate has. -/
structure Decides (handler : Callee → Handler σ) (p : Callee) (x : List Token) (b : Bool)
    (m r : Nat) : Prop where
  declared : ∀ names, p.outputs = some names → "true" ∉ names ∧ "false" ∉ names
  answers : ∀ (w : World σ) (k : Frame), k.id < w.nextFrame → (shape k.state).Nodup →
    (∀ n ∈ shape k.state, n = "true" ∨ n = "false") →
      ∃ name answer ledger w', Answers handler p x b m r w k name answer ledger w'

end Machine

open Machine

/-! ### Branches -/

/-- The answer of a predicate chooses between the two branches, and answers compare as they are
spelled. -/
theorem chosen_of_sameAll {onTrue onFalse : Value} {name : String} {answer : List Token} {b : Bool}
    (h : Token.sameAll answer (boolean b) = true) :
    Destinations.chosen [⟨"true", onTrue⟩, ⟨"false", onFalse⟩, .ofTokens name answer] =
      .ok (if b then onTrue else onFalse) := by
  rw [Token.sameAll_iff_map] at h
  have hanswer : ∀ c, Destinations.isBoolean c (.tokens answer) = decide (b = c) := by
    intro c
    rw [Destinations.isBoolean, Bool.eq_iff_iff, Token.sameAll_iff_map, h]
    cases b <;> cases c <;> simp [boolean, Token.erase]
  cases b <;> simp [Destinations.chosen, Argument.ofTokens, hanswer]

/-- The frame of a branch that is made in a world. -/
def branchFrame (w : World σ) (onTrue onFalse : Value) : Frame :=
  ⟨w.nextFrame, branchReturn, [⟨"true", onTrue⟩, ⟨"false", onFalse⟩]⟩

section

variable {handler : Callee → Handler σ} {scope : Registry α} {condition : CalleeRef} {p : Callee}
  {x : List Token} {b : Bool} {m r : Nat} {onTrue onFalse : Value} {w : World σ}

/-- A branch asks its predicate first, with a frame behind it that keeps both branches. -/
theorem outcome_branch (hcondition : scope.resolve condition = .ok p)
    (hdeclared : ∀ names, p.outputs = some names → "true" ∉ names ∧ "false" ∉ names) :
    (branch scope condition x onTrue onFalse).outcome w =
      (.ok (asking p x (branchFrame w onTrue onFalse)),
        { w with nextFrame := w.nextFrame + 1 }) := by
  have hcall : callFor p [branchFrame w onTrue onFalse] (.ok [.ofTokens "input" x]) =
      .ok (asking p x (branchFrame w onTrue onFalse)) := by
    refine callFor_cons (List.nodup_singleton _) fun names hnames n hn ↦ ?_
    obtain ⟨htrue, hfalse⟩ := hdeclared names hnames
    rcases List.mem_pair.mp hn with rfl | rfl
    · exact htrue
    · exact hfalse
  simp only [branch, call, Destination.open, hcondition, Action.outcome_bind, Action.outcome_frame,
    Action.outcome_lift, Action.outcome_pure]
  rw [← branchFrame, hcall]

/-- When the predicate has answered, the run goes on as that of the chosen step begins. -/
theorem Machine.Answers.recasts_stage {name : String} {answer : List Token} {ledger : Ledger}
    {w₁ w' : World σ} (hw : w₁.nextFrame = w.nextFrame + 1)
    (h : Answers handler p x b m r w₁ (branchFrame w onTrue onFalse) name answer ledger w')
    (hbranch : ∀ args, handler branchReturn [] args = liftM (Destinations.chosen args))
    (hchosen : (if b then onTrue else onFalse).Below w.nextFrame) :
    (Stage.start w (if b then onTrue else onFalse)).Recasts
      (.numbering (raise w.nextFrame (w'.nextFrame - w.nextFrame)))
      (stage handler (asking p x (branchFrame w onTrue onFalse)) w₁ (m + 1)) := by
  let ρ := raise w.nextFrame (w'.nextFrame - w.nextFrame)
  let i := (branchFrame w onTrue onFalse).resumed [] [.ofTokens name answer]
  let settled : Ledger := ⟨ledger.fired.insert w.nextFrame, ledger.live.erase w.nextFrame⟩
  have hfresh : w.nextFrame ∉ ledger.fired := by
    intro hmem
    have hlow := (h.fired _ hmem).1
    omega
  have henter : ledger.enter i = .ok settled := by
    rw [Ledger.enter_eq]
    exact congrArg (· >>= _) (Ledger.fire_of_notMem hfresh)
  -- The frames that were resumed are the branch's own and those made for the predicate.
  have hfired : ∀ n, ρ n ∉ settled.fired := by
    intro n hn
    have hplace : ρ n < w.nextFrame ∨ w.nextFrame + (w'.nextFrame - w.nextFrame) ≤ ρ n :=
      raise_lt_or_le ..
    have hlater := h.numbered
    rcases Std.TreeSet.mem_insert.mp hn with heq | hmem
    · rw [Nat.compare_eq_eq] at heq
      omega
    · have hmade := h.fired _ hmem
      omega
  have hlive : ∀ n, n ∉ settled.live := by
    intro n hn
    obtain ⟨hne, hmem⟩ := Std.TreeMap.mem_erase.mp hn
    exact hne (Nat.compare_eq_eq.mpr (h.live n hmem).symm)
  have hempty : Ledger.empty.Recasts (.numbering ρ) settled := Ledger.recasts_settled hfired hlive
  have hlater : w.Renumbers ρ w' := World.renumbers_raise (by have := h.numbered; omega)
  have hworld : w.Renumbers ρ (announced w' m i) := hlater
  have hrun : (handler i.callee i.caller i.args).outcome (announced w' m i) =
      (.ok (if b then onTrue else onFalse), announced w' m i) := by
    have hgives : handler i.callee i.caller i.args =
        liftM (.ok (if b then onTrue else onFalse) : Except Failure Value) :=
      (hbranch _).trans (congrArg _ (chosen_of_sameAll h.boolean))
    rw [hgives, Action.outcome_lift]
  rw [stage, Function.iterate_succ_apply', ← stage, h.resumes, Stage.advance_of_enter henter, hrun]
  exact recasts_start (strictMono_raise _ _) hempty hworld
    (Value.recast_of_below (fun _ ↦ raise_of_lt) _ hchosen) m rfl

/-! ### Predicates of the library -/

/-- A predicate does nothing but return its answer. -/
theorem Predicate.handler_eq (p : Predicate) (caller : Chain) (args : List Argument) :
    (p.rule.handler caller args : Action σ Value) = liftM (p.onlyToken args >>=
      fun t ↦ returnTo caller (.ok [.ofTokens p.output (boolean (p.test t))])) := by
  rw [Rule.handler, Predicate.rule]
  cases p.onlyToken args <;> rfl

/-- A predicate decides on one token, in one step, as its test does. -/
theorem Predicate.decides (p : Predicate) (t : Token)
    (hhandler : handler p.callee = p.rule.handler) :
    Decides handler p.callee [t] (p.test t) 1 1 := by
  refine ⟨fun names hnames ↦ ?_, fun w k hk hnodup hnames ↦ ?_⟩
  · cases hnames
    cases p <;> decide
  let i : Invocation := ⟨p.callee, [k], [.ofTokens "input" [t]], none⟩
  let entered : Ledger := { Ledger.empty with live := Ledger.empty.live.insertIfNew k.id k }
  have henter : Ledger.empty.enter i = .ok entered := by
    rw [Ledger.enter_eq]
    have hunused : k.id ∉ Ledger.empty.fired := by simp [Ledger.empty]
    exact congrArg (· >>= _) (Ledger.watch_of_notMem hunused)
  have hfree : p.output ≠ "true" ∧ p.output ≠ "false" := by cases p <;> decide
  have hall : (shape (k.state ++ [.ofTokens p.output (boolean (p.test t))])).Nodup := by
    have hother : p.output ∉ shape k.state := fun hmem ↦
      (hnames _ hmem).elim hfree.1 hfree.2
    rw [shape, List.map_append, List.nodup_append_comm]
    exact List.nodup_cons.mpr ⟨hother, hnodup⟩
  have hrun : (handler i.callee i.caller i.args).outcome (announced w 0 i) =
      (.ok (.pending (k.resumed [] [.ofTokens p.output (boolean (p.test t))])),
        announced w 0 i) := by
    have hgives : handler i.callee i.caller i.args = liftM (p.onlyToken i.args >>=
        fun t ↦ returnTo [k] (.ok [.ofTokens p.output (boolean (p.test t))])) :=
      (congrFun₂ hhandler _ _).trans (p.handler_eq _ _)
    have hasked : p.onlyToken i.args = .ok t := rfl
    rw [hgives, hasked, Action.outcome_lift]
    exact congrArg (·, _) (returnTo_cons hall)
  refine ⟨p.output, boolean (p.test t), entered, announced w 0 i, ?_, ?_, hfree, ?_, ?_, ?_, ?_⟩
  · exact (Stage.advance_of_enter henter).trans (congrArg (Stage.behind entered 0 i) hrun)
  · exact Token.sameAll_iff_map.mpr rfl
  · intro n hn
    simp [entered, Ledger.empty] at hn
  · intro n hn
    simp [entered, Ledger.empty] at hn
    exact hn.symm
  · exact Nat.le_refl _
  · intro j hj d hd
    obtain rfl : j = 0 := Nat.lt_one_iff.mp hj
    have hdepth : (Stage.attempts 0 .empty i w).depth? = some 1 := by
      rw [Stage.depth?, henter]
      rfl
    exact Nat.le_of_eq (Option.some.inj (hd.symm.trans hdepth))

/-- **A branch is the step that it chooses.** A branch asks its predicate for a frame of its own. If
the predicate decides in `m` steps, the steps behind these and the branch's own are those of the
chosen step, with higher numbers for the frames that they make: the other step is never taken. So
under a limit of `m + 1` steps more, and one of depth that the predicate keeps to, the run comes to
what the run of the chosen step comes to. -/
theorem branch_is_chosen (hcondition : scope.resolve condition = .ok p)
    (hhandler : ∀ c, (handler c).Uniform)
    (hbranch : ∀ args, handler branchReturn [] args = liftM (Destinations.chosen args))
    (hdecides : Decides handler p x b m r)
    (hchosen : (if b then onTrue else onFalse).Below w.nextFrame) :
    (branch scope condition x onTrue onFalse).outcome w =
      (.ok (asking p x (branchFrame w onTrue onFalse)), { w with nextFrame := w.nextFrame + 1 }) ∧
    ∃ k, (∀ n, (stage handler (asking p x (branchFrame w onTrue onFalse))
          { w with nextFrame := w.nextFrame + 1 } (m + 1 + n)).next? =
        (stage handler (if b then onTrue else onFalse) w n).next?.map
          (Invocation.renumber (raise w.nextFrame k))) ∧
      ∀ recursion steps : Int, r ≤ recursion → 0 ≤ steps →
        AlikeOutcome (raise w.nextFrame k) steps (steps + m + 1)
          ((run handler ⟨recursion, steps⟩ (if b then onTrue else onFalse)).outcome w).1
          ((branch scope condition x onTrue onFalse >>=
            run handler ⟨recursion, steps + m + 1⟩).outcome w).1 := by
  let w₁ : World σ := { w with nextFrame := w.nextFrame + 1 }
  let frame := branchFrame w onTrue onFalse
  obtain ⟨name, answer, ledger, w', hanswers⟩ := hdecides.answers w₁ frame (Nat.lt_succ_self _)
    (by simp [frame, branchFrame, shape]) (by simp [frame, branchFrame, shape])
  have hstart : (branch scope condition x onTrue onFalse).outcome w = (.ok (asking p x frame), w₁) :=
    outcome_branch hcondition hdecides.declared
  have hρ := strictMono_raise w.nextFrame (w'.nextFrame - w.nextFrame)
  have halike := hanswers.recasts_stage rfl hbranch hchosen
  refine ⟨hstart, w'.nextFrame - w.nextFrame, fun n ↦ ?_,
    fun recursion steps hrecursion hsteps ↦ ?_⟩
  · have hlater := (halike.iterate hρ (fun c ↦ (hhandler c).recasts hρ) n).next?_eq
    rwa [stage, ← Function.iterate_add_apply, Nat.add_comm n (m + 1)] at hlater
  · have hallowed : ∀ j < m + 1, ∀ d,
        (stage handler (asking p x frame) w₁ j).depth? = some d → (d : Int) ≤ recursion := by
      intro j hj d hd
      rcases Nat.lt_succ_iff_lt_or_eq.mp hj with hlt | rfl
      · exact (Int.ofNat_le.mpr (hanswers.depth_le j hlt d hd)).trans hrecursion
      · have hzero : d = 0 := by
          rw [hanswers.resumes, Stage.depth?] at hd
          split at hd
          · exact (Option.some.inj hd).symm
          · cases hd
        omega
    have hsum : (steps + m + 1).toNat = steps.toNat + (m + 1) := by omega
    have hrun : (branch scope condition x onTrue onFalse >>=
        run handler ⟨recursion, steps + m + 1⟩).outcome w =
          (stage handler (asking p x frame) w₁ (m + 1)).run handler ⟨recursion, steps + m + 1⟩
            steps.toNat := by
      rw [Action.outcome_bind, hstart]
      dsimp only
      rw [Stage.run_start]
      dsimp only
      rw [hsum]
      exact Stage.run_iterate (m + 1) hallowed
    rw [hrun, Stage.run_start]
    exact halike.alikeOutcome hρ hhandler recursion steps (steps + m + 1) steps.toNat

end

/-- The standard callees in a run that remembers nothing. -/
def standardRegistry : Registry (Handler Unit) := .standard

/-- A step that returns tokens to the first frame of a world. -/
def returned (ts : List Token) : Value :=
  .pending ((Frame.mk 1 identityReturn []).resumed [] [.ofTokens "branch" ts])

/-- Both steps return to one frame, and one of them does. -/
theorem branch_is_chosen_shared :
    (∀ c, (standardRegistry.handler c).Uniform) ∧
    (∃ m r, Decides standardRegistry.handler Predicate.isComma.callee [.leaf .punct "," none] true
      m r) ∧
    ((branch standardRegistry (.name "tt_is_comma") [.leaf .punct "," none]
      (returned (boolean true)) (returned (boolean false)) >>=
        run standardRegistry.handler ⟨1, 1 + (1 : Nat) + 1⟩).outcome ⟨2, [], ()⟩).1 =
          .ok (.tokens (boolean true)) := by
  have huniform : ∀ c, (standardRegistry.handler c).Uniform :=
    fun c ↦ (Registry.blind_handler blind_standard c).uniform
  have hbranch : ∀ args, standardRegistry.handler branchReturn [] args =
      liftM (Destinations.chosen args) := fun _ ↦ rfl
  have hdecides : Decides standardRegistry.handler Predicate.isComma.callee
      [.leaf .punct "," none] true 1 1 := Predicate.isComma.decides _ rfl
  have hbelow : (returned (boolean true)).Below 2 := by
    simp [returned, Frame.resumed, Argument.ofTokens, Value.Below, Invocation.Below, Frame.AllBelow,
      Argument.AllBelow, Argument.Below, Frame.OptionBelow, Frame.Below]
  obtain ⟨-, k, -, halike⟩ := @branch_is_chosen Unit _ _ standardRegistry (.name "tt_is_comma") _ _
    true 1 1 (returned (boolean true)) (returned (boolean false)) ⟨2, [], ()⟩ rfl huniform hbranch
    hdecides hbelow
  refine ⟨huniform, ⟨1, 1, hdecides⟩, ?_⟩
  have hrun := halike 1 1 (by decide) (by decide)
  have hfirst : ((run standardRegistry.handler ⟨1, 1⟩ (returned (boolean true))).outcome
      ⟨2, [], ()⟩).1 = .ok (.tokens (boolean true)) := rfl
  generalize ((branch _ _ _ _ _ >>= _ : Action Unit Value).outcome _).1 = result at hrun ⊢
  rw [if_pos rfl, hfirst] at hrun
  cases hrun
  simp [Except.map]

end Expander
