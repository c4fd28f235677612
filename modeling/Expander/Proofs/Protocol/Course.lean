import Expander.Proofs.Protocol.Limits
import Expander.Proofs.Protocol.Points

/-!
# The course of a run of rules

The machine goes through the stages that the evaluation of rules says (`Evaluates.courses`): its
steps have the depths of the evaluation above the chain that the call answers to, and it ends with
the failure or comes to the step that gives the outputs to that chain. Nothing else of the chain
enters.

The induction is on the evaluation. What carries it is that the machine stays sound, so the ledger
refuses no step, and that behind every part of it the run has come to a return (`Stage.Returns`).
-/

set_option autoImplicit false

namespace Expander

variable {σ : Type}

namespace Machine

/-! ### Steps of some depths -/

/-- A run without limits goes from one stage to another by steps of some depths, counted from the
depth of a chain on. -/
inductive Stage.Goes (handler : Callee → Handler σ) (depth : Nat) :
    Stage σ → List Nat → Stage σ → Prop
  | stays {s : Stage σ} : Goes handler depth s [] s
  | steps {s t : Stage σ} {d : Nat} {ds : List Nat} (hd : s.depth? = some (depth + d))
      (h : Goes handler depth (s.advance handler) ds t) : Goes handler depth s (d :: ds) t

namespace Stage

variable {handler : Callee → Handler σ} {depth : Nat} {s t u : Stage σ} {ds ds' : List Nat}

/-- Steps and further steps make up one course. -/
theorem Goes.trans (h : Goes handler depth s ds t) (h' : Goes handler depth t ds' u) :
    Goes handler depth s (ds ++ ds') u := by
  induction h with
  | stays => exact h'
  | steps hd _ ih => exact .steps hd (ih h')

/-- A course above some depth is one above a lesser depth, the steps being as much deeper. -/
theorem Goes.shift {k : Nat} (h : Goes handler (depth + k) s ds t) :
    Goes handler depth s (ds.map (· + k)) t := by
  induction h with
  | stays => exact .stays
  | @steps s t d ds hd _ ih =>
    refine .steps ?_ ih
    rw [hd, Nat.add_assoc, Nat.add_comm k d]

/-- A course takes as many steps as it has depths. -/
theorem Goes.iterate (h : Goes handler depth s ds t) :
    (advance handler)^[ds.length] s = t := by
  induction h with
  | stays => rfl
  | steps _ _ ih => exact ih

/-- Each step of a course is as deep as the course says. -/
theorem Goes.depth? (h : Goes handler depth s ds t) {m : Nat} (hm : m < ds.length) :
    ((advance handler)^[m] s).depth? = some (depth + ds[m]) := by
  induction h generalizing m with
  | stays => cases hm
  | steps hd _ ih =>
    cases m with
    | zero => exact hd
    | succ m => exact ih (Nat.lt_of_succ_lt_succ hm)

end Stage

/-! ### Steps of a sound machine -/

namespace Point

/-- The stage at which a machine is. -/
def stage (p : Point σ) : Stage σ := .attempts p.taken p.ledger p.next p.world

variable {handler : Callee → Handler σ} {p : Point σ} {past : List Invocation} {w : World σ}

/-- A sound point is admitted by its ledger, which then records the call. -/
theorem Sound.exists_entered (h : p.Sound past) : ∃ entered, p.ledger.enter p.next = .ok entered ∧
    entered.Records (past ++ [p.next]) :=
  Ledger.enter_of_admits h.records h.admits

/-- A sound point is as deep as frames wait. -/
theorem Sound.depth? (h : p.Sound past) : p.stage.depth? = some p.next.caller.length := by
  obtain ⟨entered, henter, -⟩ := h.exists_entered
  simp only [stage, Stage.depth?, henter]

/-- A callee that fails ends the run. -/
theorem Sound.advance_fails (h : p.Sound past) {f : Failure}
    (hresult : (handler p.next.callee p.next.caller p.next.args).outcome
      (announced p.world p.taken p.next) = (.error f, w)) :
    p.stage.advance handler = .ended (.error f, w) := by
  obtain ⟨entered, henter, -⟩ := h.exists_entered
  simp only [stage, Stage.advance, henter, hresult]

/-- A step that gives a further step leads to a sound machine again. -/
theorem Sound.advance_pending (h : p.Sound past) {next : Invocation} {rs : List Resumption}
    (hresult : (handler p.next.callee p.next.caller p.next.args).outcome
      (announced p.world p.taken p.next) = (.ok (.pending next), w))
    (hframes : next.frames = Expander.numbered p.world.nextFrame rs ++ p.next.caller)
    (hworld : w.nextFrame = p.world.nextFrame + rs.length) :
    ∃ q : Point σ, q.Sound (past ++ [p.next]) ∧ q.next = next ∧
      p.stage.advance handler = q.stage := by
  obtain ⟨entered, henter, -⟩ := h.exists_entered
  refine ⟨⟨p.left, p.taken + 1, entered, next, w⟩, h.step henter hframes hworld, rfl, ?_⟩
  simp only [stage, Stage.advance, henter, hresult]

/-- A step that answers to no one ends a sound machine with what its callee gives. -/
theorem Sound.advance_last (h : p.Sound past) (hcaller : p.next.caller = [])
    {result : Except Failure Value} (hfinal : ∀ value, result = .ok value → value.IsFinal)
    (hresult : ((handler p.next.callee [] p.next.args).outcome
      (announced p.world p.taken p.next)).1 = result) :
    ∃ w, p.stage.advance handler = .ended (result, w) := by
  obtain ⟨entered, henter, hrecords⟩ := h.exists_entered
  have hclose : entered.close = .ok () := by
    refine (Ledger.close_eq_ok_iff hrecords).mpr fun n hn ↦ ?_
    rcases h.fired_or_waits hn with hn | ⟨f, hf, -⟩
    · exact hn
    · rw [hcaller] at hf
      exact absurd hf List.not_mem_nil
  rw [← hcaller] at hresult
  rcases hout : (handler p.next.callee p.next.caller p.next.args).outcome
      (announced p.world p.taken p.next) with ⟨_ | value, w⟩
  · rw [hout] at hresult
    exact ⟨w, hresult ▸ h.advance_fails hout⟩
  · rw [hout] at hresult
    have hadvance : p.stage.advance handler =
        .ended ((Stage.conclude entered p.taken p.next value).outcome w) := by
      simp only [stage, Stage.advance, henter, hout]
      cases value with
      | pending next => exact absurd rfl (hfinal _ hresult.symm next)
      | _ => rfl
    have hends : ((Stage.conclude entered p.taken p.next value).outcome w).1 = result := by
      rw [Stage.conclude, hcaller, List.isEmpty_nil, if_pos rfl, outcome_finish, hclose, ← hresult]
      rfl
    exact ⟨_, by rw [hadvance, ← hends]⟩

/-! ### Moves of a sound machine -/

section

variable {rule : Rule} {target : Callee} {outs targs : List Argument}

/-- Outputs that collide with nothing take a sound point to one where the nearest frame is
resumed. -/
theorem Sound.advance_gives (h : p.Sound past) (hc : handler p.next.callee = rule.handler)
    (hrule : rule p.next.args = .ok (.giveBack outs)) {frame : Frame} {outer : Chain}
    (hchain : p.next.caller = frame :: outer) (hnames : (shape (frame.state ++ outs)).Nodup) :
    ∃ q : Point σ, q.Sound (past ++ [p.next]) ∧ q.next = frame.resumed outer outs ∧
      p.stage.advance handler = q.stage := by
  have hresult : (handler p.next.callee p.next.caller p.next.args).outcome
      (announced p.world p.taken p.next) =
        (.ok (.pending (frame.resumed outer outs)), announced p.world p.taken p.next) := by
    rw [hc, outcome_handler_gives hrule, hchain, returnTo_cons hnames]
  have hframes : (frame.resumed outer outs).frames =
      Expander.numbered p.world.nextFrame [] ++ p.next.caller := by
    rw [hchain]
    rfl
  exact h.advance_pending hresult hframes rfl

/-- A tail call takes a sound point to one with the same frames waiting. -/
theorem Sound.advance_tails (h : p.Sound past) (hc : handler p.next.callee = rule.handler)
    (hrule : rule p.next.args = .ok (.tail target targs)) (hnames : (shape targs).Nodup) :
    ∃ q : Point σ, q.Sound (past ++ [p.next]) ∧ q.next = ⟨target, p.next.caller, targs, none⟩ ∧
      p.stage.advance handler = q.stage := by
  have hresult : (handler p.next.callee p.next.caller p.next.args).outcome
      (announced p.world p.taken p.next) =
        (.ok (.pending ⟨target, p.next.caller, targs, none⟩), announced p.world p.taken p.next) := by
    rw [hc, outcome_handler_tails hrule hnames]
  have hframes : p.next.caller = Expander.numbered p.world.nextFrame [] ++ p.next.caller := rfl
  exact h.advance_pending hresult hframes rfl

/-- A call takes a sound point to one with the new frames in front. -/
theorem Sound.advance_calls (h : p.Sound past) (hc : handler p.next.callee = rule.handler)
    {near : Resumption} {outer : List Resumption}
    (hrule : rule p.next.args = .ok (.call target targs near outer)) (hnames : (shape targs).Nodup)
    (hfree : ∀ names, target.outputs = some names → ∀ n ∈ shape near.state, n ∉ names) :
    ∃ q : Point σ, q.Sound (past ++ [p.next]) ∧ q.next = ⟨target,
        Expander.numbered p.world.nextFrame (near :: outer) ++ p.next.caller, targs, none⟩ ∧
      p.stage.advance handler = q.stage := by
  have hresult : (handler p.next.callee p.next.caller p.next.args).outcome
      (announced p.world p.taken p.next) =
        (.ok (.pending ⟨target, Expander.numbered p.world.nextFrame (near :: outer) ++ p.next.caller,
          targs, none⟩), { announced p.world p.taken p.next with
            nextFrame := p.world.nextFrame + (near :: outer).length }) := by
    rw [hc, outcome_handler_calls hrule hnames hfree]
    rfl
  exact h.advance_pending hresult rfl rfl

end

end Point

/-! ### What a run comes to -/

/-- A run has come to a return to a chain: it has ended with the failure, or it is about to resume
the nearest frame of the chain with the outputs. -/
def Stage.Returns (s : Stage σ) (chain : Chain) : Returned → Prop
  | .error f => ∃ w, s = .ended (.error f, w)
  | .ok outs => ∀ frame outer, chain = frame :: outer → (shape (frame.state ++ outs)).Nodup →
      ∃ (q : Point σ) (past : List Invocation), q.Sound past ∧
        q.next = frame.resumed outer outs ∧ s = q.stage

/-- What a run has to do for a task to come to a return by steps of some depths. -/
def Courses (handler : Callee → Handler σ) (ds : List Nat) (r : Returned) : Task → Prop
  | .run c args => ∀ (p : Point σ) (past : List Invocation), p.Sound past → p.next.callee = c →
      p.next.args = args → ∃ t, p.stage.Goes handler p.next.caller.length ds t ∧
        t.Returns p.next.caller r
  | .resume waiting returned => ∀ (s : Stage σ) (frames base : Chain),
      frames.map Frame.resumption = waiting → s.Returns (frames ++ base) returned →
        ∃ t, s.Goes handler base.length ds t ∧ t.Returns base r

/-- The first step of a sound machine, and what follows it. -/
theorem Point.Sound.courses {handler : Callee → Handler σ} {p : Point σ} {past : List Invocation}
    (h : p.Sound past) {ds : List Nat} {r : Returned}
    (hrest : ∃ t, (p.stage.advance handler).Goes handler p.next.caller.length ds t ∧
      t.Returns p.next.caller r) :
    ∃ t, p.stage.Goes handler p.next.caller.length (0 :: ds) t ∧ t.Returns p.next.caller r := by
  obtain ⟨t, hgoes, hreturns⟩ := hrest
  exact ⟨t, .steps h.depth? hgoes, hreturns⟩

end Machine

open Machine

/-- The machine goes as the evaluation says. -/
theorem Evaluates.courses {handler : Callee → Handler σ} {serves : Callee → Rule → Prop}
    (hserves : ∀ c rule, serves c rule → handler c = rule.handler) {task : Task} {ds : List Nat}
    {r : Returned} (h : Evaluates serves task ds r) : Courses handler ds r task := by
  induction h with
  | @fails c rule args f hc hrule =>
    rintro p past hp rfl rfl
    have hresult : (handler p.next.callee p.next.caller p.next.args).outcome
        (announced p.world p.taken p.next) = (.error f, announced p.world p.taken p.next) := by
      rw [hserves _ _ hc, outcome_handler_fails hrule]
    exact hp.courses ⟨_, .stays, _, hp.advance_fails hresult⟩
  | @gives c rule args outs hc hrule =>
    rintro p past hp rfl rfl
    refine hp.courses ⟨_, .stays, fun frame outer hchain hnames ↦ ?_⟩
    obtain ⟨q, hq, hnext, hadvance⟩ := hp.advance_gives (hserves _ _ hc) hrule hchain hnames
    exact ⟨q, _, hq, hnext, hadvance⟩
  | @tails c target rule args targs ds r hc hrule hnames hrest ih =>
    rintro p past hp rfl rfl
    obtain ⟨q, hq, hnext, hadvance⟩ := hp.advance_tails (hserves _ _ hc) hrule hnames
    have hcourse := ih q _ hq (by rw [hnext]) (by rw [hnext])
    rw [hnext, ← hadvance] at hcourse
    exact hp.courses hcourse
  | @calls c target rule args targs near outer ds ds' r r' hc hrule hnames hfree hcall hrest
      ihcall ihrest =>
    rintro p past hp rfl rfl
    obtain ⟨q, hq, hnext, hadvance⟩ := hp.advance_calls (hserves _ _ hc) hrule hnames hfree
    -- The callee answers to the new frames, which are resumed one by one behind it.
    obtain ⟨t, hgoes, hreturns⟩ := ihcall q _ hq (by rw [hnext]) (by rw [hnext])
    rw [hnext] at hgoes hreturns
    rw [List.length_append, length_numbered, Nat.add_comm, List.length_cons, ← hadvance] at hgoes
    obtain ⟨u, hgoes', hreturns'⟩ :=
      ihrest t _ p.next.caller (map_resumption_numbered _ _) hreturns
    exact hp.courses ⟨u, hgoes.shift.trans hgoes', hreturns'⟩
  | lost =>
    intro s frames base _ hreturns
    exact ⟨s, .stays, hreturns⟩
  | done =>
    intro s frames base hframes hreturns
    rw [List.map_eq_nil_iff] at hframes
    subst hframes
    exact ⟨s, .stays, hreturns⟩
  | @resumes near outer outs ds ds' r r' hnames hrun hrest ihrun ihrest =>
    intro s frames base hframes hreturns
    obtain ⟨frame, frames, rfl, rfl, rfl⟩ := List.map_eq_cons_iff.mp hframes
    obtain ⟨q, past, hq, hnext, rfl⟩ := hreturns frame (frames ++ base) rfl hnames
    obtain ⟨t, hgoes, hreturns⟩ := ihrun q past hq (by rw [hnext]; rfl) (by rw [hnext]; rfl)
    rw [hnext] at hreturns
    have hlength : q.next.caller.length = base.length + frames.length := by
      rw [hnext, Nat.add_comm]
      exact List.length_append
    rw [hlength] at hgoes
    obtain ⟨u, hgoes', hreturns'⟩ := ihrest t frames base rfl hreturns
    rw [List.length_map]
    exact ⟨u, hgoes.shift.trans hgoes', hreturns'⟩

end Expander
