import Expander.Proofs.Grammar.Acceptance

/-!
# The grammar does not see its callers

A nonterminal that is called on a sequence takes the same steps whatever it answers to: the depths
of these steps above the chain, and the fault or the outputs that they come to, are told by the
tokens alone (`callers_unseen`). So of two runs on the same tokens one faults where the other one
does, or both give the same outputs to their chains after as many steps, and the depths of these
steps differ as the lengths of the chains do.

The steps are those of the reading of the tokens, and that the machine takes them above any chain is
the course of the evaluation (`Evaluates.courses`).
-/

set_option autoImplicit false

namespace Expander

open Grammar Machine

variable {σ : Type}

/-! ### Nonterminals that are called on a sequence -/

/-- Nonterminals that are called on one sequence of tokens and nothing else. -/
inductive Opener
  | path
  | type
  | summed
  | bound
  | param
  | list (s : Sequence)
deriving DecidableEq, Repr

namespace Opener

def nonterminal : Opener → Nonterminal
  | path => .path
  | type => .type
  | summed => .typeWithPlus
  | bound => .bound
  | param => .genericParam
  | list s => s.owner

def name (o : Opener) : String := o.nonterminal.name

def outputs (o : Opener) : List String := o.nonterminal.outputs

/-- The name of the sequence. -/
def parameter : Opener → String
  | list _ => "tokens"
  | _ => "input"

def call (ts : List Token) : Opener → Call
  | path => .path ts
  | type => .type ts
  | summed => .summed ts
  | bound => .bound ts
  | param => .param ts
  | list s => .list s ts

/-- A run of a call on tokens. -/
def run (more : List (Callee × Handler σ)) (limits : Limits) (ts : List Token)
    (returnsTo : Destination) (o : Opener) : Action σ Value := do
  let step ← Expander.call (Registry.standardAnd more) (.name o.name)
    (.ok [.ofTokens o.parameter ts]) returnsTo
  Machine.run (Registry.standardAnd more).handler limits step

/-- The stage of a run without limits behind `n` steps. -/
def stage (more : List (Callee × Handler σ)) (ts : List Token) (returnsTo : Destination)
    (w : World σ) (o : Opener) (n : Nat) : Stage σ :=
  match (Expander.call (Registry.standardAnd more) (.name o.name)
    (.ok [.ofTokens o.parameter ts]) returnsTo).outcome w with
  | (.ok step, w') => Machine.stage (Registry.standardAnd more).handler step w' n
  | (.error f, w') => .ended (.error f, w')

variable (o : Opener) (ts : List Token)

/-- The call on a sequence is one of the nonterminal that it was opened for. -/
theorem owner_call : (o.call ts).owner = o.nonterminal := by
  cases o with
  | list s => cases s <;> rfl
  | _ => rfl

/-- The argument of the call is the sequence, by the name that the nonterminal has for it. -/
theorem args_call : (o.call ts).args = [.ofTokens o.parameter ts] := by
  cases o <;> rfl

theorem waiting_call : (o.call ts).waiting = [] := by
  cases o <;> rfl

theorem outputs_call : (o.call ts).outputs = o.outputs := by
  cases o <;> rfl

/-- No nonterminal has two outputs of one name. -/
theorem nodup_outputs : o.outputs.Nodup := by
  cases o with
  | list s => cases s <;> decide
  | _ => decide

/-- What is returned has the names that are declared. -/
theorem shape_of_returned {r : Parsed} {outs : List Argument}
    (h : (o.call ts).returned r = .ok outs) : shape outs = o.outputs := by
  cases r with
  | error f => cases h
  | ok parsed =>
    cases h
    rw [shape_given_outputs, outputs_call]

/-- Where anything is given back, it is a result and a rest. -/
theorem exists_outputs (h : o.outputs ≠ []) : o.parameter = "input" ∧
    ∃ name, o.outputs = [name, "rest"] ∧ name ≠ "rest" := by
  cases o with
  | list s => cases s <;> exact absurd rfl h
  | _ => exact ⟨rfl, _, rfl, by decide⟩

/-- On tokens that the lexer made, a call comes to a result or to a fault. -/
theorem exists_reads_call {file source : String} (hlex : lex file source = .ok ts) :
    ∃ ds r, Reads (o.call ts) ds r := by
  refine exists_reads (sound_of_input ?_ ?_ ?_)
  · cases o <;> exact regular_of_lex hlex
  · cases o <;> rfl
  · cases o <;> exact trivial

end Opener

/-! ### Continuations -/

/-- A frame with callers behind it that outputs of some names can be given to. Frames are made one
by one, so each has a number of its own; the names of the nearest state differ, as those of any
arguments do, and none of them is that of an output. -/
structure Awaits (names : List String) (w : World σ) (frame : Frame) (outer : Chain) : Prop where
  distinct : ((frame :: outer).map (·.id)).Nodup
  numbered : ∀ f ∈ frame :: outer, f.id < w.nextFrame
  state : (shape frame.state).Nodup
  free : ∀ n ∈ shape frame.state, n ∉ names

/-- A call that answers to a chain takes steps of some depths above it. Then it has ended with the
failure, or it is about to give the outputs to the nearest frame, and the ledger lets it. A run with
limits goes the same way unless it reaches one of them in these steps. -/
structure Opener.Answers (more : List (Callee × Handler σ)) (ts : List Token) (w : World σ)
    (frame : Frame) (outer : Chain) (ds : List Nat) (r : Returned) (o : Opener) : Prop where
  depths : ∀ m (hm : m < ds.length),
    (o.stage more ts (.chain frame outer) w m).depth? = some ((frame :: outer).length + ds[m])
  fails : ∀ f, r = .error f →
    ∃ w', o.stage more ts (.chain frame outer) w ds.length = .ended (.error f, w')
  gives : ∀ outs, r = .ok outs → ∃ taken ledger w',
    o.stage more ts (.chain frame outer) w ds.length =
      .attempts taken ledger (frame.resumed outer outs) w' ∧
    (o.stage more ts (.chain frame outer) w ds.length).depth? = some outer.length
  limited : ∀ limits, Fits limits limits.steps.toNat (frame :: outer).length ds →
    (o.run more limits ts (.chain frame outer)).outcome w =
      (o.stage more ts (.chain frame outer) w ds.length).run
        (Registry.standardAnd more).handler limits (limits.steps.toNat - ds.length)
  exceeds : ∀ limits, ¬ Fits limits limits.steps.toNat (frame :: outer).length ds →
    ∃ f, Exceeds limits limits.steps.toNat (frame :: outer).length ds f ∧
      ((o.run more limits ts (.chain frame outer)).outcome w).1 = .error f

section

variable {more : List (Callee × Handler σ)} {ts : List Token} {o : Opener} {ds : List Nat}
  {r : Parsed} {w : World σ} {frame : Frame} {outer : Chain}

/-- The machine in front of the first step of a call. -/
def Opener.point (ts : List Token) (w : World σ) (chain : Chain) (o : Opener) : Point σ :=
  ⟨0, 0, .empty, ⟨o.nonterminal.callee, chain, [.ofTokens o.parameter ts], none⟩, w⟩

/-- A run for a frame that awaits the outputs begins at a sound point. -/
theorem Awaits.sound (h : Awaits o.outputs w frame outer) (ts : List Token) :
    (o.point ts w (frame :: outer)).Sound [] where
  records := Ledger.records_empty
  distinct := h.distinct
  numbered := h.numbered
  pastNumbered := by simp
  fresh := by simp
  waiting := by simp [InChain]

/-- A call for such a frame is made without anything else. -/
theorem Awaits.outcome_call (h : Awaits o.outputs w frame outer) :
    (call (Registry.standardAnd more) (.name o.name) (.ok [.ofTokens o.parameter ts])
      (.chain frame outer)).outcome w =
        (.ok (.pending (o.point ts w (frame :: outer)).next), w) := by
  have hresolve : (Registry.standardAnd more).resolveName o.name = .ok o.nonterminal.callee :=
    resolveName_nonterminal o.nonterminal
  have hargs : (shape [Argument.ofTokens o.parameter ts]).Nodup := List.nodup_singleton _
  have hfree : ∀ names, o.nonterminal.callee.outputs = some names →
      ∀ n ∈ shape frame.state, n ∉ names := by
    rintro names hnames
    cases hnames
    exact h.free
  simp only [call, Registry.resolve, hresolve, Destination.open, Action.outcome_bind,
    Action.outcome_lift, Action.outcome_pure]
  rw [callFor_cons hargs hfree]
  rfl

/-- So the stages of the run are those of the machine from that point on. -/
theorem Awaits.stage_eq (h : Awaits o.outputs w frame outer) (n : Nat) :
    o.stage more ts (.chain frame outer) w n =
      (Stage.advance (Registry.standardAnd more).handler)^[n]
        (o.point ts w (frame :: outer)).stage := by
  rw [Opener.stage, h.outcome_call]
  rfl

/-- The run is that of the machine from that point on. -/
theorem Awaits.outcome_run (h : Awaits o.outputs w frame outer) (limits : Limits) :
    (o.run more limits ts (.chain frame outer)).outcome w =
      (o.point ts w (frame :: outer)).stage.run (Registry.standardAnd more).handler limits
        limits.steps.toNat := by
  rw [Opener.run, Action.outcome_bind, h.outcome_call]
  rfl

/-- The outputs do not collide with what the frame has kept. -/
theorem Awaits.nodup_resumed (h : Awaits o.outputs w frame outer) {outs : List Argument}
    (houts : shape outs = o.outputs) : (shape (frame.state ++ outs)).Nodup := by
  have hshape : shape (frame.state ++ outs) = shape frame.state ++ o.outputs := by
    rw [← houts]
    exact List.map_append
  rw [hshape, List.nodup_append]
  exact ⟨h.state, o.nodup_outputs, fun n hn n' hn' heq ↦ h.free n hn (heq ▸ hn')⟩

/-- The run of a call is the reading of its tokens, above any chain that can be given the
outputs. -/
theorem answers_of_reads (h : Reads (o.call ts) ds r) (hawaits : Awaits o.outputs w frame outer) :
    o.Answers more ts w frame outer ds ((o.call ts).returned r) := by
  have hevaluates := (evaluated_iff (o.waiting_call ts)).mp h.evaluated
  rw [o.owner_call, o.args_call] at hevaluates
  have hserves : ∀ c rule, Serves c rule → (Registry.standardAnd more).handler c = rule.handler :=
    fun _ _ ↦ handler_of_serves
  obtain ⟨t, hgoes, hreturns⟩ := hevaluates.courses hserves (o.point ts w (frame :: outer)) []
    (hawaits.sound ts) rfl rfl
  have hbehind : o.stage more ts (.chain frame outer) w ds.length = t := by
    rw [hawaits.stage_eq, hgoes.iterate]
  have hlimited := fun limits ↦ hgoes.limited limits limits.steps.toNat
  simp only [← hawaits.outcome_run] at hlimited
  refine ⟨fun m hm ↦ ?_, fun f hf ↦ ?_, fun outs houts ↦ ?_, fun limits ↦ ?_,
    fun limits ↦ (hlimited limits).2⟩
  · rw [hawaits.stage_eq]
    exact hgoes.depth? hm
  · rw [hf] at hreturns
    rw [hbehind]
    exact hreturns
  · rw [houts] at hreturns
    obtain ⟨q, past, hq, hnext, rfl⟩ :=
      hreturns frame outer rfl (hawaits.nodup_resumed (o.shape_of_returned ts houts))
    rw [hbehind, hq.depth?, hnext]
    exact ⟨_, _, _, by rw [← hnext]; rfl, rfl⟩
  · rw [hbehind]
    exact (hlimited limits).1

end

/-! ### The identity and what keeps outputs -/

/-- What a run of a call comes to. -/
def Opener.result (more : List (Callee × Handler σ)) (limits : Limits) (ts : List Token)
    (returnsTo : Destination) (w : World σ) (o : Opener) : Except Failure Value :=
  ((o.run more limits ts returnsTo).outcome w).1

section

variable {more : List (Callee × Handler σ)} {ts : List Token} {o : Opener} {ds : List Nat}
  {r : Parsed} {returnsTo : Destination} {last : Callee}
  {final : List Argument → Except Failure Value} {limits : Limits} {w : World σ}

/-- A run that no limit had a part in comes to what the destination makes of what was read. -/
theorem Opener.result_of_unlimited (houtputs : o.outputs ≠ []) (h : Reads (o.call ts) ds r)
    (hleads : returnsTo.LeadsTo (Registry.standardAnd more) last)
    (hfinishes : Finishes (Registry.standardAnd more) last final)
    (hlimits : Unlimited (o.result more limits ts returnsTo w)) :
    o.result more limits ts returnsTo w = (o.call ts).returned r >>= final := by
  obtain ⟨hparameter, name, hname, hrest⟩ := o.exists_outputs houtputs
  have hruns := runCall_evaluated (hparameter ▸ o.args_call ts) (o.waiting_call ts)
    ((o.outputs_call ts).trans hname) hrest h.evaluated hleads hfinishes limits w
  have hresult : o.result more limits ts returnsTo w =
      ((runCall (Registry.standardAnd more) limits (o.call ts).owner.name ts returnsTo).outcome w).1
      := by
    rw [Opener.result, Opener.run, hparameter, o.owner_call]
    rfl
  rw [← hresult] at hruns
  exact hruns.1 (fits_of_unlimited hruns.2 hlimits)

/-- What the identity makes of what was read, by what is kept of it. -/
theorem Opener.identity_of_kept (houtputs : o.outputs ≠ []) (r : Parsed)
    {identity kept : Except Failure Value}
    (hidentity : identity = (o.call ts).returned r >>= Destinations.identity)
    (hkept : kept = (o.call ts).returned r >>= fun outs ↦ .ok (.outputs outs)) :
    (∀ value, identity = .ok value ↔ ∃ first,
      value = .tokens first ∧ kept = .ok (.outputs (given o.outputs first []))) ∧
    ∀ first t rest, kept = .ok (.outputs (given o.outputs first (t :: rest))) →
      identity = .error (.fault (.unexpected t)) := by
  subst hidentity hkept
  cases r with
  | error f => exact ⟨fun value ↦ ⟨nofun, fun ⟨_, _, h⟩ ↦ nomatch h⟩, nofun⟩
  | ok parsed =>
    obtain ⟨first, rest⟩ := parsed
    obtain ⟨-, name, hname, -⟩ := o.exists_outputs houtputs
    have hreturned : (o.call ts).returned (.ok (first, rest)) =
        .ok (given [name, "rest"] first rest) := by
      rw [Call.returned, o.outputs_call, hname]
    rw [hreturned, hname]
    refine ⟨fun value ↦ ⟨fun hvalue ↦ ?_, ?_⟩, fun first' t rest' hkept ↦ ?_⟩
    · cases rest with
      | nil => exact ⟨first, (Except.ok.inj hvalue).symm, rfl⟩
      | cons t rest => cases hvalue
    · rintro ⟨first', rfl, hkept⟩
      cases hkept
      rfl
    · cases hkept
      rfl

end

/-- The chain that a call on tokens of the lexer answers to has no part in what it comes to. The
depths of its steps above the chain and the fault or the outputs are the same for all chains that
can be given the outputs, and so is that the outputs are given right behind these steps. A call that
is answered by the identity gives its first output if and only if one whose outputs are kept leaves
nothing, and ends in the fault at the first token that such a call leaves. -/
theorem callers_unseen {file source : String} {ts : List Token}
    (hlex : lex file source = .ok ts) (more : List (Callee × Handler σ)) (o : Opener) :
    (∃ ds r, ((∃ f, r = .error (.fault f)) ∨ ∃ outs, r = .ok outs ∧ shape outs = o.outputs) ∧
      ∀ (w : World σ) frame outer, Awaits o.outputs w frame outer →
        o.Answers more ts w frame outer ds r) ∧
    (o.outputs ≠ [] → ∀ limits limits' (w w' : World σ) returnsTo last,
      returnsTo.LeadsTo (Registry.standardAnd more) last →
      (Registry.standardAnd more).handler last = Destinations.capture →
      Unlimited (o.result more limits ts .identity w) →
      Unlimited (o.result more limits' ts returnsTo w') →
        (∀ value, o.result more limits ts .identity w = .ok value ↔ ∃ first,
          value = .tokens first ∧
            o.result more limits' ts returnsTo w' = .ok (.outputs (given o.outputs first []))) ∧
        ∀ first t rest, o.result more limits' ts returnsTo w' =
            .ok (.outputs (given o.outputs first (t :: rest))) →
          o.result more limits ts .identity w = .error (.fault (.unexpected t))) := by
  obtain ⟨ds, r, hreads⟩ := o.exists_reads_call ts hlex
  refine ⟨⟨ds, (o.call ts).returned r, ?_, fun w frame outer ↦ answers_of_reads hreads⟩, ?_⟩
  · cases r with
    | error f => exact .inl ⟨f, rfl⟩
    | ok parsed =>
      have hreturned : (o.call ts).returned (.ok parsed) = .ok _ := rfl
      exact .inr ⟨_, hreturned, o.shape_of_returned ts hreturned⟩
  · intro houtputs limits limits' w w' returnsTo last hleads hkeeps hidentity hkept
    exact Opener.identity_of_kept houtputs r
      (Opener.result_of_unlimited houtputs hreads .identity .identity hidentity)
      (Opener.result_of_unlimited houtputs hreads hleads (.capture hkeeps) hkept)

/-- A path with an argument. -/
def argumentPath : List Token := (lex "<input>" "A<B>").toOption.getD []

/-- A world in which two frames were made. -/
def twoFrames : World Unit := { World.initial () with nextFrame := 3 }

/-- A frame that answers to no one. -/
def identityFrame : Frame := ⟨1, identityReturn, []⟩

/-- A frame with a state. -/
def shownFrame : Frame := ⟨2, Destinations.debugReturn, [.ofTokens "seen" argumentPath]⟩

def argumentPathResult (returnsTo : Destination) : Except Failure Value :=
  Opener.path.result (σ := Unit) [(⟨"keep", none⟩, Destinations.capture)] ⟨128, 100⟩ argumentPath
    returnsTo (.initial ())

/-- One frame and a chain of two are given the same outputs, and the identity gives the path since
nothing is left behind it. -/
theorem callers_unseen_path : lex "<input>" "A<B>" = .ok argumentPath ∧
    Awaits Opener.path.outputs twoFrames identityFrame [] ∧
    Awaits Opener.path.outputs twoFrames shownFrame [identityFrame] ∧
    (∃ ds r, Opener.path.Answers [] argumentPath twoFrames identityFrame [] ds r ∧
      Opener.path.Answers [] argumentPath twoFrames shownFrame [identityFrame] ds r) ∧
    ∃ first, argumentPathResult .identity = .ok (.tokens first) ∧
      argumentPathResult (.callee (.callee ⟨"keep", none⟩)) =
        .ok (.outputs (given Opener.path.outputs first [])) := by
  have hlex : lex "<input>" "A<B>" = .ok argumentPath := rfl
  have hone : Awaits Opener.path.outputs twoFrames identityFrame [] :=
    ⟨by decide, by decide, by decide, by decide⟩
  have htwo : Awaits Opener.path.outputs twoFrames shownFrame [identityFrame] :=
    ⟨by decide, by decide, by decide, by decide⟩
  refine ⟨hlex, hone, htwo, ?_, ?_⟩
  · obtain ⟨⟨ds, r, -, hanswers⟩, -⟩ := callers_unseen (σ := Unit) hlex [] .path
    exact ⟨ds, r, hanswers _ _ _ hone, hanswers _ _ _ htwo⟩
  · have hidentity : (argumentPathResult .identity).isOk = true := by decide +kernel
    have hkept : (argumentPathResult (.callee (.callee ⟨"keep", none⟩))).isOk = true := by
      decide +kernel
    have hunseen := (callers_unseen (σ := Unit) hlex
      [(⟨"keep", none⟩, Destinations.capture)] .path).2 (by decide)
    have hiff := (hunseen ⟨128, 100⟩ ⟨128, 100⟩ (.initial ()) (.initial ()) _ _ (.callee rfl) rfl
      (unlimited_of_isOk hidentity) (unlimited_of_isOk hkept)).1
    cases hvalue : argumentPathResult .identity with
    | error f =>
      rw [hvalue] at hidentity
      cases hidentity
    | ok value =>
      obtain ⟨first, rfl, hresult⟩ := (hiff value).mp hvalue
      exact ⟨first, rfl, hresult⟩

end Expander
