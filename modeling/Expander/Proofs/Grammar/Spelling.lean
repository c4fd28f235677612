import Expander.Proofs.Grammar.Blindness
import Expander.Proofs.Protocol.Expanding

/-!
# Spelling decides

Places make no difference to any of the standard callees (`blind_standard`), and so none to a call
of one: a call on tokens of one spelling comes to the same (`runCall_alike`). So two texts that are
lexed into tokens of one spelling are expanded alike, whatever the callee, the destination and the
limits are (`expand_spelling`): what may differ is where a diagnostic points.
-/

set_option autoImplicit false

namespace Expander

open Grammar

variable {σ : Type}

/-! ### Calls -/

section

variable {R : Recasting} {registry : Registry (Handler σ)} {limits : Limits} {callee : String}
  {ts us : List Token} {returnsTo : Destination}

/-- A callee is found by its name, which no recasting changes. -/
theorem recasts_resolve (ref : CalleeRef) :
    Action.Recasts R id (liftM (registry.resolve ref) : Action σ Callee)
      (liftM (registry.resolve ref)) := by
  have hresolve : registry.resolve ref = R.result id (registry.resolve ref) := by
    cases ref with
    | name name =>
      rw [Registry.resolve, Registry.resolveName]
      cases registry.find? name <;> rfl
    | callee c => rfl
  have hlift : Action.Recasts R id (liftM (registry.resolve ref) : Action σ Callee)
      (liftM (R.result id (registry.resolve ref))) := Action.recasts_lift _
  rwa [← hresolve] at hlift

/-- A destination is opened with a frame of the next number, if it opens one at all. -/
theorem recasts_open (hopen : ∀ frame outer, returnsTo ≠ .chain frame outer) :
    Action.Recasts R (List.map (Frame.recast R)) (returnsTo.open registry : Action σ Chain)
      (returnsTo.open registry) := by
  cases returnsTo with
  | identity =>
    exact (Action.recasts_frame identityReturn []).bind fun frame ↦ Action.recasts_pure rfl
  | callee ref =>
    exact (recasts_resolve ref).bind fun c ↦ (Action.recasts_frame c []).bind fun frame ↦
      Action.recasts_pure rfl
  | chain frame outer => exact absurd rfl (hopen frame outer)
  | unfit type => exact Action.recasts_throw rfl

/-- A call of tokens that are recast is the call of the tokens, recast. -/
theorem recasts_call (registry : Registry (Handler σ)) (callee : String) (ts : List Token)
    (hopen : ∀ frame outer, returnsTo ≠ .chain frame outer) :
    Action.Recasts R (Value.recast R)
      (call registry (.name callee) (.ok [.ofTokens "input" ts]) returnsTo : Action σ Value)
      (call registry (.name callee) (.ok [.ofTokens "input" (ts.map R.token)]) returnsTo) := by
  refine (recasts_resolve (.name callee)).bind fun target ↦ (recasts_open hopen).bind fun chain ↦ ?_
  have hcall := R.result_callFor target chain [.ofTokens "input" ts]
  rw [List.map_singleton, Argument.recast_ofTokens] at hcall
  rw [id_eq, ← hcall]
  exact Action.recasts_lift _

/-- A run on recast tokens comes to what the run on the tokens comes to, recast. -/
theorem result_runCall (hregistry : ∀ entry ∈ registry.entries, entry.2.Blind)
    (hR : StrictMono R.number) (hopen : ∀ frame outer, returnsTo ≠ .chain frame outer)
    {w w' : World σ} (hw : w.Renumbers R.number w') :
    ((runCall registry limits callee (ts.map R.token) returnsTo).outcome w').1 =
      R.result (Value.recast R) ((runCall registry limits callee ts returnsTo).outcome w).1 := by
  obtain ⟨hresult, hafter⟩ :=
    recasts_call registry callee ts hopen w w' hw
  rw [runCall, runCall, Action.outcome_bind, Action.outcome_bind]
  generalize (call _ _ (.ok [.ofTokens "input" ts]) _).outcome w = called at hresult hafter ⊢
  generalize (call _ _ _ _).outcome w' = called' at hresult hafter ⊢
  obtain ⟨_ | start, v⟩ := called
  · obtain ⟨result', v'⟩ := called'
    cases hresult
    rfl
  · obtain ⟨result', v'⟩ := called'
    cases hresult
    exact Machine.result_run hR (fun c ↦ Registry.blind_handler hregistry c R) limits start hafter

/-- A call on tokens of one spelling comes to the same, in whatever worlds, but for places and for
the numbers of frames. -/
theorem runCall_alike (hregistry : ∀ entry ∈ registry.entries, entry.2.Blind)
    (hopen : ∀ frame outer, returnsTo ≠ .chain frame outer) (h : Token.sameAll ts us = true)
    (w w' : World σ) :
    (Recasting.erasing w'.nextFrame).result (Value.recast (.erasing w'.nextFrame))
        ((runCall registry limits callee ts returnsTo).outcome w).1 =
      (Recasting.erasing w.nextFrame).result (Value.recast (.erasing w.nextFrame))
        ((runCall registry limits callee us returnsTo).outcome w').1 := by
  -- Both runs are that of the tokens without places, in a world above both.
  let above : World σ := { w with nextFrame := w.nextFrame + w'.nextFrame }
  have hleft : w.Renumbers (Recasting.erasing w'.nextFrame).number above :=
    fun j ↦ Nat.add_right_comm ..
  have hright : w'.Renumbers (Recasting.erasing w.nextFrame).number above := by
    intro j
    dsimp only [above, Recasting.erasing]
    omega
  have hmono (shift : Nat) : StrictMono (Recasting.erasing shift).number :=
    fun _ _ hlt ↦ Nat.add_lt_add_right hlt shift
  rw [← result_runCall hregistry (hmono _) hopen hleft,
    ← result_runCall hregistry (hmono _) hopen hright]
  exact congrArg (fun tokens ↦ ((runCall registry limits callee tokens returnsTo).outcome above).1)
    (Token.sameAll_iff_map.mp h)

end

/-! ### Expansions -/

section

/-- Ends of two expansions that differ at most in where their diagnostics point. -/
inductive Expansion.Alike : Except Failure Expansion → Except Failure Expansion → Prop
  | succeed {x y : Expansion} {v v' : Value} (hx : x.Succeeds v) (hy : y.Succeeds v')
      (h : v.same v' = true) : Alike (.ok x) (.ok y)
  | report {x y : Expansion} {d e : Diagnostic} (hx : x.Reports d) (hy : y.Reports e)
      (h : { d with span := none } = { e with span := none }) : Alike (.ok x) (.ok y)
  | fail (f : Failure) : Alike (.error f) (.error f)

/-- The message of a fault quotes the text of a token and not its place. -/
theorem message_of_erase {t u : Token} (h : t.erase = u.erase) :
    (Fault.unexpected t).message = (Fault.unexpected u).message := by
  have hrender : t.render = u.render := by rw [← t.render_erase, h, u.render_erase]
  exact congrArg (fun text ↦ "no rules expected the token " ++ ticked text) hrender

/-- The wording of a diagnostic has no places in it. -/
theorem diagnostic_of_recast {m n : Nat} {f g : Fault}
    (h : f.recast (.erasing m) = g.recast (.erasing n)) :
    { f.diagnostic with span := none } = { g.diagnostic with span := none } := by
  cases f with
  | endOfInput =>
    cases g with
    | endOfInput => rfl
    | unexpected => cases h
  | unexpected t =>
    cases g with
    | endOfInput => cases h
    | unexpected u =>
      have hmessage := message_of_erase (Fault.unexpected.inj h)
      simp only [Fault.diagnostic]
      rw [hmessage]

/-- A failure other than a fault has no token in it. -/
theorem Failure.recast_eq_self {R : Recasting} {f : Failure} (h : ∀ fault, f ≠ .fault fault) :
    f.recast R = f := by
  cases f with
  | fault fault => exact absurd rfl (h fault)
  | _ => rfl

/-- Two runs that come to the same but for places are two expansions that end alike. -/
theorem Expansion.alike_ofRun {r r' : Except Failure Value} {m n : Nat}
    (h : (Recasting.erasing m).result (Value.recast (.erasing m)) r =
      (Recasting.erasing n).result (Value.recast (.erasing n)) r')
    (sources sources' : List (String × String)) :
    Alike (ofRun (.ofSources sources) r) (ofRun (.ofSources sources') r') := by
  rcases r with f | v <;> rcases r' with g | v'
  · rw [Recasting.result_error, Recasting.result_error, Except.error.injEq] at h
    by_cases hf : ∃ fault, f = .fault fault
    · obtain ⟨fault, rfl⟩ := hf
      cases g with
      | fault fault' =>
        exact .report (reports_failed _ _) (reports_failed _ _)
          (diagnostic_of_recast (Failure.fault.inj h))
      | _ => cases h
    · have hf' : ∀ fault, f ≠ .fault fault := fun fault heq ↦ hf ⟨fault, heq⟩
      have hg' : ∀ fault, g ≠ .fault fault := by
        rintro fault rfl
        rw [Failure.recast_eq_self hf'] at h
        exact hf' _ h
      rw [Failure.recast_eq_self hf', Failure.recast_eq_self hg'] at h
      subst h
      rw [ofRun_eq_error_iff.mpr ⟨rfl, hf'⟩, ofRun_eq_error_iff.mpr ⟨rfl, hf'⟩]
      exact .fail f
  · cases h
  · cases h
  · rw [Recasting.result_ok, Recasting.result_ok, Except.ok.injEq] at h
    exact .succeed (succeeds_succeeded v _) (succeeds_succeeded v' _) (Value.same_of_recast v v' h)

/-- Two texts that are lexed into tokens of one spelling are expanded alike by the standard callees,
whatever the callee, the destination and the limits are: to values that are the same, or to
diagnostics of one wording, or to one failure. -/
theorem expand_spelling {file file' source source' : String} {ts us : List Token}
    (hts : lex file source = .ok ts) (hus : lex file' source' = .ok us)
    (h : Token.sameAll ts us = true) (limits : Except Failure Limits) (callee : String)
    {returnsTo : Destination} (hopen : ∀ frame outer, returnsTo ≠ .chain frame outer)
    (w w' : World σ) :
    Expansion.Alike ((expand .standard limits callee file source returnsTo).outcome w).1
      ((expand .standard limits callee file' source' returnsTo).outcome w').1 := by
  cases limits with
  | error f =>
    rw [outcome_expand_of_limits hts, outcome_expand_of_limits hus]
    exact .fail f
  | ok limits =>
    rw [outcome_expand_of_lex hts, outcome_expand_of_lex hus]
    exact Expansion.alike_ofRun (runCall_alike blind_standard hopen h _ _) _ _

/-- The spelling of two texts, if both are sequences of tokens. -/
def spelledAlike (source source' : String) : Option Bool := do
  let ts ← (lex "<input>" source).toOption
  let us ← (lex "<input>" source').toOption
  return Token.sameAll ts us

/-- A list that is closed twice is so at whatever places its tokens are. -/
theorem expand_spelling_closedTwice :
    ∃ ts us, lex "<input>" "A<B>>" = .ok ts ∧ lex "<input>" "A <\n B >> // closed" = .ok us ∧
      Token.sameAll ts us = true ∧
      Expansion.Alike
        ((expand (σ := Unit) .standard (.ok ⟨128, 100⟩) "parse_type" "<input>" "A<B>>"
          (.callee (.name "tt_debug"))).outcome (.initial ())).1
        ((expand .standard (.ok ⟨128, 100⟩) "parse_type" "<input>" "A <\n B >> // closed"
          (.callee (.name "tt_debug"))).outcome (.initial ())).1 := by
  have hspelled : spelledAlike "A<B>>" "A <\n B >> // closed" = some true := by decide +kernel
  unfold spelledAlike at hspelled
  cases hts : lex "<input>" "A<B>>" with
  | error e =>
    rw [hts] at hspelled
    cases hspelled
  | ok ts =>
    cases hus : lex "<input>" "A <\n B >> // closed" with
    | error e =>
      rw [hts, hus] at hspelled
      cases hspelled
    | ok us =>
      rw [hts, hus] at hspelled
      have hsame : Token.sameAll ts us = true := Option.some.inj hspelled
      have hopen : ∀ frame outer,
          Destination.callee (.name "tt_debug") ≠ .chain frame outer := by
        intro frame outer h
        cases h
      exact ⟨ts, us, rfl, rfl, hsame, expand_spelling hts hus hsame (.ok ⟨128, 100⟩) "parse_type"
        hopen (.initial ()) (.initial ())⟩

end

end Expander
