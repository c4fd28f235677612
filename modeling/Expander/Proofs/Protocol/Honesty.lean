import Expander.Proofs.Protocol.Limits
import Expander.Proofs.Protocol.Points

/-!
# Outputs as declared

A callee seldom gives back its outputs itself: it hands its callers on to another callee, or has
frames of its own resumed first. So what it declares is an invariant of chains. In front of a frame
`k` stand the frames that a call has made, each waits for the outputs that the callee before it
declares, and the last declares what `k` is to be resumed with (`Hands`). A move of an honest rule
keeps this (`Machine.Waits.handler_cases`). So `k` is resumed with the outputs that were declared
when the call was made (`Machine.Stage.Ahead.iterate`), and the check of names that was made then is
the one that counts (`Machine.Stage.Ahead.no_collision`).
-/

set_option autoImplicit false

namespace Expander

variable {σ : Type} {serves : Callee → Rule → Prop}

/-- A callee whose outputs go to resumptions, the last of which gives back some outputs. The names
of each state and of the outputs behind it are unique. -/
inductive Hands (serves : Callee → Rule → Prop) (outputs : List String) :
    Callee → List Resumption → Prop
  | last {c : Callee} {rule : Rule} (hc : serves c rule) (h : c.outputs = some outputs) :
      Hands serves outputs c []
  | next {c : Callee} {rule : Rule} {r : Resumption} {rs : List Resumption} {names : List String}
      (hc : serves c rule) (h : c.outputs = some names)
      (hnames : (shape r.state ++ names).Nodup) (hrest : Hands serves outputs r.callee rs) :
      Hands serves outputs c (r :: rs)

/-- The failure of a return, or of a call, that would use a name again. -/
def Failure.IsCollision : Failure → Prop
  | .breach (.reusedOutputs _) _ => True
  | _ => False

/-- A move after which the callers are given some outputs. -/
def Move.Keeps (serves : Callee → Rule → Prop) (outputs : List String) : Move → Prop
  | .giveBack outs => shape outs = outputs
  | .tail target args => (shape args).Nodup ∧ Hands serves outputs target []
  | .call target args near outer =>
    (shape args).Nodup ∧ Hands serves outputs target (near :: outer)

/-- What a rule comes to if it is honest about the outputs. -/
def Honest (serves : Callee → Rule → Prop) (outputs : List String) : Except Failure Move → Prop
  | .ok move => move.Keeps serves outputs
  | .error f => ¬ f.IsCollision

/-- Handlers that go by rules which are honest about what their callees declare. -/
structure HonestRules (serves : Callee → Rule → Prop) (handler : Callee → Handler σ) : Prop where
  handler_eq : ∀ c rule, serves c rule → handler c = rule.handler
  honest : ∀ c rule names, serves c rule → c.outputs = some names → ∀ args,
    Honest serves names (rule args)

/-- An operation on values that does not fail by a name. -/
def Nameless {α : Type} (x : Except Failure α) : Prop := ∀ f, x = .error f → ¬ f.IsCollision

section

variable {α : Type} {x : Except Failure Move} {outputs : List String}

/-- What does not fail does not fail by a name. -/
theorem nameless_ok (a : α) : Nameless (.ok a : Except Failure α) := by
  intro f hf
  cases hf

/-- A failure of another kind is none by a name. -/
theorem nameless_error {f : Failure} (h : ¬ f.IsCollision) :
    Nameless (.error f : Except Failure α) := by
  rintro f' ⟨⟩
  exact h

/-- Two operations one after the other do not fail by a name if neither does. -/
theorem nameless_bind {β : Type} {x : Except Failure α} {next : α → Except Failure β}
    (hx : Nameless x) (h : ∀ a, Nameless (next a)) : Nameless (x >>= next) := by
  cases x with
  | error f => exact nameless_error (hx f rfl)
  | ok a => exact h a

/-- A rule that begins with an operation is honest if the operation does not fail by a name, and the
rest is honest. -/
theorem honest_bind {x : Except Failure α} {next : α → Except Failure Move} (hx : Nameless x)
    (h : ∀ a, Honest serves outputs (next a)) : Honest serves outputs (x >>= next) := by
  cases x with
  | error f => exact hx f rfl
  | ok a => exact h a

/-- A rule that branches is honest if both branches are. -/
theorem honest_ite {p : Prop} [Decidable p] {y : Except Failure Move}
    (hx : Honest serves outputs x) (hy : Honest serves outputs y) :
    Honest serves outputs (if p then x else y) := by
  split
  · exact hx
  · exact hy

end

/-! ### Names of a return -/

/-- The check of names passes if and only if outputs and state share none. -/
theorem checkDisjoint_eq_ok_iff {state : List Argument} {outputs : List String} {blamed : String} :
    checkDisjoint state outputs blamed = .ok () ↔ ∀ n ∈ shape state, n ∉ outputs := by
  refine ⟨fun h n hn hmem ↦ ?_, checkDisjoint_of_disjoint⟩
  have hused : n ∈ (shape state).filter outputs.contains := by simp [hn, hmem]
  obtain ⟨m, ms, heq⟩ := List.exists_cons_of_ne_nil (List.ne_nil_of_mem hused)
  rw [checkDisjoint, heq] at h
  cases h

/-- A return resumes the nearest frame, or is refused. It collides only if the state of the frame
has a name of the outputs. -/
theorem returnTo_cases (f : Frame) (outer : Chain) (outs : List Argument) :
    returnTo (f :: outer) (.ok outs) = .ok (.pending (f.resumed outer outs)) ∨
      ∃ e, returnTo (f :: outer) (.ok outs) = .error e ∧
        (e.IsCollision → ∃ n ∈ shape f.state, n ∈ shape outs) := by
  have hdistinct : ∀ args, distinct args = .ok args ∨ ∃ e, distinct args = .error e ∧
      ¬ e.IsCollision := by
    intro args
    rw [distinct]
    split
    · exact .inr ⟨_, rfl, id⟩
    · exact .inl rfl
  simp only [returnTo, bind, Except.bind]
  rcases hdistinct outs with houts | ⟨e, he, hplain⟩
  · simp only [houts]
    cases hcheck : checkDisjoint f.state (shape outs) f.callee.name with
    | error e =>
      refine .inr ⟨e, rfl, fun _ ↦ ?_⟩
      by_contra hfree
      rw [checkDisjoint_eq_ok_iff.mpr fun n hn hmem ↦ hfree ⟨n, hn, hmem⟩] at hcheck
      cases hcheck
    | ok =>
      rcases hdistinct (f.state ++ outs) with hall | ⟨e, he, hplain⟩
      · simp only [hall]
        exact .inl rfl
      · simp only [he]
        exact .inr ⟨e, rfl, fun h ↦ absurd h hplain⟩
  · simp only [he]
    exact .inr ⟨e, rfl, fun h ↦ absurd h hplain⟩

/-! ### Chains of frames -/

section

variable {outputs names : List String} {c target : Callee} {rs ms : List Resumption}

/-- A callee that hands outputs on goes by a rule and declares what it gives back. -/
theorem Hands.exists_serves (h : Hands serves outputs c rs) :
    ∃ rule names, serves c rule ∧ c.outputs = some names := by
  cases h with
  | last hc h | next hc h => exact ⟨_, _, hc, h⟩

/-- What gives back the same outputs may stand in a callee's place. -/
theorem Hands.replace (h : Hands serves outputs c rs) (hc : c.outputs = some names)
    (htarget : Hands serves names target ms) : Hands serves outputs target (ms ++ rs) := by
  induction htarget with
  | last hserves htarget =>
    cases h with
    | last _ h =>
      rw [hc] at h
      exact .last hserves (htarget.trans h)
    | next _ h hnames hrest =>
      rw [hc, Option.some.injEq] at h
      exact .next hserves (htarget.trans (congrArg some h)) hnames hrest
  | next hserves htarget hnames _ ih => exact .next hserves htarget hnames ih

end

namespace Machine

/-- A step in front of a frame: frames of its own stand before that, and the outputs of its callee
go to them, and from the last of them to the frame. -/
structure Waits (serves : Callee → Rule → Prop) (outputs : List String) (k : Frame) (outer : Chain)
    (own : Chain) (i : Invocation) (w : World σ) : Prop where
  caller : i.caller = own ++ k :: outer
  hands : Hands serves outputs i.callee (own.map Frame.resumption)
  own : ∀ g ∈ own, g.id ≠ k.id
  fires : ∀ g, i.fires = some g → g.id ≠ k.id
  numbered : k.id < w.nextFrame

section

variable {handler : Callee → Handler σ} {outputs : List String} {k : Frame} {outer own : Chain}
  {i : Invocation} {w w' : World σ}

/-- A step in front of a frame is followed by one, or by the return to the frame, or it fails, with
a collision only if the frame's state has a name of the outputs. -/
theorem Waits.handler_cases (hrules : HonestRules serves handler)
    (h : Waits serves outputs k outer own i w) (hw : w'.nextFrame = w.nextFrame) :
    (∃ f w'', (handler i.callee i.caller i.args).outcome w' = (.error f, w'') ∧
      (f.IsCollision → ∃ n ∈ shape k.state, n ∈ outputs)) ∨
    ∃ next w'', (handler i.callee i.caller i.args).outcome w' = (.ok (.pending next), w'') ∧
      ((∃ own', Waits serves outputs k outer own' next w'') ∨
        ∃ outs, next = k.resumed outer outs ∧ shape outs = outputs) := by
  obtain ⟨rule, names, hc, hnames⟩ := h.hands.exists_serves
  have hrule := hrules.honest _ rule names hc hnames i.args
  rw [hrules.handler_eq _ rule hc]
  cases hmove : rule i.args with
  | error f =>
    rw [hmove] at hrule
    exact .inl ⟨f, w', outcome_handler_fails hmove, fun hf ↦ absurd hf hrule⟩
  | ok move =>
    rw [hmove] at hrule
    cases move with
    | giveBack outs =>
      rw [outcome_handler_gives hmove, h.caller]
      have houts : shape outs = names := hrule
      cases own with
      | nil =>
        have hlast : outputs = names := by
          cases h.hands with
          | last _ h => exact Option.some.inj (h.symm.trans hnames)
        subst hlast
        rcases returnTo_cases k outer outs with hreturn | ⟨e, he, hcollision⟩
        · exact .inr ⟨_, w', congrArg (·, w') hreturn, .inr ⟨outs, rfl, houts⟩⟩
        · exact .inl ⟨e, w', congrArg (·, w') he, houts ▸ hcollision⟩
      | cons g own =>
        have hhands := h.hands
        rw [List.map_cons] at hhands
        cases hhands with
        | next _ hown hstate hrest =>
          obtain rfl : names = _ := Option.some.inj (hnames.symm.trans hown)
          have hunique : (shape (g.state ++ outs)).Nodup := by
            rw [shape, List.map_append, ← shape, ← shape, houts]
            exact hstate
          refine .inr ⟨_, w', congrArg (·, w') (returnTo_cons hunique), .inl ⟨own, ?_⟩⟩
          exact ⟨rfl, hrest, fun f hf ↦ h.own f (List.mem_cons_of_mem g hf),
            fun f hf ↦ Option.some.inj hf ▸ h.own g List.mem_cons_self, hw ▸ h.numbered⟩
    | tail target targs =>
      obtain ⟨hargs, htarget⟩ := hrule
      refine .inr ⟨_, w', outcome_handler_tails hmove hargs,
        .inl ⟨own, h.caller, ?_, h.own, ?_, hw ▸ h.numbered⟩⟩
      · exact h.hands.replace hnames htarget
      · intro g hg
        cases hg
    | call target targs near behind =>
      obtain ⟨hargs, htarget⟩ := hrule
      have hfree : ∀ names, target.outputs = some names → ∀ n ∈ shape near.state, n ∉ names := by
        intro names hnames n hn hmem
        cases htarget with
        | next _ h hstate _ =>
          obtain rfl : names = _ := Option.some.inj (hnames.symm.trans h)
          exact (List.nodup_append.mp hstate).2.2 n hn n hmem rfl
      refine .inr ⟨_, _, outcome_handler_calls hmove hargs hfree,
        .inl ⟨Expander.numbered w'.nextFrame (near :: behind) ++ own, ?_, ?_, ?_, ?_, ?_⟩⟩
      · rw [h.caller, List.append_assoc]
      · rw [List.map_append, map_resumption_numbered]
        exact h.hands.replace hnames htarget
      · intro g hg
        rcases List.mem_append.mp hg with hg | hg
        · have hid := (id_of_mem_numbered hg).1
          have hk := h.numbered
          omega
        · exact h.own g hg
      · intro g hg
        cases hg
      · exact hw ▸ Nat.lt_add_right _ h.numbered

/-- A stage of a run until a frame is resumed, and behind that. -/
inductive Stage.Ahead (serves : Callee → Rule → Prop) (outputs : List String) (k : Frame)
    (outer : Chain) : Stage σ → Prop
  | waits {taken : Nat} {ledger : Ledger} {own : Chain} {i : Invocation} {w : World σ}
      (h : Waits serves outputs k outer own i w) :
      Ahead serves outputs k outer (.attempts taken ledger i w)
  | fires {taken : Nat} {ledger : Ledger} {outs : List Argument} {w : World σ}
      (houts : shape outs = outputs) :
      Ahead serves outputs k outer (.attempts taken ledger (k.resumed outer outs) w)
  | fired {taken : Nat} {ledger : Ledger} {i : Invocation} {w : World σ}
      (h : k.id ∈ ledger.fired) : Ahead serves outputs k outer (.attempts taken ledger i w)
  | ended {outcome : Except Failure Value × World σ} : Ahead serves outputs k outer (.ended outcome)

/-- Behind a step that resumed a frame, the frame stays resumed. -/
theorem Stage.Ahead.advance_fired {taken : Nat} {ledger entered : Ledger}
    (henter : ledger.enter i = .ok entered) (hk : k.id ∈ entered.fired) :
    ((Stage.attempts taken ledger i w).advance handler).Ahead serves outputs k outer := by
  rw [Stage.advance, henter]
  dsimp only
  rcases (handler i.callee i.caller i.args).outcome (announced w taken i) with ⟨f | value, w'⟩
  · exact .ended
  · cases value with
    | pending next => exact .fired hk
    | _ => exact .ended

/-- What stands in front of a frame is kept in order by a step. -/
theorem Stage.Ahead.advance {s : Stage σ} (hrules : HonestRules serves handler)
    (h : s.Ahead serves outputs k outer) : (s.advance handler).Ahead serves outputs k outer := by
  cases h with
  | @waits taken ledger own i w h =>
    cases henter : ledger.enter i with
    | error f =>
      rw [Stage.advance, henter]
      exact .ended
    | ok entered =>
      rw [Stage.advance, henter]
      dsimp only
      have hworld : (announced w taken i).nextFrame = w.nextFrame := rfl
      rcases h.handler_cases hrules hworld with
        ⟨f, w', hfails, -⟩ | ⟨next, w', hgoes, ⟨own', hwaits⟩ | ⟨outs, rfl, houts⟩⟩
      · rw [hfails]
        exact .ended
      · rw [hgoes]
        exact .waits hwaits
      · rw [hgoes]
        exact .fires houts
  | @fires taken ledger outs w houts =>
    cases henter : ledger.enter (k.resumed outer outs) with
    | error f =>
      rw [Stage.advance, henter]
      exact .ended
    | ok entered =>
      exact advance_fired henter ((Ledger.mem_fired_of_enter henter).mpr (.inr ⟨k, rfl, rfl⟩))
  | @fired taken ledger i w h =>
    cases henter : ledger.enter i with
    | error f =>
      rw [Stage.advance, henter]
      exact .ended
    | ok entered => exact advance_fired henter ((Ledger.mem_fired_of_enter henter).mpr (.inl h))
  | ended => exact .ended

/-- What stands in front of a frame is kept in order by any number of steps. -/
theorem Stage.Ahead.iterate {s : Stage σ} (hrules : HonestRules serves handler)
    (h : s.Ahead serves outputs k outer) (n : Nat) :
    ((Stage.advance handler)^[n] s).Ahead serves outputs k outer := by
  induction n with
  | zero => exact h
  | succ n ih =>
    rw [Function.iterate_succ_apply']
    exact ih.advance hrules

/-- Up to the return to a frame, no step collides, if the frame's state has no name of the
outputs. -/
theorem Stage.Ahead.no_collision {taken : Nat} {ledger : Ledger}
    (hrules : HonestRules serves handler) (hfree : ∀ n ∈ shape k.state, n ∉ outputs)
    (h : (Stage.attempts taken ledger i w).Ahead serves outputs k outer)
    (hfired : k.id ∉ ledger.fired) (hfires : ∀ g, i.fires = some g → g.id ≠ k.id) {f : Failure}
    (hend : (Stage.attempts taken ledger i w).advance handler = .ended (.error f, w')) :
    ¬ f.IsCollision := by
  cases h with
  | fires => exact absurd rfl (hfires k rfl)
  | fired h => exact absurd h hfired
  | waits h =>
    rw [Stage.advance] at hend
    cases henter : ledger.enter i with
    | error e =>
      rw [henter] at hend
      obtain ⟨blamed, rfl | rfl⟩ := Ledger.enter_eq_error henter
      · cases hend
        exact id
      · cases hend
        exact id
    | ok entered =>
      rw [henter] at hend
      dsimp only at hend
      have hworld : (announced w taken i).nextFrame = w.nextFrame := rfl
      rcases h.handler_cases hrules hworld with
        ⟨e, w'', hfails, hcollision⟩ | ⟨next, w'', hgoes, -⟩
      · rw [hfails] at hend
        cases hend
        rintro hf
        obtain ⟨n, hn, hmem⟩ := hcollision hf
        exact hfree n hn hmem
      · rw [hgoes] at hend
        cases hend

end

end Machine

end Expander
