import Mathlib.Data.List.Sort
import Mathlib.Order.Monotone.Basic
import Mathlib.Order.Nat
import Expander.Proofs.Protocol.Ledger
import Expander.Proofs.Protocol.Limits
import Expander.Proofs.Protocol.Recasting

/-!
# Callees that see neither places nor numbers

A callee is blind if it does the same with recast callers and arguments, whatever the recasting is
(`Handler.Blind`): it looks at no place and at no number of a frame, and at nothing else than its
callers and arguments. A rule is blind if the move that it makes of recast arguments is the move
that it makes of the arguments, recast (`Rule.Blind`).

Runs of such callees that begin alike go on alike, step by step (`Stage.Recasts.advance`): the
ledgers may differ in frames that only one of the runs has seen, as long as the numbers of frames
keep their order. So they come to the same under limits that allow as many steps to come
(`Stage.Recasts.run`), and only the message of a step limit tells how many there were in all.
-/

set_option autoImplicit false

namespace Expander

variable {σ α β γ δ : Type} {R : Recasting}

/-! ### Actions -/

/-- Worlds of which the second gives the frames to come the numbers that `ρ` makes of those that the
first gives them. -/
def World.Renumbers (ρ : Nat → Nat) (w w' : World σ) : Prop :=
  ∀ j, w'.nextFrame + j = ρ (w.nextFrame + j)

/-- An action that gives what another one gives, recast by `f`, and makes the same frames under
other numbers. -/
def Action.Recasts (R : Recasting) (f : α → β) (a : Action σ α) (b : Action σ β) : Prop :=
  ∀ w w' : World σ, w.Renumbers R.number w' →
    (b.outcome w').1 = R.result f (a.outcome w).1 ∧
      (a.outcome w).2.Renumbers R.number (b.outcome w').2

namespace Action

variable {f : α → β} {g : γ → δ}

/-- A computation that does nothing to a world is recast if what it comes to is. -/
theorem recasts_lift (x : Except Failure α) :
    Recasts R f (liftM x : Action σ α) (liftM (R.result f x)) := by
  intro w w' hw
  rw [outcome_lift, outcome_lift]
  exact ⟨rfl, hw⟩

theorem recasts_pure {a : α} {b : β} (h : b = f a) :
    Recasts R f (pure a : Action σ α) (pure b) :=
  fun _ _ hw ↦ ⟨congrArg Except.ok h, hw⟩

theorem recasts_throw {e e' : Failure} (h : e' = e.recast R) :
    Recasts R f (throw e : Action σ α) (throw e') :=
  fun _ _ hw ↦ ⟨congrArg Except.error h, hw⟩

/-- What is noted does not count: logs may differ. -/
theorem recasts_note (e e' : Event) : Recasts R id (note e : Action σ Unit) (note e') :=
  fun _ _ hw ↦ ⟨rfl, hw⟩

/-- A frame takes the next number. Where that is recast, so is the number of the frame. -/
theorem recasts_frame (callee : Callee) (state : List Argument) :
    Recasts R (Frame.recast R) (frame callee state : Action σ Frame)
      (frame callee (state.map (Argument.recast R))) := by
  intro w w' hw
  rw [outcome_frame, outcome_frame]
  refine ⟨?_, fun j ↦ ?_⟩
  · simpa using hw 0
  · simpa [Nat.add_right_comm, Nat.add_assoc] using hw (j + 1)

/-- One action after the other is recast if the first is, and the second whatever the first comes
to. -/
theorem Recasts.bind {a : Action σ α} {b : Action σ β} (h : Recasts R f a b)
    {next : α → Action σ γ} {next' : β → Action σ δ}
    (hnext : ∀ x, Recasts R g (next x) (next' (f x))) :
    Recasts R g (a >>= next) (b >>= next') := by
  intro w w' hw
  obtain ⟨hresult, hworld⟩ := h w w' hw
  rw [outcome_bind, outcome_bind]
  rcases ha : a.outcome w with ⟨e | x, v⟩ <;> rcases hb : b.outcome w' with ⟨e' | y, v'⟩ <;>
    rw [ha, hb] at hresult hworld <;> cases hresult
  · exact ⟨rfl, hworld⟩
  · exact hnext x v v' hworld

end Action

open Expander.Action

/-! ### Callees -/

/-- A callee that does the same with callers and arguments that are recast. -/
def Handler.Recasts (R : Recasting) (handler : Handler σ) : Prop :=
  ∀ (caller : Chain) (args : List Argument), Action.Recasts R (Value.recast R) (handler caller args)
    (handler (caller.map (Frame.recast R)) (args.map (Argument.recast R)))

/-- A callee to which neither places nor the numbers of frames make a difference. -/
def Handler.Blind (handler : Handler σ) : Prop := ∀ R : Recasting, handler.Recasts R

/-- A rule that makes the same move of arguments that are recast. -/
def Rule.Blind (rule : Rule) : Prop :=
  ∀ (R : Recasting) (args : List Argument),
    R.result (Move.recast R) (rule args) = rule (args.map (Argument.recast R))

/-- The frames that a move puts on a chain are numbered one after the other, in both worlds. -/
theorem recasts_stack (caller : Chain) (waiting : List Resumption) :
    Action.Recasts R (List.map (Frame.recast R)) (stack caller waiting : Action σ Chain)
      (stack (caller.map (Frame.recast R)) (waiting.map (Resumption.recast R))) := by
  induction waiting with
  | nil => exact recasts_pure rfl
  | cons r waiting ih =>
    exact ih.bind fun outer ↦ (recasts_frame r.callee r.state).bind fun frame ↦ recasts_pure rfl

/-- What a move comes to is recast as the move is, and as the chain it is made on. -/
theorem recasts_perform (caller : Chain) (move : Move) :
    Action.Recasts R (Value.recast R) (move.perform caller : Action σ Value)
      ((move.recast R).perform (caller.map (Frame.recast R))) := by
  cases move with
  | call target args near outer =>
    refine (recasts_stack caller (near :: outer)).bind fun chain ↦ ?_
    rw [← R.result_callFor]
    exact recasts_lift _
  | tail target args =>
    simp only [Move.perform, Move.recast]
    rw [← R.result_tailCall]
    exact recasts_lift _
  | giveBack outputs =>
    simp only [Move.perform, Move.recast]
    rw [← R.result_returnTo]
    exact recasts_lift _

/-- The callee of a blind rule is blind, for whatever callers its moves are performed. -/
theorem Rule.Blind.handler {rule : Rule} (h : rule.Blind) : (rule.handler : Handler σ).Blind := by
  intro R caller args
  unfold Rule.handler
  rw [← h]
  exact (recasts_lift (rule args)).bind fun move ↦ recasts_perform caller move

/-- A callee that makes its result of its arguments alone, and does nothing else. -/
theorem blind_lift {f : List Argument → Except Failure Value}
    (h : ∀ (R : Recasting) (args : List Argument),
      R.result (Value.recast R) (f args) = f (args.map (Argument.recast R))) :
    Handler.Blind fun _ args ↦ (liftM (f args) : Action σ Value) := by
  intro R caller args
  dsimp only
  rw [← h]
  exact recasts_lift _

/-- In a registry of blind entries every callee is handled blindly, also one that has no entry, as
its handler only fails. -/
theorem Registry.blind_handler {registry : Registry (Handler σ)}
    (h : ∀ entry ∈ registry.entries, entry.2.Blind) (c : Callee) : (registry.handler c).Blind := by
  unfold Registry.handler Registry.lookupD Registry.find?
  cases hfind : registry.entries.find? (·.1.name = c.name) with
  | none => exact fun _ _ _ ↦ recasts_throw rfl
  | some entry => exact h entry (List.mem_of_find?_eq_some hfind)

/-! ### The ledger -/

namespace Ledger

/-- A ledger that holds the frames of another one recast. It may have seen more frames resumed,
under numbers that no frame of the other is given. -/
structure Recasts (R : Recasting) (l l' : Ledger) : Prop where
  fired : ∀ n, R.number n ∈ l'.fired ↔ n ∈ l.fired
  live : ∀ n, l'.live[R.number n]? = l.live[n]?.map (Frame.recast R)
  numbered : ∀ k ∈ l'.live, ∃ n, R.number n = k

/-- What two ledgers make of a step: both enter it, or both refuse it for the same reason. -/
inductive Accord (R : Recasting) : Except Failure Ledger → Except Failure Ledger → Prop
  | entered {l l' : Ledger} (h : l.Recasts R l') : Accord R (.ok l) (.ok l')
  | refused {f : Failure} : Accord R (.error f) (.error (f.recast R))

variable {l l' : Ledger}

/-- Nothing is in an empty ledger, and so nothing is to be recast. -/
theorem recasts_empty (R : Recasting) : Recasts R .empty .empty where
  fired n := by simp [empty]
  live n := by simp [empty]
  numbered k hk := by simp [empty] at hk

/-- Checks of a ledger that accord, one after the other, accord. -/
theorem Accord.bind {x x' : Except Failure Ledger} (h : Accord R x x')
    {next next' : Ledger → Except Failure Ledger}
    (hnext : ∀ m m', m.Recasts R m' → Accord R (next m) (next' m')) :
    Accord R (x >>= next) (x' >>= next') := by
  cases h with
  | entered h => exact hnext _ _ h
  | refused => exact .refused

/-- Entries in the order of their numbers are told by what is among them. -/
theorem eq_of_ordered {xs ys : List (Nat × Frame)}
    (hx : xs.Pairwise fun a b ↦ compare a.1 b.1 = .lt)
    (hy : ys.Pairwise fun a b ↦ compare a.1 b.1 = .lt) (h : ∀ entry, entry ∈ xs ↔ entry ∈ ys) :
    xs = ys := by
  simp only [Nat.compare_eq_lt] at hx hy
  have : Std.Irrefl fun a b : Nat × Frame ↦ a.1 < b.1 := ⟨fun a ↦ Nat.lt_irrefl a.1⟩
  have : Std.Antisymm fun a b : Nat × Frame ↦ a.1 < b.1 :=
    ⟨fun _ _ hab hba ↦ absurd hab (Nat.lt_asymm hba)⟩
  exact hx.eq_of_mem_iff hy h

/-- The frames of a ledger, in the order of their numbers. -/
theorem values_eq_map (m : Std.TreeMap Nat Frame) : m.values = m.toList.map Prod.snd := by
  have hfold : m.values = m.foldr (fun _ f frames ↦ f :: frames) [] := rfl
  rw [hfold, Std.TreeMap.foldr_eq_foldr_toList, List.map_eq_foldr]

namespace Recasts

/-- A frame has fired in the one ledger if and only if it has in the other. -/
theorem mem_fired_iff (h : l.Recasts R l') (f : Frame) :
    (f.recast R).id ∈ l'.fired ↔ f.id ∈ l.fired := by
  rw [f.id_recast]
  exact h.fired f.id

/-- A frame fires in both ledgers, or in none if it has fired: it is known by its number, and
numbers are not confused. -/
theorem fire (h : l.Recasts R l') (hR : StrictMono R.number) (f : Frame) :
    Accord R (l.fire f) (l'.fire (f.recast R)) := by
  have hfired := h.mem_fired_iff f
  by_cases hf : f.id ∈ l.fired
  · rw [fire_of_mem hf, fire_of_mem (hfired.mpr hf), f.callee_recast]
    exact .refused
  · rw [fire_of_notMem hf, fire_of_notMem (mt hfired.mp hf), f.id_recast]
    refine .entered ⟨fun n ↦ ?_, fun n ↦ ?_, fun k hk ↦ ?_⟩
    · simp [Std.TreeSet.mem_insert, h.fired, hR.injective.eq_iff]
    · simp only [Std.TreeMap.getElem?_erase, Nat.compare_eq_eq, hR.injective.eq_iff, h.live]
      split <;> rfl
    · exact h.numbered k (Std.TreeMap.mem_of_mem_erase hk)

/-- A frame of a chain is entered in both ledgers, or refused by both if it has fired. -/
theorem watch (h : l.Recasts R l') (hR : StrictMono R.number) (f : Frame) :
    Accord R (l.watch f) (l'.watch (f.recast R)) := by
  have hfired := h.mem_fired_iff f
  by_cases hf : f.id ∈ l.fired
  · rw [watch_of_mem hf, watch_of_mem (hfired.mpr hf), f.callee_recast]
    exact .refused
  · rw [watch_of_notMem hf, watch_of_notMem (mt hfired.mp hf), f.id_recast]
    have hlive : R.number f.id ∈ l'.live ↔ f.id ∈ l.live := by
      rw [Std.TreeMap.mem_iff_isSome_getElem?, Std.TreeMap.mem_iff_isSome_getElem?, h.live,
        Option.isSome_map]
    refine .entered ⟨h.fired, fun n ↦ ?_, fun k hk ↦ ?_⟩
    · simp only [Std.TreeMap.getElem?_insertIfNew, Nat.compare_eq_eq, hR.injective.eq_iff, hlive,
        h.live]
      split <;> rfl
    · rw [Std.TreeMap.mem_insertIfNew, Nat.compare_eq_eq] at hk
      rcases hk with rfl | hk
      · exact ⟨f.id, rfl⟩
      · exact h.numbered k hk

/-- So for the frames of a chain, one after the other. -/
theorem watch_chain (h : l.Recasts R l') (hR : StrictMono R.number) (chain : Chain) :
    Accord R (chain.foldlM Ledger.watch l)
      ((chain.map (Frame.recast R)).foldlM Ledger.watch l') := by
  induction chain generalizing l l' with
  | nil => exact .entered h
  | cons f chain ih => exact (h.watch hR f).bind fun m m' hm ↦ ih hm

/-- A recast step is entered if the step is. -/
theorem enter (h : l.Recasts R l') (hR : StrictMono R.number) (i : Invocation) :
    Accord R (l.enter i) (l'.enter (i.recast R)) := by
  rw [enter_eq, enter_eq, i.caller_recast, i.fires_recast]
  refine Accord.bind ?_ fun m m' hm ↦ hm.watch_chain hR i.caller
  cases i.fires with
  | none => exact .entered h
  | some f => exact h.fire hR f

/-- The frames of both ledgers come in one order. -/
theorem toList_live (h : l.Recasts R l') (hR : StrictMono R.number) :
    l'.live.toList = l.live.toList.map fun entry ↦ (R.number entry.1, entry.2.recast R) := by
  have hordered : (l.live.toList.map fun entry ↦ (R.number entry.1, entry.2.recast R)).Pairwise
      fun a b ↦ compare a.1 b.1 = .lt := by
    rw [List.pairwise_map]
    refine Std.TreeMap.ordered_keys_toList.imp fun hlt ↦ ?_
    rw [Nat.compare_eq_lt] at hlt ⊢
    exact hR hlt
  refine eq_of_ordered Std.TreeMap.ordered_keys_toList hordered ?_
  rintro ⟨k, g⟩
  rw [Std.TreeMap.mem_toList_iff_getElem?_eq_some, List.mem_map]
  constructor
  · intro hk
    have hmem : k ∈ l'.live := by
      rw [Std.TreeMap.mem_iff_isSome_getElem?, hk]
      rfl
    obtain ⟨n, rfl⟩ := h.numbered k hmem
    rw [h.live, Option.map_eq_some_iff] at hk
    obtain ⟨f, hf, rfl⟩ := hk
    exact ⟨(n, f), Std.TreeMap.mem_toList_iff_getElem?_eq_some.mpr hf, rfl⟩
  · rintro ⟨⟨n, f⟩, hf, heq⟩
    cases heq
    rw [h.live, Std.TreeMap.mem_toList_iff_getElem?_eq_some.mp hf]
    rfl

/-- The frames that wait in the one wait in the other. -/
theorem close (h : l.Recasts R l') (hR : StrictMono R.number) :
    l'.close = R.result id l.close := by
  have hentries := h.toList_live hR
  have hempty : l'.live.isEmpty = l.live.isEmpty := by
    rw [← Std.TreeMap.isEmpty_toList, ← Std.TreeMap.isEmpty_toList, hentries, List.isEmpty_map]
  have hnames : (l'.live.values.map fun f ↦ f.callee.name) =
      l.live.values.map fun f ↦ f.callee.name := by
    simp [values_eq_map, hentries, Function.comp_def]
  rw [Ledger.close, Ledger.close, hempty, hnames]
  split <;> rfl

end Recasts

end Ledger

/-! ### Runs -/

namespace Machine

variable {handler : Callee → Handler σ} {l l' : Ledger} {s s' : Stage σ}

/-- Stages of two runs of which the second one holds what the first one holds, recast. It may have
taken other steps before, and may have resumed frames of which the first one does not know. -/
inductive Stage.Recasts (R : Recasting) : Stage σ → Stage σ → Prop
  | attempts {taken taken' : Nat} {l l' : Ledger} {i : Invocation} {w w' : World σ}
      (hledger : l.Recasts R l') (hworld : w.Renumbers R.number w') :
      Recasts R (.attempts taken l i w) (.attempts taken' l' (i.recast R) w')
  | ended {outcome outcome' : Except Failure Value × World σ}
      (h : outcome'.1 = R.result (Value.recast R) outcome.1) :
      Recasts R (.ended outcome) (.ended outcome')

/-- A run that ends with a value is refused if a caller waits, and else as its ledger is closed. -/
theorem outcome_conclude (taken : Nat) (i : Invocation) (value : Value) (w : World σ) :
    ((Stage.conclude l taken i value).outcome w).1 =
      if i.caller.isEmpty then l.close.map fun _ ↦ value
      else .error (.breach .finishedEarly (some i.callee.name)) := by
  unfold Stage.conclude
  split
  · exact outcome_finish
  · rfl

/-- The stage behind a step that was entered, by what its callee gave back. -/
def Stage.behind (ledger : Ledger) (taken : Nat) (i : Invocation) :
    Except Failure Value × World σ → Stage σ
  | (.error f, w) => .ended (.error f, w)
  | (.ok (.pending next), w) => .attempts (taken + 1) ledger next w
  | (.ok value, w) => .ended ((Stage.conclude ledger taken i value).outcome w)

/-- A call that the ledger admits is made. -/
theorem Stage.advance_of_enter {taken : Nat} {i : Invocation} {w : World σ}
    (h : l.enter i = .ok l') : (Stage.attempts taken l i w).advance handler =
      .behind l' taken i ((handler i.callee i.caller i.args).outcome (announced w taken i)) := by
  rw [Stage.advance, h]
  rfl

/-- One that it refuses ends the run with the failure. -/
theorem Stage.advance_of_refused {taken : Nat} {i : Invocation} {w : World σ} {f : Failure}
    (h : l.enter i = .error f) :
    (Stage.attempts taken l i w).advance handler = .ended (.error f, w) := by
  rw [Stage.advance, h]

namespace Stage.Recasts

/-- Runs that begin with a value and with the recast one begin alike. -/
theorem start {w w' : World σ} (hw : w.Renumbers R.number w') (value : Value) :
    (Stage.start w value).Recasts R (.start w' (value.recast R)) := by
  have hfinal : ((finish .empty 0 (value.recast R) : Action σ Value).outcome w').1 =
      R.result (Value.recast R) ((finish .empty 0 value : Action σ Value).outcome w).1 := by
    have hclose : Ledger.empty.close = .ok () := rfl
    rw [outcome_finish, outcome_finish, hclose]
    rfl
  cases value with
  | pending i =>
    rw [Value.recast_pending]
    exact .attempts (Ledger.recasts_empty R) hw
  | tokens | text | nothing | outputs =>
    simp only [Value.recast_tokens, Value.recast_text, Value.recast_nothing,
      Value.recast_outputs] at hfinal ⊢
    exact .ended hfinal

/-- What a callee gave back is gone on with alike. -/
theorem behind (hR : StrictMono R.number) (hledger : l.Recasts R l') (taken taken' : Nat)
    (i : Invocation) {r r' : Except Failure Value × World σ}
    (hresult : r'.1 = R.result (Value.recast R) r.1) (hworld : r.2.Renumbers R.number r'.2) :
    (Stage.behind l taken i r).Recasts R (Stage.behind l' taken' (i.recast R) r') := by
  have hending : ∀ (value : Value) (w w' : World σ), Stage.Recasts R
      (.ended ((Stage.conclude l taken i value).outcome w))
      (.ended ((Stage.conclude l' taken' (i.recast R) (value.recast R)).outcome w')) := by
    intro value w w'
    refine .ended ?_
    rw [outcome_conclude, outcome_conclude, hledger.close hR, i.callee_recast, i.caller_recast,
      List.isEmpty_map]
    split
    · cases l.close <;> rfl
    · rfl
  obtain ⟨result, w⟩ := r
  obtain ⟨result', w'⟩ := r'
  dsimp only at hresult hworld
  subst hresult
  cases result with
  | error f => exact .ended rfl
  | ok value =>
    have hvalue := hending value w w'
    cases value with
    | pending next =>
      rw [Recasting.result_ok, Value.recast_pending]
      exact .attempts hledger hworld
    | tokens | text | nothing | outputs =>
      simp only [Recasting.result_ok, Value.recast_tokens, Value.recast_text, Value.recast_nothing,
        Value.recast_outputs] at hvalue ⊢
      exact hvalue

/-- Both runs go on alike. -/
theorem advance (h : s.Recasts R s') (hR : StrictMono R.number)
    (hhandler : ∀ c, (handler c).Recasts R) :
    (s.advance handler).Recasts R (s'.advance handler) := by
  cases h with
  | ended h => exact .ended h
  | @attempts taken taken' l l' i w w' hledger hworld =>
    have hannounced : (announced w taken i).Renumbers R.number
        (announced w' taken' (i.recast R)) := hworld
    obtain ⟨hresult, hafter⟩ := hhandler i.callee i.caller i.args _ _ hannounced
    have haccord := hledger.enter hR i
    cases henter : l.enter i with
    | error f =>
      rw [henter] at haccord
      generalize henter' : l'.enter (i.recast R) = entered' at haccord
      cases haccord
      rw [advance_of_refused henter, advance_of_refused henter']
      exact .ended rfl
    | ok m =>
      rw [henter] at haccord
      generalize henter' : l'.enter (i.recast R) = entered' at haccord
      obtain ⟨hm⟩ := haccord
      rw [advance_of_enter henter, advance_of_enter henter', i.callee_recast, i.caller_recast,
        i.args_recast]
      exact behind hR hm taken taken' i hresult hafter

/-- And so after any number of steps. -/
theorem iterate (h : s.Recasts R s') (hR : StrictMono R.number)
    (hhandler : ∀ c, (handler c).Recasts R) (n : Nat) :
    ((Stage.advance handler)^[n] s).Recasts R ((Stage.advance handler)^[n] s') := by
  induction n with
  | zero => exact h
  | succ n ih =>
    rw [Function.iterate_succ_apply', Function.iterate_succ_apply']
    exact ih.advance hR hhandler

/-- Two stages that are recast have the same call to make next, recast. -/
theorem next?_eq (h : s.Recasts R s') : s'.next? = s.next?.map (Invocation.recast R) := by
  cases h <;> rfl

/-- They are as deep, since chains keep their length. -/
theorem depth?_eq (h : s.Recasts R s') (hR : StrictMono R.number) : s'.depth? = s.depth? := by
  cases h with
  | ended h => rfl
  | @attempts taken taken' l l' i w w' hledger hworld =>
    have haccord := hledger.enter hR i
    rw [Stage.depth?, Stage.depth?]
    generalize l.enter i = entered, l'.enter (i.recast R) = entered' at haccord
    cases haccord with
    | refused => rfl
    | entered => simp

/-- Under limits that allow as many steps to come, both runs come to the same, or both use up their
steps in front of the same callee. -/
theorem run (h : s.Recasts R s') (hR : StrictMono R.number)
    (hhandler : ∀ c, (handler c).Recasts R) (recursion steps steps' : Int) (left : Nat) :
    (s'.run handler ⟨recursion, steps'⟩ left).1 =
        R.result (Value.recast R) (s.run handler ⟨recursion, steps⟩ left).1 ∨
      ∃ callee, (s.run handler ⟨recursion, steps⟩ left).1 =
          .error (.limit .steps steps callee) ∧
        (s'.run handler ⟨recursion, steps'⟩ left).1 = .error (.limit .steps steps' callee) := by
  induction left generalizing s s' with
  | zero =>
    cases hnext : s.next? with
    | none =>
      obtain ⟨outcome, rfl⟩ := eq_ended_of_next? hnext
      cases h with
      | ended h => exact .inl h
    | some i =>
      have hnext' := h.next?_eq
      rw [hnext, Option.map_some] at hnext'
      rw [run_of_none_left hnext, run_of_none_left hnext', i.callee_recast]
      exact .inr ⟨i.callee.name, rfl, rfl⟩
  | succ left ih =>
    by_cases hdeep : ∃ d, s.depth? = some d ∧ recursion < d
    · obtain ⟨d, hd, hlt⟩ := hdeep
      obtain ⟨i, hnext⟩ := next?_of_depth? hd
      have hnext' := h.next?_eq
      rw [hnext, Option.map_some] at hnext'
      rw [run_of_deep hnext hd hlt, run_of_deep hnext' ((h.depth?_eq hR).trans hd) hlt,
        i.callee_recast]
      exact .inl rfl
    · have hallowed : ∀ d, s.depth? = some d → (d : Int) ≤ recursion :=
        fun d hd ↦ Int.not_lt.mp fun hlt ↦ hdeep ⟨d, hd, hlt⟩
      have hallowed' : ∀ d, s'.depth? = some d → (d : Int) ≤ recursion := by
        rwa [h.depth?_eq hR]
      rw [run_advance hallowed', run_advance hallowed]
      exact ih (h.advance hR hhandler)

end Stage.Recasts

/-- A run of callees that are blind to a recasting comes to the same when what it begins with is
recast. -/
theorem result_run (hR : StrictMono R.number) (hhandler : ∀ c, (handler c).Recasts R)
    (limits : Limits) (start : Value) {w w' : World σ} (hw : w.Renumbers R.number w') :
    ((run handler limits (start.recast R)).outcome w').1 =
      R.result (Value.recast R) ((run handler limits start).outcome w).1 := by
  rw [Stage.run_start, Stage.run_start]
  rcases (Stage.Recasts.start hw start).run hR hhandler limits.recursion limits.steps
    limits.steps limits.steps.toNat with heq | ⟨callee, hstopped, hstopped'⟩
  · exact heq
  · rw [hstopped']
    exact (congrArg (R.result (Value.recast R)) hstopped).symm

end Machine

end Expander
