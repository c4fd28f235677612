import Expander.Proofs.Protocol.Evaluation
import Expander.Proofs.Protocol.Ledger
import Expander.Proofs.Protocol.Outcome

/-!
# The machine between two steps

The frames of a chain are told apart by numbers that no frame had before. A machine whose frames are
numbered so refuses no step of a rule by its ledger, since every move leaves it in such a state
again (`Machine.Point.Sound.step`). What a rule's move comes to in one step is said before that,
move by move.
-/

set_option autoImplicit false

namespace Expander

variable {σ : Type}

/-! ### Frames that a move makes -/

/-- What a frame resumes, without its number. -/
def Frame.resumption (f : Frame) : Resumption := ⟨f.callee, f.state⟩

/-- The frames of resumptions, numbered from the last one on. -/
def numbered (n : Nat) : List Resumption → Chain
  | [] => []
  | r :: rs => ⟨n + rs.length, r.callee, r.state⟩ :: numbered n rs

@[simp] theorem length_numbered (n : Nat) (rs : List Resumption) :
    (numbered n rs).length = rs.length := by
  induction rs with
  | nil => rfl
  | cons r rs ih => rw [numbered, List.length_cons, ih, List.length_cons]

/-- Frames that are numbered wait for what they were made of. -/
theorem map_resumption_numbered (n : Nat) (rs : List Resumption) :
    (numbered n rs).map Frame.resumption = rs := by
  induction rs with
  | nil => rfl
  | cons r rs ih => rw [numbered, List.map_cons, ih, Frame.resumption]

/-- The numbers of new frames are the next ones. -/
theorem id_of_mem_numbered {n : Nat} {rs : List Resumption} {f : Frame}
    (h : f ∈ numbered n rs) : n ≤ f.id ∧ f.id < n + rs.length := by
  induction rs with
  | nil => simp [numbered] at h
  | cons r rs ih =>
    rw [numbered, List.mem_cons] at h
    rw [List.length_cons]
    rcases h with rfl | h
    · exact ⟨by simp, by simp⟩
    · have := ih h
      omega

/-- They are all different. -/
theorem nodup_numbered (n : Nat) (rs : List Resumption) :
    ((numbered n rs).map (·.id)).Nodup := by
  induction rs with
  | nil => simp [numbered]
  | cons r rs ih =>
    rw [numbered, List.map_cons, List.nodup_cons]
    refine ⟨fun h ↦ ?_, ih⟩
    obtain ⟨f, hf, hid⟩ := List.mem_map.mp h
    have := (id_of_mem_numbered hf).2
    dsimp only at hid
    omega

/-- To put resumptions on a chain makes a frame of each, and uses up as many numbers. -/
theorem outcome_stack (caller : Chain) (rs : List Resumption) (w : World σ) :
    (stack caller rs : Action σ Chain).outcome w =
      (.ok (numbered w.nextFrame rs ++ caller),
        { w with nextFrame := w.nextFrame + rs.length }) := by
  induction rs with
  | nil => rfl
  | cons r rs ih =>
    rw [stack, Action.outcome_bind, ih]
    simp only [Action.outcome_bind, Action.outcome_frame, Action.outcome_pure, numbered,
      List.cons_append, List.length_cons, Nat.add_assoc]

/-! ### One step of a rule -/

section

variable {rule : Rule} {caller : Chain} {args : List Argument} {w : World σ}

/-- What a rule comes to decides the step of its callee. A failure ends the run. -/
theorem outcome_handler_fails {f : Failure} (h : rule args = .error f) :
    (rule.handler caller args).outcome w = (.error f, w) := by
  rw [Rule.handler, h, Action.outcome_bind, Action.outcome_lift]

/-- Outputs go back to the nearest caller. -/
theorem outcome_handler_gives {outs : List Argument} (h : rule args = .ok (.giveBack outs)) :
    (rule.handler caller args).outcome w = (returnTo caller (.ok outs), w) := by
  rw [Rule.handler, h, Action.outcome_bind, Action.outcome_lift]
  exact Action.outcome_lift _ w

/-- A tail call hands the callers on as they are. -/
theorem outcome_handler_tails {target : Callee} {targs : List Argument}
    (h : rule args = .ok (.tail target targs)) (hnames : (shape targs).Nodup) :
    (rule.handler caller args).outcome w =
      (.ok (.pending ⟨target, caller, targs, none⟩), w) := by
  rw [Rule.handler, h, Action.outcome_bind, Action.outcome_lift]
  dsimp only
  rw [Move.perform, tailCall_of_nodup hnames, Action.outcome_lift]

/-- A call puts new frames in front of the callers. -/
theorem outcome_handler_calls {target : Callee} {targs : List Argument} {near : Resumption}
    {outer : List Resumption} (h : rule args = .ok (.call target targs near outer))
    (hnames : (shape targs).Nodup)
    (hfree : ∀ names, target.outputs = some names → ∀ n ∈ shape near.state, n ∉ names) :
    (rule.handler caller args).outcome w =
      (.ok (.pending ⟨target, numbered w.nextFrame (near :: outer) ++ caller, targs, none⟩),
        { w with nextFrame := w.nextFrame + (near :: outer).length }) := by
  rw [Rule.handler, h, Action.outcome_bind, Action.outcome_lift]
  dsimp only
  rw [Move.perform, Action.outcome_bind, outcome_stack]
  dsimp only
  rw [numbered, List.cons_append, callFor_cons hnames hfree, Action.outcome_lift]

end

/-! ### The machine between two steps -/

/-- The frames that a step resumes or that wait for it. -/
def Invocation.frames (i : Invocation) : List Frame := i.fires.toList ++ i.caller

namespace Machine

/-- A machine that is about to take a step. -/
structure Point (σ : Type) where
  left : Nat
  taken : Nat
  ledger : Ledger
  next : Invocation
  world : World σ

namespace Point

/-- A machine behind some steps whose frames have numbers of their own. -/
structure Sound (p : Point σ) (past : List Invocation) : Prop where
  records : p.ledger.Records past
  distinct : (p.next.frames.map (·.id)).Nodup
  numbered : ∀ f ∈ p.next.frames, f.id < p.world.nextFrame
  pastNumbered : ∀ n ∈ firedIds past, n < p.world.nextFrame
  fresh : ∀ f ∈ p.next.frames, f.id ∉ firedIds past
  waiting : ∀ n, InChain past n → n ∈ firedIds past ∨ ∃ f ∈ p.next.frames, f.id = n

/-- How the run goes on from here. -/
def run (handler : Callee → Handler σ) (limits : Limits) (p : Point σ) :
    Except Failure Value × World σ :=
  (runFrom handler limits p.left p.taken p.ledger p.next).outcome p.world

variable {p : Point σ} {past : List Invocation}

/-- At a sound point the ledger will admit the next call. -/
theorem Sound.admits (h : p.Sound past) : Ledger.Admits past p.next where
  fresh f hf := h.fresh f (by simp [Invocation.frames, hf])
  unfired f hf hmem := by
    rw [firedIds_append, List.mem_append] at hmem
    rcases hmem with hmem | hmem
    · exact h.fresh f (List.mem_append_right _ hf) hmem
    · obtain ⟨i, hi, g, hg, hid⟩ := mem_firedIds.mp hmem
      rw [List.mem_singleton] at hi
      subst hi
      have hdistinct := h.distinct
      rw [Invocation.frames, hg, Option.toList_some, List.singleton_append, List.map_cons,
        List.nodup_cons] at hdistinct
      exact hdistinct.1 (List.mem_map.mpr ⟨f, hf, hid.symm⟩)

/-- The numbers of frames that wait have been given out. -/
theorem Sound.caller_lt (h : p.Sound past) : ∀ f ∈ p.next.caller, f.id < p.world.nextFrame :=
  fun f hf ↦ h.numbered f (List.mem_append_right _ hf)

/-- The numbers of frames that have fired have been given out as well. -/
theorem Sound.fired_lt (h : p.Sound past) :
    ∀ n ∈ firedIds (past ++ [p.next]), n < p.world.nextFrame := by
  intro n hn
  rw [firedIds_append, List.mem_append] at hn
  rcases hn with hn | hn
  · exact h.pastNumbered n hn
  · obtain ⟨i, hi, g, hg, rfl⟩ := mem_firedIds.mp hn
    rw [List.mem_singleton] at hi
    subst hi
    exact h.numbered g (by simp [Invocation.frames, hg])

/-- What has been in a chain is resumed by the next step at the latest, or waits behind it. -/
theorem Sound.fired_or_waits (h : p.Sound past) {n : Nat} (hn : InChain (past ++ [p.next]) n) :
    n ∈ firedIds (past ++ [p.next]) ∨ ∃ f ∈ p.next.caller, f.id = n := by
  rcases inChain_concat.mp hn with hn | hn
  · rw [firedIds_append, List.mem_append]
    rcases h.waiting n hn with hn | ⟨f, hf, rfl⟩
    · exact .inl (.inl hn)
    · rw [Invocation.frames, List.mem_append, Option.mem_toList] at hf
      rcases hf with hf | hf
      · exact .inl (.inr (mem_firedIds.mpr ⟨p.next, by simp, f, hf, rfl⟩))
      · exact .inr ⟨f, hf, rfl⟩
  · exact .inr hn

/-- New frames in front of the callers have numbers of their own. -/
theorem Sound.nodup_numbered_append (h : p.Sound past) (rs : List Resumption) :
    ((Expander.numbered p.world.nextFrame rs ++ p.next.caller).map (·.id)).Nodup := by
  have hdistinct := h.distinct
  rw [Invocation.frames, List.map_append, List.nodup_append] at hdistinct
  rw [List.map_append, List.nodup_append]
  refine ⟨nodup_numbered _ _, hdistinct.2.1, ?_⟩
  intro m hm n hn heq
  obtain ⟨f, hf, rfl⟩ := List.mem_map.mp hm
  obtain ⟨g, hg, rfl⟩ := List.mem_map.mp hn
  have := (id_of_mem_numbered hf).1
  have := h.caller_lt g hg
  omega

/-- A step that resumes nothing but what waits for it, and lets wait nothing but that and new
frames, leaves the machine sound. -/
theorem Sound.step (h : p.Sound past) {entered : Ledger}
    (henter : p.ledger.enter p.next = .ok entered) {left taken : Nat} {next : Invocation}
    {w : World σ} {rs : List Resumption}
    (hframes : next.frames = Expander.numbered p.world.nextFrame rs ++ p.next.caller)
    (hworld : w.nextFrame = p.world.nextFrame + rs.length) :
    Sound ⟨left, taken, entered, next, w⟩ (past ++ [p.next]) where
  records := (Ledger.admits_of_enter h.records henter).2
  distinct := by
    rw [hframes]
    exact h.nodup_numbered_append rs
  numbered := by
    intro f hf
    rw [hframes, List.mem_append] at hf
    rw [hworld]
    rcases hf with hf | hf
    · exact (id_of_mem_numbered hf).2
    · exact Nat.lt_add_right _ (h.caller_lt f hf)
  pastNumbered := by
    intro n hn
    rw [hworld]
    exact Nat.lt_add_right _ (h.fired_lt n hn)
  fresh := by
    intro f hf hmem
    rw [hframes, List.mem_append] at hf
    rcases hf with hf | hf
    · have := (id_of_mem_numbered hf).1
      have := h.fired_lt _ hmem
      omega
    · exact h.admits.unfired f hf hmem
  waiting := by
    intro n hn
    rw [hframes]
    rcases h.fired_or_waits hn with hn | ⟨f, hf, rfl⟩
    · exact .inl hn
    · exact .inr ⟨f, List.mem_append_right _ hf, rfl⟩

end Point

end Machine

end Expander
