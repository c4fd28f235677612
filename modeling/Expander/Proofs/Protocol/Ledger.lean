import Std.Data.TreeMap.Lemmas
import Std.Data.TreeSet.Lemmas
import Mathlib.Tactic.ByContra
import Mathlib.Tactic.SplitIfs
import Mathlib.Tactic.Tauto
import Mathlib.Tactic.Push
import Expander.Protocol.Machine

/-!
# What the ledger records

A ledger kept over some steps holds two sets: the frames that the steps resumed, and the frames of
their chains that none of them has resumed (`Ledger.Records`). One more step is entered if and only
if the frame it resumes was not resumed before and no frame of its chain has been resumed by then
(`Ledger.Admits`), and the ledger behind it records that step too (`Ledger.enter_of_admits`). So at
the end nothing waits if and only if every frame of a chain has been resumed.
-/

set_option autoImplicit false

namespace Expander

/-- The numbers of the frames that some steps resume, in order. -/
def firedIds (steps : List Invocation) : List Nat :=
  steps.filterMap fun i ↦ i.fires.map (·.id)

@[simp] theorem firedIds_nil : firedIds [] = [] := rfl

theorem firedIds_append (steps more : List Invocation) :
    firedIds (steps ++ more) = firedIds steps ++ firedIds more :=
  List.filterMap_append

/-- A number has fired in some steps if one of them fires the frame of that number. -/
theorem mem_firedIds {steps : List Invocation} {n : Nat} :
    n ∈ firedIds steps ↔ ∃ i ∈ steps, ∃ f, i.fires = some f ∧ f.id = n := by
  simp [firedIds]

theorem firedIds_concat_none {steps : List Invocation} {i : Invocation} (h : i.fires = none) :
    firedIds (steps ++ [i]) = firedIds steps := by
  simp [firedIds, h]

/-- A step that fires a frame adds its number. -/
theorem firedIds_concat_some {steps : List Invocation} {i : Invocation} {f : Frame}
    (h : i.fires = some f) : firedIds (steps ++ [i]) = firedIds steps ++ [f.id] := by
  simp [firedIds, h]

/-- Whether a frame of a number is in the chain of one of some steps. -/
def InChain (steps : List Invocation) (n : Nat) : Prop :=
  ∃ i ∈ steps, ∃ f ∈ i.caller, f.id = n

/-- A number is in a chain of some steps or in that of one more. -/
theorem inChain_concat {steps : List Invocation} {i : Invocation} {n : Nat} :
    InChain (steps ++ [i]) n ↔ InChain steps n ∨ ∃ f ∈ i.caller, f.id = n := by
  simp [InChain, or_and_right, exists_or]

namespace Ledger

/-- A ledger that was kept over some steps. -/
structure Records (l : Ledger) (past : List Invocation) : Prop where
  fired : ∀ n, n ∈ l.fired ↔ n ∈ firedIds past
  live : ∀ n, n ∈ l.live ↔ InChain past n ∧ n ∉ firedIds past

/-- A step that may follow some others: the frame that it resumes was not resumed before, and no
frame of its chain has been resumed by then. -/
structure Admits (past : List Invocation) (i : Invocation) : Prop where
  fresh : ∀ f, i.fires = some f → f.id ∉ firedIds past
  unfired : ∀ f ∈ i.caller, f.id ∉ firedIds (past ++ [i])

/-- An empty ledger records no steps. -/
theorem records_empty : Records .empty [] where
  fired n := by simp [empty]
  live n := by simp [empty, InChain]

/-! ### One frame -/

/-- A frame that has not fired may fire, and then waits no longer. -/
theorem fire_of_notMem {l : Ledger} {f : Frame} (h : f.id ∉ l.fired) :
    l.fire f = .ok ⟨l.fired.insert f.id, l.live.erase f.id⟩ := by
  rw [fire, if_neg (mt Std.TreeSet.contains_iff_mem.mp h)]

/-- A frame that has fired is refused when it fires again. -/
theorem fire_of_mem {l : Ledger} {f : Frame} (h : f.id ∈ l.fired) :
    l.fire f = .error (.breach .firedTwice (some f.callee.name)) := by
  rw [fire, if_pos (Std.TreeSet.contains_iff_mem.mpr h)]

/-- A frame that has not fired may wait in a chain. -/
theorem watch_of_notMem {l : Ledger} {f : Frame} (h : f.id ∉ l.fired) :
    l.watch f = .ok { l with live := l.live.insertIfNew f.id f } := by
  rw [watch, if_neg (mt Std.TreeSet.contains_iff_mem.mp h)]

/-- A frame that has fired is refused where it stands in a chain. -/
theorem watch_of_mem {l : Ledger} {f : Frame} (h : f.id ∈ l.fired) :
    l.watch f = .error (.breach .usedAfterFired (some f.callee.name)) := by
  rw [watch, if_pos (Std.TreeSet.contains_iff_mem.mpr h)]

/-! ### Chains -/

/-- A chain is entered if none of its frames has been resumed; its frames then wait, besides those
that waited before. -/
theorem watch_chain {l : Ledger} {chain : Chain} (h : ∀ f ∈ chain, f.id ∉ l.fired) :
    ∃ l', chain.foldlM watch l = .ok l' ∧ l'.fired = l.fired ∧
      ∀ n, n ∈ l'.live ↔ n ∈ l.live ∨ ∃ f ∈ chain, f.id = n := by
  induction chain generalizing l with
  | nil => exact ⟨l, rfl, rfl, by simp⟩
  | cons f chain ih =>
    obtain ⟨l', hrun, hfired, hlive⟩ :=
      ih (l := { l with live := l.live.insertIfNew f.id f })
        fun g hg ↦ h g (List.mem_cons_of_mem f hg)
    refine ⟨l', ?_, hfired, fun n ↦ ?_⟩
    · rw [List.foldlM_cons, watch_of_notMem (h f List.mem_cons_self)]
      exact hrun
    · rw [hlive, Std.TreeMap.mem_insertIfNew]
      simp only [Nat.compare_eq_eq, List.mem_cons, exists_eq_or_imp]
      tauto

/-- A chain with a frame that has been resumed is refused. -/
theorem watch_chain_refused {l : Ledger} {chain : Chain} (h : ∃ f ∈ chain, f.id ∈ l.fired) :
    ∃ blamed, chain.foldlM watch l = .error (.breach .usedAfterFired blamed) := by
  induction chain generalizing l with
  | nil => simp at h
  | cons f chain ih =>
    by_cases hf : f.id ∈ l.fired
    · refine ⟨some f.callee.name, ?_⟩
      rw [List.foldlM_cons, watch_of_mem hf]
      rfl
    · obtain ⟨g, hg, hfired⟩ := h
      have hchain : ∃ g ∈ chain, g.id ∈ l.fired := by
        rcases List.mem_cons.mp hg with rfl | hg
        · exact absurd hfired hf
        · exact ⟨g, hg, hfired⟩
      obtain ⟨blamed, hrun⟩ := ih (l := { l with live := l.live.insertIfNew f.id f }) hchain
      refine ⟨blamed, ?_⟩
      rw [List.foldlM_cons, watch_of_notMem hf]
      exact hrun

/-! ### Steps -/

/-- Enters the frame that a step resumes, if it resumes one. -/
def settle (l : Ledger) : Option Frame → Except Failure Ledger
  | some f => l.fire f
  | none => .ok l

/-- To enter a step is to settle what it fires, and then to watch its chain. -/
theorem enter_eq (l : Ledger) (i : Invocation) :
    l.enter i = l.settle i.fires >>= fun l ↦ i.caller.foldlM watch l := by
  rw [enter]
  cases i.fires <;> rfl

/-- To watch a chain fires nothing. -/
theorem fired_of_watch {l l' : Ledger} {chain : Chain} (h : chain.foldlM watch l = .ok l') :
    l'.fired = l.fired := by
  by_cases hused : ∃ f ∈ chain, f.id ∈ l.fired
  · obtain ⟨blamed, hrefused⟩ := watch_chain_refused hused
    rw [h] at hrefused
    cases hrefused
  · have hunused : ∀ f ∈ chain, f.id ∉ l.fired := fun f hf hmem ↦ hused ⟨f, hf, hmem⟩
    obtain ⟨l₁, hrun, hfired, -⟩ := watch_chain hunused
    rw [h] at hrun
    cases hrun
    exact hfired

/-- Whatever a ledger holds, what was resumed stays so, and what a step resumes is added. -/
theorem mem_fired_of_enter {l l' : Ledger} {i : Invocation} (h : l.enter i = .ok l') {n : Nat} :
    n ∈ l'.fired ↔ n ∈ l.fired ∨ ∃ f, i.fires = some f ∧ f.id = n := by
  rw [enter_eq] at h
  cases hfires : i.fires with
  | none =>
    rw [hfires] at h
    simp [fired_of_watch h]
  | some f =>
    rw [hfires, settle] at h
    by_cases hf : f.id ∈ l.fired
    · rw [fire_of_mem hf] at h
      cases h
    · rw [fire_of_notMem hf] at h
      simp [fired_of_watch h, or_comm]

/-- A ledger refuses a step for no other reason than that a frame was resumed before. -/
theorem enter_eq_error {l : Ledger} {i : Invocation} {e : Failure} (h : l.enter i = .error e) :
    ∃ blamed, e = .breach .firedTwice blamed ∨ e = .breach .usedAfterFired blamed := by
  have hwatch : ∀ l' : Ledger, i.caller.foldlM watch l' = .error e →
      ∃ blamed, e = .breach .usedAfterFired blamed := by
    intro l' hl'
    by_cases hused : ∃ f ∈ i.caller, f.id ∈ l'.fired
    · obtain ⟨blamed, hrefused⟩ := watch_chain_refused hused
      exact ⟨blamed, Except.error.inj (hl'.symm.trans hrefused)⟩
    · have hunused : ∀ f ∈ i.caller, f.id ∉ l'.fired := fun f hf hmem ↦ hused ⟨f, hf, hmem⟩
      obtain ⟨l₁, hrun, -⟩ := watch_chain hunused
      cases hl'.symm.trans hrun
  rw [enter_eq] at h
  cases hfires : i.fires with
  | none =>
    rw [hfires] at h
    obtain ⟨blamed, rfl⟩ := hwatch l h
    exact ⟨blamed, .inr rfl⟩
  | some f =>
    rw [hfires, settle] at h
    by_cases hf : f.id ∈ l.fired
    · rw [fire_of_mem hf] at h
      exact ⟨_, .inl (Except.error.inj h).symm⟩
    · rw [fire_of_notMem hf] at h
      obtain ⟨blamed, rfl⟩ := hwatch _ h
      exact ⟨blamed, .inr rfl⟩

/-- A frame that fires for the first time is settled: the ledger then knows it as fired, and the
others as they were. -/
theorem settle_of_fresh {l : Ledger} {past : List Invocation} (hl : l.Records past)
    {i : Invocation} (h : ∀ f, i.fires = some f → f.id ∉ firedIds past) :
    ∃ l', l.settle i.fires = .ok l' ∧
      (∀ n, n ∈ l'.fired ↔ n ∈ firedIds (past ++ [i])) ∧
      ∀ n, n ∈ l'.live ↔ InChain past n ∧ n ∉ firedIds (past ++ [i]) := by
  have hids : ∀ n, n ∈ firedIds (past ++ [i]) ↔
      n ∈ firedIds past ∨ ∃ f, i.fires = some f ∧ f.id = n := by
    intro n
    simp [firedIds_append, mem_firedIds]
  cases hfires : i.fires with
  | none =>
    refine ⟨l, rfl, fun n ↦ ?_, fun n ↦ ?_⟩
    · rw [hids, hl.fired]
      simp [hfires]
    · rw [hids, hl.live]
      simp [hfires]
  | some f =>
    have hf : f.id ∉ l.fired := by
      rw [hl.fired]
      exact h f hfires
    refine ⟨_, fire_of_notMem hf, fun n ↦ ?_, fun n ↦ ?_⟩
    · rw [hids, Std.TreeSet.mem_insert, hl.fired]
      simp [hfires, or_comm]
    · rw [hids, Std.TreeMap.mem_erase, hl.live]
      simp only [hfires, ne_eq, Nat.compare_eq_eq, Option.some.injEq, exists_eq_left']
      tauto

/-- A step that is admitted is entered, and the ledger then records it too. -/
theorem enter_of_admits {l : Ledger} {past : List Invocation} (hl : l.Records past)
    {i : Invocation} (h : Admits past i) :
    ∃ l', l.enter i = .ok l' ∧ l'.Records (past ++ [i]) := by
  obtain ⟨l₁, hsettle, hfired, hlive⟩ := settle_of_fresh hl h.fresh
  have hunfired : ∀ f ∈ i.caller, f.id ∉ l₁.fired := by
    intro f hf
    rw [hfired]
    exact h.unfired f hf
  obtain ⟨l₂, hrun, hsame, hchain⟩ := watch_chain hunfired
  refine ⟨l₂, ?_, fun n ↦ ?_, fun n ↦ ?_⟩
  · rw [enter_eq, hsettle]
    exact hrun
  · rw [hsame, hfired]
  · rw [hchain, hlive, inChain_concat]
    constructor
    · rintro (⟨hpast, hn⟩ | ⟨f, hf, rfl⟩)
      · exact ⟨.inl hpast, hn⟩
      · exact ⟨.inr ⟨f, hf, rfl⟩, h.unfired f hf⟩
    · rintro ⟨hpast | hf, hn⟩
      · exact .inl ⟨hpast, hn⟩
      · exact .inr hf

/-- A step that is not admitted is refused as a breach. -/
theorem enter_of_not_admits {l : Ledger} {past : List Invocation} (hl : l.Records past)
    {i : Invocation} (h : ¬ Admits past i) :
    ∃ breach blamed, l.enter i = .error (.breach breach blamed) := by
  by_cases hfresh : ∀ f, i.fires = some f → f.id ∉ firedIds past
  · obtain ⟨l₁, hsettle, hfired, -⟩ := settle_of_fresh hl hfresh
    have hused : ∃ f ∈ i.caller, f.id ∈ l₁.fired := by
      by_contra hnone
      refine h ⟨hfresh, fun f hf hmem ↦ hnone ⟨f, hf, ?_⟩⟩
      rw [hfired]
      exact hmem
    obtain ⟨blamed, hrun⟩ := watch_chain_refused hused
    refine ⟨.usedAfterFired, blamed, ?_⟩
    rw [enter_eq, hsettle]
    exact hrun
  · push Not at hfresh
    obtain ⟨f, hfires, hmem⟩ := hfresh
    refine ⟨.firedTwice, some f.callee.name, ?_⟩
    rw [enter_eq, hfires, settle, fire_of_mem ((hl.fired f.id).mpr hmem)]
    rfl

/-- A step that the ledger takes is one that it was to admit, and is recorded. -/
theorem admits_of_enter {l l' : Ledger} {past : List Invocation} (hl : l.Records past)
    {i : Invocation} (h : l.enter i = .ok l') : Admits past i ∧ l'.Records (past ++ [i]) := by
  by_cases hadmits : Admits past i
  · obtain ⟨entered, henter, hrecords⟩ := enter_of_admits hl hadmits
    rw [h] at henter
    cases henter
    exact ⟨hadmits, hrecords⟩
  · obtain ⟨breach, blamed, hrefused⟩ := enter_of_not_admits hl hadmits
    rw [h] at hrefused
    cases hrefused

/-- Nothing waits if and only if every frame of a chain has been resumed. -/
theorem close_eq_ok_iff {l : Ledger} {past : List Invocation} (hl : l.Records past) :
    l.close = .ok () ↔ ∀ n, InChain past n → n ∈ firedIds past := by
  have hempty : l.live.isEmpty = true ↔ ∀ n, InChain past n → n ∈ firedIds past := by
    rw [Std.TreeMap.isEmpty_iff_forall_not_mem]
    refine forall_congr' fun n ↦ ?_
    rw [hl.live]
    tauto
  rw [← hempty, close]
  split_ifs with h <;> simp [h]

/-- A ledger does not close while a frame of some chain has not fired. -/
theorem close_of_waiting {l : Ledger} {past : List Invocation} (hl : l.Records past)
    (h : ¬ ∀ n, InChain past n → n ∈ firedIds past) :
    ∃ callees, l.close = .error (.breach (.neverFired callees) none) := by
  rw [← close_eq_ok_iff hl] at h
  unfold close at h ⊢
  split_ifs at h ⊢ with hempty
  · exact absurd rfl h
  · exact ⟨_, rfl⟩

end Ledger

end Expander
