import Expander.Proofs.Token.Windows

/-!
# How far windows can be moved

A slice of a window is a part of it (`within_of_slice?`), whatever its bounds are. A skip leaves a
part of the window if and only if its count is not negative (`skip_within_iff`): nothing stops the
start on its way back. Along a chain of moves the stop never moves on, and the start falls behind
where it was by no more than the backward skips among the moves add up to (`moves_within`). So
without backward skips a chain ends in range and with a contiguous part of what the window showed
(`moves_narrow`).

Backward skips do more than give up the part that they leave. They bring back tokens that a window
had passed, and before the first stored token the start becomes a place from the end, so that the
last tokens are shown in front of the first (`backward_skip_widens`).
-/

set_option autoImplicit false

namespace Expander.Window

variable {u v w : Window} {start stop step : Option Int}

/-! ### Parts of a window -/

/-- A window on a part of what another one is on. -/
structure Within (v w : Window) : Prop where
  stored_eq : v.stored = w.stored
  start_le : w.start ≤ v.start
  start_le_stop : v.start ≤ v.stop
  stop_le : v.stop ≤ w.stop

/-- A part of a part is a part. -/
theorem Within.trans (huv : u.Within v) (hvw : v.Within w) : u.Within w where
  stored_eq := huv.stored_eq.trans hvw.stored_eq
  start_le := Int.le_trans hvw.start_le huv.start_le
  start_le_stop := huv.start_le_stop
  stop_le := Int.le_trans huv.stop_le hvw.stop_le

/-- A part of a window in range is in range. -/
theorem Within.inRange (h : v.Within w) (hw : w.InRange) : v.InRange where
  start_nonneg := Int.le_trans hw.start_nonneg h.start_le
  start_le_stop := h.start_le_stop
  stop_le := by
    rw [h.stored_eq]
    exact Int.le_trans h.stop_le hw.stop_le

/-- A part shows what is left of the window when some tokens are cut off at both ends. -/
theorem Within.shown_eq (h : v.Within w) (hw : 0 ≤ w.start) : v.shown =
    (w.shown.take (v.stop - w.start).toNat).drop (v.start - w.start).toNat := by
  obtain ⟨hstored, hstart, hle, hstop⟩ := h
  have htake : min (w.start.toNat + (v.stop - w.start).toNat) w.stop.toNat = v.stop.toNat := by
    omega
  have hdrop : w.start.toNat + (v.start - w.start).toNat = v.start.toNat := by omega
  rw [shown, shown, hstored, List.take_drop, List.take_take, htake, List.drop_drop, hdrop]

/-- A part of a window shows a stretch of what the window shows. -/
theorem Within.shown_infix (h : v.Within w) (hw : 0 ≤ w.start) : v.shown <:+: w.shown := by
  rw [h.shown_eq hw]
  exact (List.drop_suffix _ _).isInfix.trans (List.take_prefix _ _).isInfix

/-! ### One move -/

/-- A bound that is clamped is within the length. -/
theorem clampBound_range {length : Int} (h : 0 ≤ length) (bound : Int) :
    0 ≤ clampBound length bound ∧ clampBound length bound ≤ length := by
  rw [clampBound]
  split <;> omega

/-- A slice is a window if its step is one. -/
theorem slice?_eq_ok_iff : w.slice? start stop step = .ok v ↔ step.getD 1 = 1 ∧
    v = { w with
      start := w.start + clampBound w.length (start.getD 0)
      stop := w.start + max (clampBound w.length (start.getD 0))
        (clampBound w.length (stop.getD w.length)) } := by
  rw [slice?]
  split
  · next hzero => simp [hzero]
  · next hone => simp [hone, eq_comm]
  · next hstepped =>
    constructor
    · intro hfails
      cases hfails
    · rintro ⟨hone, -⟩
      exact absurd hone hstepped

/-- A slice is a part of the window. -/
theorem within_of_slice? (h : w.start ≤ w.stop) (hslice : w.slice? start stop step = .ok v) :
    v.Within w := by
  obtain ⟨-, rfl⟩ := slice?_eq_ok_iff.mp hslice
  have hlength : 0 ≤ w.length := Int.sub_nonneg_of_le h
  obtain ⟨hfirst, hfirst'⟩ := clampBound_range hlength (start.getD 0)
  obtain ⟨hlast, hlast'⟩ := clampBound_range hlength (stop.getD w.length)
  have hstop : w.start + w.length = w.stop := by
    rw [length]
    omega
  constructor
  · rfl
  · change w.start ≤ w.start + _
    omega
  · change w.start + _ ≤ w.start + _
    omega
  · change w.start + _ ≤ w.stop
    omega

/-- A skip leaves a part of the window if and only if it does not go back. -/
theorem skip_within_iff (h : w.start ≤ w.stop) {count : Int} :
    (w.skip count).Within w ↔ 0 ≤ count := by
  constructor
  · intro hwithin
    have hstart : w.start ≤ min (w.start + count) w.stop := hwithin.start_le
    omega
  · intro hcount
    constructor
    · rfl
    · change w.start ≤ min (w.start + count) w.stop
      omega
    · change min (w.start + count) w.stop ≤ w.stop
      omega
    · exact Int.le_refl _

/-- A move of the cursor of a window. -/
inductive Move
  | skip (count : Int)
  | slice (start stop step : Option Int)

/-- The window after a move, if the move does not fail. -/
def move (w : Window) : Move → Except Failure Window
  | .skip count => .ok (w.skip count)
  | .slice start stop step => w.slice? start stop step

/-- How far a move may take the start back. -/
def Move.setback : Move → Nat
  | skip count => (-count).toNat
  | slice .. => 0

/-- The window with its start taken back. -/
def setBack (w : Window) (count : Nat) : Window := { w with start := w.start - count }

variable {m : Move} {ms : List Move}

/-- A move leads to a part of the window, set back by as much as the move skips backwards. -/
theorem move_within (h : w.start ≤ w.stop) (hm : w.move m = .ok v) :
    v.Within (w.setBack m.setback) := by
  cases m with
  | slice start stop step =>
    have hzero : w.setBack 0 = w := by
      rw [setBack, Int.natCast_zero, Int.sub_zero]
    rw [Move.setback, hzero]
    exact within_of_slice? h hm
  | skip count =>
    obtain rfl : w.skip count = v := Except.ok.inj hm
    constructor
    · rfl
    · change w.start - (-count).toNat ≤ min (w.start + count) w.stop
      omega
    · change min (w.start + count) w.stop ≤ w.stop
      omega
    · exact Int.le_refl _

/-! ### Chains of moves -/

/-- The window after some moves, if none of them fails. -/
def moves (w : Window) (ms : List Move) : Except Failure Window := ms.foldlM move w

/-- How far some moves may take the start back in all. -/
def setbacks (ms : List Move) : Nat := ms.foldr (fun m far ↦ m.setback + far) 0

theorem moves_cons_eq_ok_iff :
    w.moves (m :: ms) = .ok v ↔ ∃ u, w.move m = .ok u ∧ u.moves ms = .ok v := by
  rw [moves, List.foldlM_cons]
  constructor
  · intro h
    cases hm : w.move m with
    | error =>
      rw [hm] at h
      cases h
    | ok u =>
      rw [hm] at h
      exact ⟨u, rfl, h⟩
  · rintro ⟨u, hm, h⟩
    rw [hm]
    exact h

theorem moves_append_eq_ok_iff {front back : List Move} :
    w.moves (front ++ back) = .ok v ↔ ∃ u, w.moves front = .ok u ∧ u.moves back = .ok v := by
  induction front generalizing w with
  | nil =>
    constructor
    · intro h
      exact ⟨w, rfl, h⟩
    · rintro ⟨u, hu, h⟩
      cases hu
      exact h
  | cons m front ih =>
    simp only [List.cons_append, moves_cons_eq_ok_iff, ih]
    constructor
    · rintro ⟨t, ht, u, hu, h⟩
      exact ⟨u, ⟨t, ht, hu⟩, h⟩
    · rintro ⟨u, ⟨t, ht, hu⟩, h⟩
      exact ⟨t, ht, u, hu, h⟩

/-- A chain of moves never passes the stop, and the start falls back by no more than the backward
skips add up to. -/
theorem moves_within (h : w.start ≤ w.stop) (hms : w.moves ms = .ok v) :
    v.Within (w.setBack (setbacks ms)) := by
  induction ms generalizing w with
  | nil =>
    obtain rfl : w = v := Except.ok.inj hms
    constructor
    · rfl
    · change w.start - (0 : Nat) ≤ w.start
      omega
    · exact h
    · exact Int.le_refl _
  | cons m ms ih =>
    obtain ⟨u, hm, hrest⟩ := moves_cons_eq_ok_iff.mp hms
    have hstep := move_within h hm
    have hrun := ih hstep.start_le_stop hrest
    -- The other moves fall back from where the first one leaves the start.
    have hsum : setbacks (m :: ms) = m.setback + setbacks ms := rfl
    have hstart : w.start - m.setback ≤ u.start := hstep.start_le
    refine hrun.trans ⟨hstep.stored_eq, ?_, ?_, hstep.stop_le⟩
    · change w.start - (setbacks (m :: ms) : Nat) ≤ u.start - (setbacks ms : Nat)
      omega
    · change u.start - (setbacks ms : Nat) ≤ u.stop
      have hle := hstep.start_le_stop
      omega

/-- Moves that skip forwards only set nothing back. -/
theorem setbacks_eq_zero (h : ∀ count, Move.skip count ∈ ms → 0 ≤ count) : setbacks ms = 0 := by
  induction ms with
  | nil => rfl
  | cons m ms ih =>
    have hrest := ih fun count hcount ↦ h count (List.mem_cons_of_mem m hcount)
    have hfirst : m.setback = 0 := by
      cases m with
      | slice => rfl
      | skip count =>
        have hcount := h count List.mem_cons_self
        rw [Move.setback]
        omega
    rw [setbacks, List.foldr_cons, hfirst, Nat.zero_add]
    exact hrest

/-- Each view that a chain of moves comes by is a part of the one before it. -/
def NarrowsAlong (w : Window) (ms : List Move) : Prop :=
  ∀ front m back u v, ms = front ++ m :: back → w.moves front = .ok u → u.move m = .ok v →
    v.Within u

/-- It is the backward skips, and each of them, that leave more than a part. -/
theorem narrowsAlong_iff (h : w.start ≤ w.stop) (hms : w.moves ms = .ok v) :
    w.NarrowsAlong ms ↔ ∀ count, Move.skip count ∈ ms → 0 ≤ count := by
  constructor
  · intro hnarrows count hmem
    obtain ⟨front, back, rfl⟩ := List.append_of_mem hmem
    obtain ⟨u, hfront, -⟩ := moves_append_eq_ok_iff.mp hms
    have hwithin := hnarrows front _ back u (u.skip count) rfl hfront rfl
    exact (skip_within_iff (moves_within h hfront).start_le_stop).mp hwithin
  · rintro hforward front m back u v rfl hfront hm
    have hle := (moves_within h hfront).start_le_stop
    cases m with
    | slice => exact within_of_slice? hle hm
    | skip count =>
      obtain rfl : u.skip count = v := Except.ok.inj hm
      exact (skip_within_iff hle).mpr (hforward count (by simp))

/-- A chain of moves leads back by no more than its backward skips. Without any it narrows from
step to step, and ends in range with a contiguous part of what the window showed. -/
theorem moves_narrow (hw : w.InRange) (hms : w.moves ms = .ok v) :
    v.Within (w.setBack (setbacks ms)) ∧
      (w.NarrowsAlong ms ↔ ∀ count, Move.skip count ∈ ms → 0 ≤ count) ∧
      ((∀ count, Move.skip count ∈ ms → 0 ≤ count) → v.InRange ∧ v.Within w ∧
        ∃ ts us, w.toList = .ok ts ∧ v.toList = .ok us ∧ us <:+: ts) := by
  have hreach := moves_within hw.start_le_stop hms
  refine ⟨hreach, narrowsAlong_iff hw.start_le_stop hms, fun hforward ↦ ?_⟩
  have hwithin : v.Within w := by
    rw [setbacks_eq_zero hforward, setBack, Int.natCast_zero, Int.sub_zero] at hreach
    exact hreach
  have hv := hwithin.inRange hw
  exact ⟨hv, hwithin, w.shown, v.shown, hw.toList_eq, hv.toList_eq,
    hwithin.shown_infix hw.start_nonneg⟩

/-- Two names, stored for a window. -/
def twoNames : List Token := [.leaf .ident "a" none, .leaf .ident "b" none]

/-- The second of them is left of both when the first is skipped, and all of a slice whose bounds
are not in it. -/
theorem moves_narrow_twoNames : (ofList twoNames).InRange ∧
    (ofList twoNames).moves [.skip 1, .slice (some (-5)) (some 5) none] = .ok ⟨twoNames, 1, 2⟩ ∧
    (⟨twoNames, 1, 2⟩ : Window).InRange ∧ (⟨twoNames, 1, 2⟩ : Window).Within (ofList twoNames) ∧
    ∃ ts us, (ofList twoNames).toList = .ok ts ∧ (⟨twoNames, 1, 2⟩ : Window).toList = .ok us ∧
      us <:+: ts := by
  have hrange : (ofList twoNames).InRange := ⟨by decide, by decide, by decide⟩
  have hmoves : (ofList twoNames).moves [.skip 1, .slice (some (-5)) (some 5) none] =
      .ok ⟨twoNames, 1, 2⟩ := rfl
  refine ⟨hrange, hmoves, (moves_narrow hrange hmoves).2.2 ?_⟩
  simp

/-- A window from which both names are cut off shows one of them again after a skip of minus one.
On all of the storage the same skip leaves the range, and shows the second name in front of both. -/
theorem backward_skip_widens :
    (⟨twoNames, 2, 2⟩ : Window).InRange ∧ (⟨twoNames, 2, 2⟩ : Window).toList = .ok [] ∧
      (⟨twoNames, 2, 2⟩ : Window).moves [.skip (-1)] = .ok ⟨twoNames, 1, 2⟩ ∧
      (⟨twoNames, 1, 2⟩ : Window).toList = .ok [.leaf .ident "b" none] ∧
      ¬ (⟨twoNames, 1, 2⟩ : Window).Within ⟨twoNames, 2, 2⟩ ∧
      (ofList twoNames).InRange ∧ (ofList twoNames).moves [.skip (-1)] = .ok ⟨twoNames, -1, 2⟩ ∧
      (⟨twoNames, -1, 2⟩ : Window).toList =
        .ok [.leaf .ident "b" none, .leaf .ident "a" none, .leaf .ident "b" none] ∧
      ¬ (⟨twoNames, -1, 2⟩ : Window).InRange := by
  refine ⟨⟨by decide, by decide, by decide⟩, rfl, rfl, rfl, ?_, ⟨by decide, by decide, by decide⟩,
    rfl, rfl, ?_⟩
  · intro hwithin
    exact absurd hwithin.start_le (by decide)
  · intro hrange
    exact absurd hrange.start_nonneg (by decide)

end Expander.Window
