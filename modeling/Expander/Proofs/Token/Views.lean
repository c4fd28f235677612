import Expander.Proofs.Token.Narrowing

/-!
# Views made by chains of operations

A view is made from sequences of tokens by skipping, slicing and putting together, in any order and
as often as one likes (`Chain`). On windows the first two move a cursor on the storage that the
views share and the others copy what is shown; on lists the same operations drop, select and
concatenate (`Chain.list`). A chain without backward skips always makes a window in range, and
nothing that is asked of the window tells it from the list of the same chain (`chain_actsAs`).
-/

set_option autoImplicit false

namespace Expander.Window

variable {u v w : Window} {ts us : List Token}

/-! ### Single operations -/

/-- A window on a whole list is in range. -/
theorem inRange_ofList (ts : List Token) : (ofList ts).InRange where
  start_nonneg := Int.le_refl 0
  start_le_stop := Int.natCast_nonneg _
  stop_le := Int.le_refl _

theorem shown_ofList (ts : List Token) : (ofList ts).shown = ts := by
  rw [shown, ofList, Int.toNat_natCast, List.take_length]
  rfl

/-- To skip some tokens of a window is to drop them from its list. -/
theorem shown_skip (h : w.InRange) (count : Nat) : (w.skip count).shown = w.shown.drop count := by
  have hwithin : (w.skip count).Within w :=
    (skip_within_iff h.start_le_stop).mpr (Int.natCast_nonneg _)
  have hlength := h.length_eq
  rw [length] at hlength
  rw [hwithin.shown_eq h.start_nonneg]
  change (w.shown.take (w.stop - w.start).toNat).drop
    (min (w.start + count) w.stop - w.start).toNat = _
  rw [hlength, Int.toNat_natCast, List.take_length, List.drop_eq_drop_iff]
  omega

/-- A slice whose stop is before its start is empty, as one that stops where it starts. -/
theorem drop_take_max (ts : List Token) (first last : Nat) :
    (ts.take (max first last)).drop first = (ts.take last).drop first := by
  by_cases h : first ≤ last
  · rw [Nat.max_eq_right h]
  · rw [Nat.max_eq_left (Nat.le_of_not_le h), List.drop_of_length_le (List.length_take_le _ _),
      List.drop_of_length_le (Nat.le_trans (List.length_take_le _ _) (Nat.le_of_not_le h))]

/-- A slice with a step of one does not fail. -/
theorem exists_slice? (h : w.InRange) (start stop : Option Int) {step : Option Int}
    (hstep : step.getD 1 = 1) : ∃ v, w.slice? start stop step = .ok v ∧ v.InRange ∧
      v.shown = itemsBetween w.shown start stop := by
  obtain ⟨v, hv⟩ : ∃ v, w.slice? start stop step = .ok v :=
    ⟨_, slice?_eq_ok_iff.mpr ⟨hstep, rfl⟩⟩
  have hwithin := within_of_slice? h.start_le_stop hv
  refine ⟨v, hv, hwithin.inRange h, ?_⟩
  obtain ⟨-, rfl⟩ := slice?_eq_ok_iff.mp hv
  -- The cursor of the slice is counted from the start of the window, as the list counts.
  have hlength := Int.natCast_nonneg w.shown.length
  have hfirst := (clampBound_range hlength (start.getD 0)).1
  have hlast := (clampBound_range hlength (stop.getD w.shown.length)).1
  have htake (first last : Int) (hfirst : 0 ≤ first) (hlast : 0 ≤ last) :
      (w.start + max first last - w.start).toNat = max first.toNat last.toNat := by
    omega
  have hdrop (first : Int) : (w.start + first - w.start).toNat = first.toNat := by
    omega
  rw [hwithin.shown_eq h.start_nonneg, itemsBetween_eq, h.length_eq, htake _ _ hfirst hlast, hdrop,
    drop_take_max]

/-! ### Chains -/

mutual

/-- How a view is made. A slice has a step of one, which may be left out. -/
inductive Chain
  | tuple (tokens : List Token)
  | skip (view : Chain) (count : Nat)
  | slice (view : Chain) (start stop step : Option Int) (contiguous : step.getD 1 = 1)
  | of (pieces : List Piece)
  | append (view : Chain) (piece : Piece)

/-- What is put together: a token, a list of tokens or another view. -/
inductive Piece
  | token (token : Token)
  | list (tokens : List Token)
  | view (view : Chain)

end

mutual

/-- The view that a chain of operations makes. -/
def Chain.window : Chain → Except Failure Window
  | .tuple ts => .ok (ofList ts)
  | .skip c count => do return (← c.window).skip count
  | .slice c start stop step _ => do (← c.window).slice? start stop step
  | .of ps => do Window.of (← parts ps)
  | .append c p => do (← c.window).append (← p.part)

def Piece.part : Piece → Except Failure Part
  | .token t => .ok (.token t)
  | .list ts => .ok (.list ts)
  | .view c => do return .window (← c.window)

def parts : List Piece → Except Failure (List Part)
  | [] => .ok []
  | p :: ps => do return (← p.part) :: (← parts ps)

end

mutual

/-- What the same operations make of lists. -/
def Chain.list : Chain → List Token
  | .tuple ts => ts
  | .skip c count => c.list.drop count
  | .slice c start stop _ _ => itemsBetween c.list start stop
  | .of ps => (lists ps).flatten
  | .append c p => c.list ++ p.items

def Piece.items : Piece → List Token
  | .token t => [t]
  | .list ts => ts
  | .view c => c.list

def lists : List Piece → List (List Token)
  | [] => []
  | p :: ps => p.items :: lists ps

end

-- The induction is on how a view is made, together with the pieces that it is put together from.
mutual

/-- Every chain of operations makes a window in range, and that shows the list of the chain. -/
theorem Chain.exists_window : (c : Chain) →
    ∃ w, c.window = .ok w ∧ w.InRange ∧ w.shown = c.list
  | .tuple ts => ⟨ofList ts, rfl, inRange_ofList ts, shown_ofList ts⟩
  | .skip c count => by
    obtain ⟨w, hw, hrange, hshown⟩ := c.exists_window
    have hwithin : (w.skip count).Within w :=
      (skip_within_iff hrange.start_le_stop).mpr (Int.natCast_nonneg _)
    refine ⟨w.skip count, ?_, hwithin.inRange hrange, ?_⟩
    · rw [Chain.window, hw]
      rfl
    · rw [shown_skip hrange, hshown, Chain.list]
  | .slice c start stop step hstep => by
    obtain ⟨w, hw, hrange, hshown⟩ := c.exists_window
    obtain ⟨v, hv, hrange', hshown'⟩ := exists_slice? hrange start stop hstep
    refine ⟨v, ?_, hrange', ?_⟩
    · rw [Chain.window, hw]
      exact hv
    · rw [hshown', hshown, Chain.list]
  | .of ps => by
    obtain ⟨qs, hqs, htokens⟩ := exists_parts ps
    refine ⟨ofList (lists ps).flatten, ?_, inRange_ofList _, ?_⟩
    · rw [Chain.window, hqs]
      change Window.of qs = _
      rw [Window.of, htokens]
      rfl
    · rw [shown_ofList, Chain.list]
  | .append c p => by
    obtain ⟨w, hw, hrange, hshown⟩ := c.exists_window
    obtain ⟨q, hq, htokens⟩ := p.exists_part
    refine ⟨ofList (c.list ++ p.items), ?_, inRange_ofList _, ?_⟩
    · rw [Chain.window, hw, hq]
      change w.append q = _
      have hboth : [Part.window w, q].mapM Part.tokens = .ok [c.list, p.items] := by
        refine mapM_eq_ok (.cons ?_ (.cons htokens .nil))
        rw [Part.tokens, hrange.toList_eq, hshown]
      have hflat : [c.list, p.items].flatten = c.list ++ p.items := by
        rw [List.flatten_cons, List.flatten_singleton]
      rw [Window.append, Window.of, hboth, ← hflat]
      rfl
    · rw [shown_ofList, Chain.list]

/-- Every piece of a concatenation is one that can be read. -/
theorem Piece.exists_part : (p : Piece) → ∃ q, p.part = .ok q ∧ q.tokens = .ok p.items
  | .token t => ⟨.token t, rfl, rfl⟩
  | .list ts => ⟨.list ts, rfl, rfl⟩
  | .view c => by
    obtain ⟨w, hw, hrange, hshown⟩ := c.exists_window
    refine ⟨.window w, ?_, ?_⟩
    · rw [Piece.part, hw]
      rfl
    · rw [Part.tokens, hrange.toList_eq, hshown, Piece.items]

theorem exists_parts : (ps : List Piece) →
    ∃ qs, parts ps = .ok qs ∧ qs.mapM Part.tokens = .ok (lists ps)
  | [] => ⟨[], rfl, rfl⟩
  | p :: ps => by
    obtain ⟨q, hq, htokens⟩ := p.exists_part
    obtain ⟨qs, hqs, hlists⟩ := exists_parts ps
    refine ⟨q :: qs, ?_, ?_⟩
    · rw [parts, hq, hqs]
      rfl
    · rw [List.mapM_cons, htokens, hlists, lists]
      rfl

end

/-! ### What is seen of a view -/

/-- Nothing that is asked of a window tells it from a list: which tokens there are, how many, which
is at an index from either end, whether another view has the same spelling, and which patterns
fit. -/
structure ActsAs (w : Window) (ts : List Token) : Prop where
  inRange : w.InRange
  toList : w.toList = .ok ts
  length : w.length = ts.length
  isEmpty : w.isEmpty = ts.isEmpty
  get : ∀ index, w.get index = (itemAt? ts index).elim (.error (.outOfRange .sequence)) .ok
  alike : ∀ v us, v.InRange → v.toList = .ok us →
    w.alike v = .ok (decide (List.Forall₂ (fun t u ↦ t.same u = true) ts us))
  startsWith : ∀ ps, w.startsWith ps =
    .ok (decide (List.Forall₂ (fun p t ↦ p.holds t = true) ps (ts.take ps.length)))
  unread : ∀ ps : List Pattern, (w.cutBehind ps.length).startsWith ps = w.startsWith ps
  isExactly : ∀ ps, w.isExactly ps =
    .ok (decide (List.Forall₂ (fun p t ↦ p.holds t = true) ps ts))

theorem eq_decide_of_iff {b : Bool} {p : Prop} [Decidable p] (h : b = true ↔ p) : b = decide p := by
  rw [Bool.eq_iff_iff, h, decide_eq_true_iff]

/-- A window in range acts as the list that it shows. -/
theorem InRange.actsAs (h : w.InRange) : w.ActsAs w.shown where
  inRange := h
  toList := h.toList_eq
  length := h.length_eq
  isEmpty := h.isEmpty_eq
  get := h.get_eq
  alike v us hv hus := by
    obtain rfl : v.shown = us := Except.ok.inj (hv.toList_eq.symm.trans hus)
    rw [h.alike_eq hv]
    exact congrArg Except.ok (eq_decide_of_iff Token.sameAll_iff)
  startsWith ps := by
    rw [h.startsWith_eq]
    exact congrArg Except.ok (eq_decide_of_iff startsWith_iff_forall₂)
  unread := h.startsWith_cutBehind
  isExactly ps := by
    rw [h.isExactly_eq]
    exact congrArg Except.ok (eq_decide_of_iff isExactly_iff_forall₂)

/-- Every chain of operations makes a window, and it acts as the list of the same chain. -/
theorem chain_actsAs (c : Chain) : ∃ w, c.window = .ok w ∧ w.ActsAs c.list := by
  obtain ⟨w, hw, hrange, hshown⟩ := c.exists_window
  refine ⟨w, hw, ?_⟩
  rw [← hshown]
  exact hrange.actsAs

/-- The last two tokens of what a skip has left with all of them behind it. -/
example (t u : Token) : (Chain.slice (.append (.skip (.tuple [t, u]) 1) (.view (.tuple [t, u])))
    (some (-2)) none none rfl).list = [t, u] := rfl

end Expander.Window
