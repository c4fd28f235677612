import Expander.Proofs.Grammar.Conservation

/-!
# What a step costs

A step that takes a token is paid for by that token. The others come in short sequences, each call
having some steps of its own to spend before it has to take a token (`Call.spare`), and what a call
leaves is not paid for: it is left to pay for what comes next. Where a joined angle is cut, each
half pays, and a group pays for what is inside it.

So the cost of a call, eight times the weight of the tokens ahead of it and the steps to spare,
bounds the costs of what a step leads to (`affords_of_advances`). That makes it a measure for the
induction over calls as well as a bound on the number of their steps. The height of a call bounds
their depth in the same way.
-/

set_option autoImplicit false

namespace Expander

/-- Each token weighs one at least, so that what is taken pays for a step. -/
theorem length_le_weightAll (ts : List Token) : ts.length ≤ Token.weightAll ts := by
  induction ts with
  | nil => exact Nat.zero_le _
  | cons t ts ih =>
    have hpos := weight_pos t
    rw [List.length_cons, weightAll_cons]
    omega

namespace Grammar

open Token

/-! ### Costs -/

/-- How many steps a call may take. -/
def Call.cost (c : Call) : Nat := 8 * weightAll c.ahead + c.spare

/-- How deep the steps of a call may be. -/
def Call.height (c : Call) : Nat := 4 * weightAll c.ahead + c.lift

theorem Call.cost_pos (c : Call) : 0 < c.cost := by
  have hspare := c.spare_pos
  rw [cost]
  omega

/-- A call has the steps for what it does, and for what is left behind that. -/
def Plan.Affords (c : Call) : Plan → Prop
  | .fault _ => True
  | .done _ rest => 8 * weightAll rest < c.cost
  | .go c' => c'.cost < c.cost ∧ c'.height ≤ c.height
  | .part c' next => ∀ first rest, weightAll rest ≤ weightAll c'.ahead →
      c'.cost + (next first rest).cost < c.cost + 8 * weightAll rest ∧
        c'.height < c.height ∧ (next first rest).height ≤ c.height

variable {c c' : Call} {p : Plan} {taken front first rest : List Token}
  {next : List Token → List Token → Call}

/-! ### Steps -/

/-- A call that is at its end has a step to spare for that. -/
theorem Call.Ends.affords (h : c.Ends taken first rest) : (Plan.done first rest).Affords c := by
  have hweight := h.takes.weightAll_eq
  have hspare := c.spare_pos
  rw [Plan.Affords, Call.cost]
  omega

theorem Call.Moves.affords (h : c.Moves front c') : (Plan.go c').Affords c := by
  have hfront := length_le_weightAll front
  have hspare := h.spare
  have hlift := h.lift
  simp only [Plan.Affords, Call.cost, Call.height, h.ahead, weightAll_append]
  omega

/-- What the part leaves has not paid for it, and is left to pay for what goes on behind. -/
theorem Call.Delegates.affords (h : c.Delegates front c' next) :
    (Plan.part c' next).Affords c := by
  intro first rest hrest
  have hfront := length_le_weightAll (front ++ c'.before)
  have hspare := h.spare first rest
  have hlift := h.lift
  simp only [Call.cost, Call.height, h.ahead, h.next_ahead, h.next_lift, weightAll_append]
    at hfront ⊢
  omega

/-- The first half pays for the step, the second for the part. -/
theorem Call.Halves.affords {lead ts : List Token} {o o₁ o₂ : Token}
    (h : c.Halves front lead o o₁ o₂ ts c' next) (hcut : o.halves? = some (o₁, o₂)) :
    (Plan.part c' next).Affords c := by
  intro first rest hrest
  obtain ⟨ho, -, ho₂⟩ := weight_of_halves? hcut
  have hspare := h.spare first rest
  have hlift := h.lift
  simp only [Call.cost, Call.height, h.ahead, h.part_ahead, h.next_ahead, h.next_lift,
    weightAll_append, weightAll_cons, ho, ho₂] at hrest ⊢
  omega

/-- The tokens inside a group are not read again, so that they pay for the part that looks at
them. -/
theorem Call.Enters.affords {d : Delimiter} {span : Option Span} {inner ts : List Token}
    (h : c.Enters front d span inner ts c' next) : (Plan.part c' next).Affords c := by
  intro first rest _
  have hfront := length_le_weightAll front
  have hspare := h.spare first rest
  have hlift := h.lift
  simp only [Call.cost, Call.height, h.ahead, h.part_ahead, h.next_ahead, h.next_lift,
    weightAll_append, weightAll_cons, weight_group]
  omega

/-- Whatever step a call takes, it can be paid for. -/
theorem affords_of_advances (h : Advances c p) : p.Affords c := by
  cases uses_of_advances h with
  | fault => trivial
  | done taken hends => exact hends.affords
  | go front hmoves => exact hmoves.affords
  | part front hdelegates => exact hdelegates.affords
  | cut front lead ts ho hcut hhalves => exact hhalves.affords hcut
  | group front d span inner ts henters => exact henters.affords

/-- A part costs less than the call it is a part of. -/
theorem Plan.Affords.part_cost_lt (h : (Plan.part c' next).Affords c) : c'.cost < c.cost := by
  have hcosts := (h [] [] (Nat.zero_le _)).1
  rw [weightAll_nil] at hcosts
  omega

/-- What comes behind a part costs less, as the part has left no more than it was given. -/
theorem Plan.Affords.next_cost_lt (h : (Plan.part c' next).Affords c)
    (hrest : weightAll rest ≤ weightAll c'.ahead) : (next first rest).cost < c.cost := by
  have hcosts := (h first rest hrest).1
  have hpart : 8 * weightAll c'.ahead ≤ c'.cost := Nat.le_add_right _ _
  omega

/-! ### Readings -/

/-- The weight of what a call leaves is no more than that of what it goes on with. -/
theorem Reads.weightAll_rest_le {ds : List Nat} (h : Reads c ds (.ok (first, rest))) :
    weightAll rest ≤ weightAll c.ahead := by
  by_cases hlooks : c.Looks
  · rw [h.rest_eq_nil hlooks rfl]
    exact Nat.zero_le _
  · obtain ⟨taken, -, htakes, -⟩ := h.conserves hlooks rfl
    exact htakes.weightAll_eq ▸ Nat.le_add_left _ _

end Grammar

end Expander
