import Expander.Proofs.Grammar.Steps

/-!
# Nothing is lost in reading

A call that does not merely look at its tokens gives back what belonged to it before, and behind
that the tokens that it took from those ahead of it; the others it leaves (`Reads.conserves`). The
calls that have to find something take a token at least. A call that looks leaves nothing
(`Reads.rest_eq_nil`).

The invariant of a single step is `conserves_of_advances`: whatever step a call takes, what the next
call has in hand is what this one had and what was taken in between. It is told from the ways in
which a step uses its tokens, for each of them once.
-/

set_option autoImplicit false

namespace Expander.Grammar

namespace Call

/-- What a call gives back and leaves is what it has in hand and what it takes. -/
def Conserves (c : Call) (first rest : List Token) : Prop :=
  ∃ taken, first = c.before ++ taken ∧ Takes c.ahead taken rest ∧ (c.Consumes → taken ≠ [])

/-- A call goes on where another call stands after some tokens were taken. -/
def Continues (c c' : Call) : Prop :=
  ¬ c'.Looks ∧
    ∃ taken, c'.before = c.before ++ taken ∧ Takes c.ahead taken c'.ahead ∧
      (c.Consumes → taken ≠ [])

end Call

variable {c c' : Call} {p : Plan} {taken front first rest : List Token}
  {next : List Token → List Token → Call}

theorem Call.Continues.conserves (h : c.Continues c') (h' : c'.Conserves first rest) :
    c.Conserves first rest := by
  obtain ⟨-, taken, hbefore, htakes, hne⟩ := h
  obtain ⟨taken', rfl, htakes', -⟩ := h'
  refine ⟨taken ++ taken', by rw [hbefore, List.append_assoc], htakes.trans htakes', fun hc ↦ ?_⟩
  simp [hne hc]

/-- What a step does keeps all tokens. -/
def Plan.Conserves (c : Call) : Plan → Prop
  | .fault _ => True
  | .done first rest => c.Conserves first rest
  | .go c' => c.Continues c'
  | .part c' next => ∀ first rest, (c'.Looks ∨ c'.Conserves first rest) →
      c.Continues (next first rest)

/-! ### Steps -/

theorem Call.Ends.conserves (h : c.Ends taken first rest) : c.Conserves first rest :=
  ⟨taken, h.first_eq, h.takes, h.nonempty⟩

theorem Call.Moves.continues (h : c.Moves front c') (hlooks : ¬ c.Looks) : c.Continues c' := by
  obtain ⟨hlooks', hbefore⟩ := h.before hlooks
  have htakes : Takes c.ahead front c'.ahead := h.ahead ▸ takes_append front c'.ahead
  exact ⟨hlooks', front, hbefore, htakes, h.nonempty⟩

/-- What a part takes is taken behind the tokens in front. -/
theorem Call.Delegates.conserves (h : c.Delegates front c' next) (hlooks : ¬ c.Looks) :
    (Plan.part c' next).Conserves c := by
  intro first rest hconserves
  obtain ⟨taken, hfirst, htakes, htaken⟩ := hconserves.resolve_left h.part
  obtain ⟨hlooks', hbefore⟩ := h.next_before hlooks first rest
  refine ⟨hlooks', front ++ c'.before ++ taken, ?_, ?_, ?_⟩
  · rw [hbefore, hfirst]
    simp only [List.append_assoc]
  · rw [h.ahead, h.next_ahead]
    exact htakes.append_left (front ++ c'.before)
  · intro hc hnil
    obtain ⟨hfront, htaken'⟩ := List.append_eq_nil_iff.mp hnil
    rcases h.nonempty hc with hne | hconsumes
    · exact hne hfront
    · exact htaken hconsumes htaken'

/-- What a part takes begins with the second half, so that the two angles are cut for good. -/
theorem Call.Halves.conserves {lead ts : List Token} {o o₁ o₂ : Token}
    (h : c.Halves front lead o o₁ o₂ ts c' next) (ho : o.spells "<<" = true)
    (hcut : o.halves? = some (o₁, o₂)) : (Plan.part c' next).Conserves c := by
  intro first rest hconserves
  obtain ⟨taken, hfirst, htakes, htaken⟩ := hconserves.resolve_left h.part.1
  obtain ⟨hlooks', hbefore⟩ := h.next_before first rest
  have hjoined : o.isJoined = true := Token.isJoined_iff.mpr (.inr ho)
  have htaken' : taken ≠ [] := htaken h.part.2
  rw [h.part_ahead] at htakes
  refine ⟨hlooks', front ++ o₁ :: taken, ?_, ?_, by simp⟩
  · rw [hbefore, hfirst, List.append_assoc _ lead, ← List.append_assoc lead, h.part_before]
    simp only [List.append_assoc, List.singleton_append]
  · rw [h.ahead, h.next_ahead]
    exact (htakes.of_cut hjoined hcut htaken').append_left front

/-- A group is taken whole, whatever is found inside it. -/
theorem Call.Enters.conserves {d : Delimiter} {span : Option Span} {inner ts : List Token}
    (h : c.Enters front d span inner ts c' next) : (Plan.part c' next).Conserves c := by
  intro first rest _
  obtain ⟨hlooks', hbefore⟩ := h.next_before first rest
  refine ⟨hlooks', front ++ [.group d span inner], ?_, ?_, by simp⟩
  · rw [hbefore, List.append_assoc]
  · rw [h.ahead, h.next_ahead, List.append_cons]
    exact takes_append (front ++ [.group d span inner]) ts

/-- Whatever step a call takes, its tokens are kept. -/
theorem conserves_of_advances (h : Advances c p) (hlooks : ¬ c.Looks) : p.Conserves c := by
  cases uses_of_advances h with
  | fault => trivial
  | done taken hends => exact hends.conserves
  | go front hmoves => exact hmoves.continues hlooks
  | part front hdelegates => exact hdelegates.conserves hlooks
  | cut front lead ts ho hcut hhalves => exact hhalves.conserves ho hcut
  | group front d span inner ts henters => exact henters.conserves

/-! ### Readings -/

/-- A call gives back what it had in hand and what it took, and leaves what is behind that. -/
theorem Reads.conserves {ds : List Nat} {r : Parsed} (h : Reads c ds r) (hlooks : ¬ c.Looks)
    (hr : r = .ok (first, rest)) : c.Conserves first rest := by
  induction h generalizing first rest with
  | fault => cases hr
  | done h =>
    cases hr
    exact conserves_of_advances h hlooks
  | go h _ ih =>
    have hcontinues := conserves_of_advances h hlooks
    exact hcontinues.conserves (ih hcontinues.1 hr)
  | @part c c' next _ _ first' rest' _ h hpart _ ihpart ihnext =>
    have hdone : c'.Looks ∨ c'.Conserves first' rest' := by
      by_cases hpart : c'.Looks
      · exact .inl hpart
      · exact .inr (ihpart hpart rfl)
    have hcontinues := conserves_of_advances h hlooks first' rest' hdone
    exact hcontinues.conserves (ihnext hcontinues.1 hr)
  | lost => cases hr

/-- A call that only looks leaves nothing. -/
theorem Reads.rest_eq_nil {ds : List Nat} {r : Parsed} (h : Reads c ds r) (hlooks : c.Looks)
    (hr : r = .ok (first, rest)) : rest = [] := by
  induction h generalizing first rest with
  | fault | lost => cases hr
  | done h =>
    cases hr
    cases h with
    | listEnd | separatorEnd => rfl
    | _ => cases hlooks
  | go h _ ih =>
    cases h with
    | separator => exact ih trivial hr
    | _ => cases hlooks
  | part h _ _ _ ih =>
    cases h with
    | listType | listSummed => exact ih trivial hr
    | _ => cases hlooks

end Expander.Grammar
