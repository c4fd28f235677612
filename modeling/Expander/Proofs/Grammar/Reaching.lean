import Expander.Proofs.Grammar.Fronts

/-!
# What calls leave

A bound behind a plus may have been derived around a type and be read inside of it. So what a call
leaves is not told by a derivation: it is what stood behind the sequence, or what is left of that
when all bounds were read (`Reaches`). The loops which read bounds come to the same end from both
(`Absorbs`).

What is read and what is left are told of sequences that were taken apart. Before that, a joined
angle may have stood across the border, and then it is cut (`closing_angle`, `opening_angle`).
-/

set_option autoImplicit false

namespace Expander.Grammar

open Token

/-! ### Results -/

/-- A call comes to a result and leaves one of two sequences. -/
def Reaches (c : Call) (v v' : List Token) : Prop :=
  ∃ ds first rest, Reads c ds (.ok (first, rest)) ∧ (unfuse rest = v ∨ unfuse rest = v')

section

variable {c c' : Call} {ds : List Nat} {first rest v v' : List Token}

/-- A call that is at its end reaches what it leaves. -/
theorem Reaches.of_done (h : Advances c (.done first rest))
    (hrest : unfuse rest = v ∨ unfuse rest = v') : Reaches c v v' :=
  ⟨_, _, _, .done h, hrest⟩

/-- A call that goes on as another reaches what that reaches. -/
theorem Reaches.of_go (h : Advances c (.go c')) (hgo : Reaches c' v v') : Reaches c v v' := by
  obtain ⟨ds, first, rest, hreads, hrest⟩ := hgo
  exact ⟨_, _, _, .go h hreads, hrest⟩

/-- Behind a part, what follows it has to reach it. -/
theorem Reaches.of_part {next : List Token → List Token → Call} (h : Advances c (.part c' next))
    (hpart : Reads c' ds (.ok (first, rest))) (hnext : Reaches (next first rest) v v') :
    Reaches c v v' := by
  obtain ⟨ds', first', rest', hreads, hrest⟩ := hnext
  exact ⟨_, _, _, .part h hpart hreads, hrest⟩

/-- A call that only hands back what a part gives reaches what the part reaches. -/
theorem Reaches.of_back {r : Return} {before : List Token}
    (h : Advances c (.part c' (.back r before))) (hpart : Reaches c' v v') : Reaches c v v' := by
  obtain ⟨ds, first, rest, hreads, hrest⟩ := hpart
  exact .of_part h hreads (.of_done .back hrest)

/-- A call that reaches an end leaves tokens that the tokens behind it were taken apart from. -/
theorem Reaches.exists_reads (h : Reaches c v v') (hlooks : ¬ c.Looks) (hc : RegularAll c.ahead) :
    ∃ ds first rest, Reads c ds (.ok (first, rest)) ∧ RegularAll rest ∧
      (unfuse rest = v ∨ unfuse rest = v') := by
  obtain ⟨ds, first, rest, hreads, hrest⟩ := h
  obtain ⟨taken, -, htakes, -⟩ := hreads.conserves hlooks rfl
  exact ⟨ds, first, rest, hreads, htakes.regularAll hc, hrest⟩

/-- To reach the further of two ends is to reach one of them. -/
theorem Reaches.right (h : Reaches c v' v') : Reaches c v v' := by
  obtain ⟨ds, first, rest, hreads, hrest⟩ := h
  exact ⟨ds, first, rest, hreads, .inr (or_self_iff.mp hrest)⟩

end

/-! ### What stands behind a sequence -/

/-- A sequence that does not go on with a path. -/
structure Bare (v : List Token) : Prop where
  segment : startsWith v ["::"] = false
  angle : startsWith v ["<"] = false
  args : startsWith v [.group .paren] = false
  result : startsWith v ["->"] = false

/-- The loops that read bounds behind plusses begin with one sequence and leave the other. -/
def Absorbs (v v' : List Token) : Prop := ∀ ts, RegularAll ts → unfuse ts = v →
  (∀ before read, Reaches (.bounds before read ts) v' v') ∧
    ∀ before, Reaches (.summands before ts) v' v'

/-- Tokens at whose front a sequence stands. Behind it no path goes on, and all bounds that follow
can be read. -/
structure Follows (ts w v v' : List Token) : Prop where
  regular : RegularAll ts
  eq : unfuse ts = w ++ v
  bare : Bare v
  absorbs : Absorbs v v'
  settled : Absorbs v' v'

section

variable {ts us v v' w : List Token} {x : Token} {s : String}

theorem bare_nil : Bare [] := ⟨rfl, rfl, rfl, rfl⟩

theorem bare_cons (hx : x.spells s = true) (hs : s ∉ ["::", "<", "->"]) : Bare (x :: v) := by
  refine ⟨?_, ?_, ?_, ?_⟩
  · exact startsWith_false_of_spells hx (by rintro rfl; exact hs (by decide))
  · exact startsWith_false_of_spells hx (by rintro rfl; exact hs (by decide))
  · simp [delimiter?_of_spells hx]
  · exact startsWith_false_of_spells hx (by rintro rfl; exact hs (by decide))

/-- Where there is no plus, the loops end. -/
theorem absorbs_of_no_plus (h : startsWith v ["+"] = false) : Absorbs v v := by
  intro ts _ hts
  have hplus : startsWith ts ["+"] = false :=
    startsWith_of_unfuse (.spelling (by decide)) (hts ▸ h)
  exact ⟨fun before read ↦ .of_done (.boundNoPlus hplus) (.inl hts),
    fun before ↦ .of_done (.noPlus hplus) (.inl hts)⟩

/-- Where no sum goes on behind a sequence, the two ends are one. -/
theorem Follows.of_no_plus (hregular : RegularAll ts) (h : unfuse ts = w ++ v) (hbare : Bare v)
    (hplus : startsWith v ["+"] = false) : Follows ts w v v :=
  ⟨hregular, h, hbare, absorbs_of_no_plus hplus, absorbs_of_no_plus hplus⟩

/-- Behind a part of the sequence, the rest of it stands at the front. -/
theorem Follows.behind {w' : List Token} (h : Follows ts w v v') (hus : RegularAll us)
    (heq : unfuse us = w' ++ v) : Follows us w' v v' :=
  ⟨hus, heq, h.bare, h.absorbs, h.settled⟩

/-- Where a sequence is to be read that is not empty, a token stands ahead. -/
theorem Follows.ne_nil (h : Follows ts w v v') (hw : w ≠ []) : ts ≠ [] :=
  ne_nil_of_unfuse_append h.eq hw

/-- An optional mark in front of what is taken apart is there before, if it can be no half. -/
theorem exists_of_unfuse_maybe {s : String} {cs z : List Token} (hs : s ∉ halfSpellings)
    (hcs : Maybe (spells s) cs) (h : unfuse ts = cs ++ z) :
    ∃ us, ts = cs ++ us ∧ unfuse us = z := by
  cases hcs with
  | none => exact ⟨ts, rfl, h⟩
  | one hc => exact exists_of_unfuse_of_spells h hc hs

/-- So is an optional token of another kind than punctuation. -/
theorem exists_of_unfuse_maybe_kind {k : LeafKind} {ls z : List Token} (hk : k ≠ .punct)
    (hls : Maybe (isKind k) ls) (h : unfuse ts = ls ++ z) :
    ∃ us, ts = ls ++ us ∧ unfuse us = z := by
  cases hls with
  | none => exact ⟨ts, rfl, h⟩
  | one hl => exact exists_of_unfuse_of_isKind h hk hl

/-- A token that is cut leaves its second half at the front. -/
theorem unfuse_half {t y : Token} (ht : t.isJoined = true) (hcut : t.halves? = some (x, y)) :
    unfuse (y :: us) = y :: unfuse us := by
  rw [unfuse_cons, (unfused_of_isJoined ht hcut).2.2]
  rfl

/-- A closing angle stands on its own or is the first of two, and then no path goes on. -/
theorem closing_angle {u : List Token} (h : unfuse ts = x :: (u ++ v))
    (hx : x.spells ">" = true) (hu : Derives False .after u) :
    (∃ us, ts = x :: us ∧ unfuse us = u ++ v) ∨ ∃ t y us, ts = t :: us ∧ t.spells ">>" = true ∧
      t.halves? = some (x, y) ∧ unfuse (y :: us) = v := by
  rcases exists_of_unfuse_of_half h hx with hplain | ⟨t, y, us, rfl, hcut, ht, hy, heq⟩
  · exact .inl hplain
  · have hjoined : t.isJoined = true := isJoined_iff.mpr (.inl ht)
    refine .inr ⟨t, y, us, rfl, ht, hcut, ?_⟩
    rw [unfuse_half hjoined hcut]
    cases hu with
    | pathEnd => exact heq.symm
    | segment hc =>
      rw [List.cons_append, List.cons.injEq] at heq
      rw [heq.1, spells_eq hy] at hc
      cases hc

/-- An opening angle stands on its own or is the first of two, and then the second one follows. -/
theorem opening_angle (hts : RegularAll ts) (h : unfuse ts = x :: v) (hx : x.spells "<" = true) :
    (∃ us, ts = x :: us ∧ RegularAll us ∧ unfuse us = v) ∨ ∃ t y us, ts = t :: us ∧
      t.spells "<<" = true ∧ t.halves? = some (x, y) ∧ RegularAll (y :: us) ∧
      y.spells "<" = true ∧ unfuse (y :: us) = v := by
  rcases exists_of_unfuse_of_half h hx with ⟨us, rfl, hus⟩ | ⟨t, y, us, rfl, hcut, ht, hy, rfl⟩
  · exact .inl ⟨us, rfl, (regularAll_cons.mp hts).2, hus⟩
  · have hjoined : t.isJoined = true := isJoined_iff.mpr (.inr ht)
    refine .inr ⟨t, y, us, rfl, ht, hcut, ?_, hy, unfuse_half hjoined hcut⟩
    exact regularAll_cons.mpr ⟨(regular_of_halves hcut).2, (regularAll_cons.mp hts).2⟩

end

end Expander.Grammar
