import Expander.Proofs.Token.Splitting

/-!
# Taking joined tokens apart

A grammar does not know that the lexer joins angles and ampersands. `Token.unfuse` takes the joined
tokens of a sequence apart, at every depth. Cutting a joined angle makes no difference to it, so
what is taken from a sequence and what is left are taken apart each on its own (`Takes.unfuse_eq`).

What stands at the front of a sequence that was taken apart tells what stood there before: the token
itself, a group, or a joined token of which it is the first half.
-/

set_option autoImplicit false

namespace Expander

variable {t x y : Token} {ts us w first rest : List Token} {s : String} {d : Delimiter}

/-- The spellings of the tokens that stand for two. -/
def fusedSpellings : List String := [">>", "<<", "&&"]

mutual

/-- A token with everything that was joined in it taken apart. -/
def Token.unfused : Token → List Token
  | leaf kind text span =>
    match (leaf kind text span).halves? with
    | some (a, b) => if text ∈ fusedSpellings then [a, b] else [leaf kind text span]
    | none => [leaf kind text span]
  | group d span stream => [group d span (Token.unfuse stream)]
  | hollow d span => [hollow d span]

/-- A sequence with every joined token taken apart, at every depth. -/
def Token.unfuse : List Token → List Token
  | [] => []
  | t :: ts => t.unfused ++ Token.unfuse ts

end

open Token

@[simp] theorem unfuse_nil : unfuse [] = [] := by rw [unfuse]

@[simp] theorem unfuse_cons : unfuse (t :: ts) = t.unfused ++ unfuse ts := by rw [unfuse]

@[simp] theorem unfuse_append : unfuse (ts ++ us) = unfuse ts ++ unfuse us := by
  induction ts with
  | nil => rw [unfuse_nil, List.nil_append, List.nil_append]
  | cons t ts ih => rw [List.cons_append, unfuse_cons, ih, unfuse_cons, List.append_assoc]

@[simp] theorem unfused_group {span : Option Span} {stream : List Token} :
    (group d span stream).unfused = [group d span (unfuse stream)] := by rw [unfused]

/-! ### Single tokens -/

namespace Token

/-- A token that stands for two is punctuation with one of three spellings. -/
def IsFused (t x y : Token) : Prop := t.halves? = some (x, y) ∧ ∃ s ∈ fusedSpellings, t.spells s

/-- A fused token is taken apart into its halves. -/
theorem IsFused.unfused_eq (h : t.IsFused x y) : t.unfused = [x, y] := by
  obtain ⟨hcut, s, hs, hspells⟩ := h
  obtain ⟨text, span, c, e, rfl, -, -, -⟩ := halves?_eq_some_iff.mp hcut
  have htext : text = s := by simpa [spells] using hspells
  rw [unfused, hcut]
  exact if_pos (htext ▸ hs)

/-- A token that is no group and does not stand for two stays as it is. -/
theorem unfused_of_not_fused (hgroup : t.delimiter? = none) (h : ∀ x y, ¬ t.IsFused x y) :
    t.unfused = [t] := by
  cases t with
  | leaf kind text span =>
    rw [unfused]
    split
    · next a b hcut =>
      refine if_neg fun htext ↦ h a b ⟨hcut, text, htext, ?_⟩
      obtain ⟨_, _, _, _, heq, -⟩ := halves?_eq_some_iff.mp hcut
      cases heq
      simp [spells]
    · rfl
  | _ => cases hgroup

/-- A token of another spelling stays as it is. -/
theorem unfused_of_spells (hs : t.spells s = true) (hfused : s ∉ fusedSpellings) :
    t.unfused = [t] := by
  refine unfused_of_not_fused (delimiter?_of_spells hs) ?_
  rintro x y ⟨-, s', hs', hspells⟩
  rw [spells_eq hs, decide_eq_true_eq] at hspells
  exact hfused (hspells ▸ hs')

theorem unfused_of_spells_or {s' : String} (ht : t.spells s = true ∨ t.spells s' = true)
    (hs : s ∉ fusedSpellings) (hs' : s' ∉ fusedSpellings) : t.unfused = [t] := by
  rcases ht with ht | ht
  · exact unfused_of_spells ht hs
  · exact unfused_of_spells ht hs'

theorem unfused_of_halves?_eq_none (hgroup : t.delimiter? = none) (hcut : t.halves? = none) :
    t.unfused = [t] := by
  refine unfused_of_not_fused hgroup ?_
  rintro x y ⟨h, -⟩
  rw [hcut] at h
  cases h

theorem isKind_punct_of_halves? {k : LeafKind} (hcut : t.halves? = some (x, y))
    (hk : k ≠ .punct) : t.isKind k = false ∧ x.isKind k = false ∧ y.isKind k = false := by
  obtain ⟨text, span, c, e, rfl, -, rfl, rfl⟩ := halves?_eq_some_iff.mp hcut
  simp [isKind, hk.symm]

/-- A token of another kind than punctuation stays as it is. -/
theorem unfused_of_isKind {k : LeafKind} (hk : k ≠ .punct) (ht : t.isKind k = true) :
    t.unfused = [t] := by
  refine unfused_of_not_fused ?_ ?_
  · cases t with
    | leaf => rfl
    | _ => cases ht
  · rintro x y ⟨hcut, -⟩
    rw [(isKind_punct_of_halves? hcut hk).1] at ht
    cases ht

theorem unfused_of_isIdent (h : t.isIdent = true) : t.unfused = [t] :=
  unfused_of_isKind (k := .ident) (by decide) h

theorem unfused_of_isLifetime (h : t.isLifetime = true) : t.unfused = [t] :=
  unfused_of_isKind (k := .lifetime) (by decide) h

theorem unfused_of_isLiteral (h : t.isLiteral = true) : t.unfused = [t] :=
  unfused_of_isKind (k := .literal) (by decide) h

/-- A group stays a group. -/
theorem unfused_of_delimiter? (h : t.delimiter? = some d) :
    ∃ u, t.unfused = [u] ∧ u.delimiter? = some d := by
  cases t with
  | leaf => cases h
  | group => exact ⟨_, unfused_group, h⟩
  | hollow d' span => exact ⟨.hollow d' span, by rw [unfused], h⟩

/-- Of every token something is left. -/
theorem unfused_ne_nil (t : Token) : t.unfused ≠ [] := by
  cases t with
  | leaf =>
    rw [unfused]
    split
    · split <;> simp
    · simp
  | group => simp
  | hollow => simp [unfused]

/-- A joined angle is taken apart into its halves, and these stay as they are. -/
theorem unfused_of_isJoined (ht : t.isJoined = true) (hcut : t.halves? = some (x, y)) :
    t.unfused = [x, y] ∧ x.unfused = [x] ∧ y.unfused = [y] := by
  have hfused : t.IsFused x y := by
    rcases isJoined_iff.mp ht with ht | ht
    · exact ⟨hcut, _, by simp [fusedSpellings], ht⟩
    · exact ⟨hcut, _, by simp [fusedSpellings], ht⟩
  have hhalves := halves?_of_half hcut
  obtain ⟨text, span, c, e, rfl, -, rfl, rfl⟩ := halves?_eq_some_iff.mp hcut
  exact ⟨hfused.unfused_eq, unfused_of_halves?_eq_none rfl hhalves.1,
    unfused_of_halves?_eq_none rfl hhalves.2⟩

end Token

/-- A sequence that is taken apart is empty only if it was. -/
theorem unfuse_eq_nil_iff : unfuse ts = [] ↔ ts = [] := by
  cases ts with
  | nil => simp
  | cons t ts => simp [unfused_ne_nil t]

theorem ne_nil_of_unfuse_append (h : unfuse ts = us ++ w) (hus : us ≠ []) : ts ≠ [] := by
  rintro rfl
  rw [unfuse_nil] at h
  exact hus (List.append_eq_nil_iff.mp h.symm).1

/-- What is taken and what is left are taken apart each on its own. -/
theorem Takes.unfuse_eq (h : Takes ts first rest) : unfuse ts = unfuse first ++ unfuse rest := by
  induction h with
  | nil => rfl
  | keep _ ih => rw [unfuse_cons, ih, unfuse_cons, List.append_assoc]
  | cut ht hcut _ ih =>
    obtain ⟨hunfused, hx, hy⟩ := unfused_of_isJoined ht hcut
    rw [unfuse_cons, ih, hunfused, unfuse_cons, unfuse_cons, hx, hy]
    rfl
  | @half t _ _ _ ht hcut =>
    have hjoined : t.isJoined = true := isJoined_iff.mpr (.inl ht)
    obtain ⟨hunfused, hx, hy⟩ := unfused_of_isJoined hjoined hcut
    rw [unfuse_cons, hunfused, unfuse_cons, unfuse_cons, hx, hy, unfuse_nil]
    rfl

/-! ### The front of a sequence -/

/-- The first of what a sequence is taken apart into is all of its first token or the first half. -/
theorem exists_of_unfuse_eq_cons (h : unfuse ts = x :: w) : ∃ t us, ts = t :: us ∧
    (t.unfused = [x] ∧ unfuse us = w ∨ ∃ y, t.IsFused x y ∧ w = y :: unfuse us) := by
  cases ts with
  | nil =>
    rw [unfuse_nil] at h
    cases h
  | cons t ts =>
    refine ⟨t, ts, rfl, ?_⟩
    rw [unfuse_cons] at h
    by_cases hfused : ∃ x y, t.IsFused x y
    · obtain ⟨x', y, hfused⟩ := hfused
      rw [hfused.unfused_eq] at h
      cases h
      exact .inr ⟨y, hfused, rfl⟩
    · rw [not_exists] at hfused
      obtain ⟨u, hu⟩ : ∃ u, t.unfused = [u] := by
        cases hd : t.delimiter? with
        | none => exact ⟨t, unfused_of_not_fused hd fun x y hxy ↦ hfused x ⟨y, hxy⟩⟩
        | some d =>
          obtain ⟨u, hu, -⟩ := unfused_of_delimiter? hd
          exact ⟨u, hu⟩
      rw [hu] at h
      cases h
      exact .inl ⟨hu, rfl⟩

/-- The spellings of what stands for one half of a joined token. -/
def halfSpellings : List String := [">", "<", "&"]

/-- Both halves of a joined token are spelled alike. -/
theorem Token.IsFused.spells (h : t.IsFused x y) : ∃ s ∈ halfSpellings,
    t.spells (s ++ s) = true ∧ x.spells s = true ∧ y.spells s = true := by
  obtain ⟨hcut, s, hs, hspells⟩ := h
  simp only [fusedSpellings, List.mem_cons, List.not_mem_nil, or_false] at hs
  rcases hs with rfl | rfl | rfl
  · exact ⟨">", by simp [halfSpellings], hspells, spells_halves hspells rfl hcut⟩
  · exact ⟨"<", by simp [halfSpellings], hspells, spells_halves hspells rfl hcut⟩
  · exact ⟨"&", by simp [halfSpellings], hspells, spells_halves hspells rfl hcut⟩

/-- A leaf that is taken apart into one token is that token. -/
theorem Token.eq_of_unfused_of_leaf (h : t.unfused = [x]) (ht : t.delimiter? = none) :
    t = x := by
  have hself : t.unfused = [t] := by
    refine unfused_of_not_fused ht fun x y hfused ↦ ?_
    rw [hfused.unfused_eq] at h
    cases h
  rw [h, List.cons.injEq] at hself
  exact hself.1.symm

/-- A group is taken apart into a group of the same brackets. -/
theorem Token.delimiter?_eq_of_unfused_eq (h : t.unfused = [x]) :
    t.delimiter? = x.delimiter? := by
  cases hd : t.delimiter? with
  | some d =>
    obtain ⟨u, hu, hud⟩ := unfused_of_delimiter? hd
    rw [h, List.cons.injEq] at hu
    rw [hu.1, hud]
  | none => rw [← eq_of_unfused_of_leaf h hd, hd]

theorem Token.eq_of_unfused_eq (h : t.unfused = [x]) (hx : x.delimiter? = none) : t = x :=
  eq_of_unfused_of_leaf h ((delimiter?_eq_of_unfused_eq h).trans hx)

/-- Where the first token is no half and no group, it stood there before. -/
theorem exists_of_unfuse_of_spells (h : unfuse ts = x :: w) (hx : x.spells s = true)
    (hs : s ∉ halfSpellings) : ∃ us, ts = x :: us ∧ unfuse us = w := by
  obtain ⟨t, us, rfl, ⟨ht, hw⟩ | ⟨y, hfused, -⟩⟩ := exists_of_unfuse_eq_cons h
  · exact ⟨us, by rw [eq_of_unfused_eq ht (delimiter?_of_spells hx)], hw⟩
  · obtain ⟨s', hs', -, hx', -⟩ := hfused.spells
    rw [spells_eq hx, decide_eq_true_eq] at hx'
    exact absurd (hx' ▸ hs') hs

theorem exists_of_unfuse_of_spells_or {s' : String} (h : unfuse ts = x :: w)
    (hx : x.spells s = true ∨ x.spells s' = true) (hs : s ∉ halfSpellings)
    (hs' : s' ∉ halfSpellings) : ∃ us, ts = x :: us ∧ unfuse us = w := by
  rcases hx with hx | hx
  · exact exists_of_unfuse_of_spells h hx hs
  · exact exists_of_unfuse_of_spells h hx hs'

/-- What comes to the front when tokens are taken apart was there before, if it is no
punctuation. -/
theorem exists_of_unfuse_of_isKind {k : LeafKind} (h : unfuse ts = x :: w) (hk : k ≠ .punct)
    (hx : x.isKind k = true) : ∃ us, ts = x :: us ∧ unfuse us = w := by
  have hgroup : x.delimiter? = none := by
    cases x with
    | leaf => rfl
    | _ => cases hx
  obtain ⟨t, us, rfl, ⟨ht, hw⟩ | ⟨y, hfused, -⟩⟩ := exists_of_unfuse_eq_cons h
  · exact ⟨us, by rw [eq_of_unfused_eq ht hgroup], hw⟩
  · rw [(isKind_punct_of_halves? hfused.1 hk).2.1] at hx
    cases hx

/-- A half stood there before, or the joined token that it is the first half of. -/
theorem exists_of_unfuse_of_half (h : unfuse ts = x :: w) (hx : x.spells s = true) :
    (∃ us, ts = x :: us ∧ unfuse us = w) ∨ ∃ t y us, ts = t :: us ∧ t.halves? = some (x, y) ∧
      t.spells (s ++ s) = true ∧ y.spells s = true ∧ w = y :: unfuse us := by
  obtain ⟨t, us, rfl, ⟨ht, hw⟩ | ⟨y, hfused, hw⟩⟩ := exists_of_unfuse_eq_cons h
  · exact .inl ⟨us, by rw [eq_of_unfused_eq ht (delimiter?_of_spells hx)], hw⟩
  · obtain ⟨s', hs', ht, hx', hy⟩ := hfused.spells
    rw [spells_eq hx, decide_eq_true_eq] at hx'
    subst hx'
    exact .inr ⟨t, y, us, rfl, hfused.1, ht, hy, hw⟩

/-- A group was there before, around what its tokens are taken apart from. -/
theorem exists_of_unfuse_of_group {span : Option Span} {inner : List Token}
    (h : unfuse ts = group d span inner :: w) : ∃ stream us, ts = group d span stream :: us ∧
      unfuse stream = inner ∧ unfuse us = w := by
  obtain ⟨t, us, rfl, ⟨ht, hw⟩ | ⟨y, hfused, -⟩⟩ := exists_of_unfuse_eq_cons h
  · cases t with
    | leaf kind text span' =>
      rw [unfused] at ht
      split at ht
      · split at ht <;> cases ht
      · cases ht
    | group d' span' stream =>
      rw [unfused_group] at ht
      cases ht
      exact ⟨stream, us, rfl, rfl, hw⟩
    | hollow d' span' =>
      rw [unfused] at ht
      cases ht
  · obtain ⟨s', -, -, hx, -⟩ := hfused.spells
    cases hx

/-- Where a group comes to the front, a group of the same brackets was there before. -/
theorem exists_of_unfuse_of_delimiter? (h : unfuse ts = x :: w) (hx : x.delimiter? = some d) :
    ∃ t us, ts = t :: us ∧ t.delimiter? = some d ∧ unfuse us = w := by
  obtain ⟨t, us, rfl, ⟨ht, hw⟩ | ⟨y, hfused, -⟩⟩ := exists_of_unfuse_eq_cons h
  · exact ⟨t, us, rfl, (delimiter?_eq_of_unfused_eq ht).trans hx, hw⟩
  · obtain ⟨s', -, -, hspells, -⟩ := hfused.spells
    rw [delimiter?_of_spells hspells] at hx
    cases hx

end Expander
