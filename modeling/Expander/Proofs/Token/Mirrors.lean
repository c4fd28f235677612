import Expander.Proofs.Token.Splitting

/-!
# Sequences that begin alike

What is read of a sequence depends on its front. A sequence mirrors another one for some tokens if
it reads like that one so far, or ends earlier (`Mirrors`). A joined angle is mirrored by its first
half, and what is behind that half is not compared.

A list of patterns that fits the mirror fits what is mirrored, unless a half fits one of the
patterns (`Mirrors.startsWith`). And what is taken of a sequence mirrors it, with anything behind it
that mirrors the rest (`Takes.mirrors`): this is how a sequence that was cut is compared to the one
that it was cut from.
-/

set_option autoImplicit false

namespace Expander

variable {t u a b : Token} {ts us taken rest : List Token} {p : Pattern} {ps : List Pattern}
  {s : String} {n : Nat}

/-! ### Tokens that read alike -/

mutual

/-- A token compares equal to itself. -/
theorem same_self : (t : Token) → t.same t = true
  | .leaf kind text span => by simp [Token.same]
  | .group d span stream => by simp [Token.same, sameAll_self stream]
  | .hollow d span => by simp [Token.same]

theorem sameAll_self : (ts : List Token) → Token.sameAll ts ts = true
  | [] => rfl
  | t :: ts => by simp [Token.sameAll, same_self t, sameAll_self ts]

end

/-- Patterns do not tell tokens apart that compare equal. -/
theorem holds_of_same (h : t.same u = true) (p : Pattern) : p.holds u = p.holds t := by
  cases t with
  | leaf k text span =>
    cases u with
    | leaf k' text' span' =>
      obtain ⟨rfl, rfl⟩ : k = k' ∧ text = text' := by simpa [Token.same] using h
      cases p with
      | spelling => cases k <;> rfl
      | _ => rfl
    | _ => cases h
  | group d span stream =>
    cases u with
    | group d' span' stream' =>
      obtain ⟨rfl, -⟩ : d = d' ∧ _ := by simpa [Token.same] using h
      cases p <;> rfl
    | _ => cases h
  | hollow d span =>
    cases u with
    | hollow d' span' =>
      obtain rfl : d = d' := by simpa [Token.same] using h
      cases p <;> rfl
    | _ => cases h

/-- A pattern that fits no half of a joined angle. -/
def Pattern.Whole (p : Pattern) : Prop :=
  ∀ t a b : Token, t.isJoined = true → t.halves? = some (a, b) → p.holds a = false

/-- The first half of a joined angle is an angle. -/
theorem spells_of_isJoined (ht : t.isJoined = true) (hcut : t.halves? = some (a, b)) :
    ∃ s ∈ ["<", ">"], t.spells (s ++ s) = true ∧ a.spells s = true := by
  rcases Token.isJoined_iff.mp ht with ht | ht
  · exact ⟨">", by simp, ht, (Token.spells_halves ht rfl hcut).1⟩
  · exact ⟨"<", by simp, ht, (Token.spells_halves ht rfl hcut).1⟩

/-- A spelling other than that of an angle is never half of a token. -/
theorem whole_spelling (hs : s ∉ ["<", ">"]) : (Pattern.spelling s).Whole := by
  intro t a b ht hcut
  obtain ⟨s', hs', -, ha⟩ := spells_of_isJoined ht hcut
  rw [holds_spelling, Token.spells_eq ha, decide_eq_false_iff_not]
  rintro rfl
  exact hs hs'

theorem whole_kind {k : LeafKind} (hk : k ≠ .punct) : (Pattern.kind k).Whole := by
  intro t a b _ hcut
  obtain ⟨text, span, c, e, -, -, rfl, -⟩ := Token.halves?_eq_some_iff.mp hcut
  simpa [Pattern.holds, Token.isKind] using hk.symm

theorem whole_group {d : Delimiter} : (Pattern.group d).Whole := by
  intro t a b ht hcut
  obtain ⟨s, -, -, ha⟩ := spells_of_isJoined ht hcut
  rw [holds_group, Token.delimiter?_of_spells ha]
  rfl

/-! ### Mirrors -/

/-- The second sequence reads like the first for some tokens, or ends before. -/
inductive Mirrors : Nat → List Token → List Token → Prop
  | any {ts us : List Token} : Mirrors 0 ts us
  | nil {n : Nat} {ts : List Token} : Mirrors n ts []
  | half {n : Nat} {t a b : Token} {ts us : List Token} (ht : t.isJoined = true)
      (hcut : t.halves? = some (a, b)) : Mirrors n (t :: ts) (a :: us)
  | same {n : Nat} {t u : Token} {ts us : List Token} (h : t.same u = true)
      (hnext : Mirrors n ts us) : Mirrors (n + 1) (t :: ts) (u :: us)

/-- A sequence that mirrors another one so far does so less far. -/
theorem Mirrors.pred (h : Mirrors (n + 1) ts us) : Mirrors n ts us := by
  induction n generalizing ts us with
  | zero => exact .any
  | succ n ih =>
    cases h with
    | nil => exact .nil
    | half ht hcut => exact .half ht hcut
    | same h hnext => exact .same h (ih hnext)

theorem Mirrors.front (h : Mirrors (n + 1) ts us) : Mirrors 1 ts us := by
  cases h with
  | nil => exact .nil
  | half ht hcut => exact .half ht hcut
  | same h => exact .same h .any

/-- Nothing mirrors nothing but itself. -/
theorem Mirrors.eq_nil (h : Mirrors (n + 1) [] us) : us = [] := by
  cases h
  rfl

/-- What is taken of a sequence mirrors it, with a mirror of the rest behind it. -/
theorem Takes.mirrors (h : Takes ts taken rest) {r : List Token} (hr : Mirrors n rest r) :
    Mirrors n ts (taken ++ r) := by
  induction h with
  | nil => exact hr
  | keep _ ih => exact (Mirrors.same (same_self _) (ih hr)).pred
  | cut ht hcut => exact .half ht hcut
  | half ht hcut => exact .half (Token.isJoined_iff.mpr (.inl ht)) hcut

/-- If something was taken, one token more is mirrored than of the rest. -/
theorem Takes.mirrors_succ (h : Takes ts taken rest) (hne : taken ≠ []) {r : List Token}
    (hr : Mirrors n rest r) : Mirrors (n + 1) ts (taken ++ r) := by
  cases h with
  | nil => exact absurd rfl hne
  | keep h => exact .same (same_self _) (h.mirrors hr)
  | cut ht hcut => exact .half ht hcut
  | half ht hcut => exact .half (Token.isJoined_iff.mpr (.inl ht)) hcut

/-- A sequence that reads like another for some tokens mirrors it so far. -/
theorem mirrors_of_sameAll (h : Token.sameAll (ts.take n) (us.take n) = true) :
    Mirrors n ts us := by
  induction n generalizing ts us with
  | zero => exact .any
  | succ n ih =>
    cases us with
    | nil => exact .nil
    | cons u us =>
      cases ts with
      | nil => cases h
      | cons t ts =>
        rw [List.take_succ_cons, List.take_succ_cons, Token.sameAll, Bool.and_eq_true] at h
        exact .same h.1 (ih h.2)

/-! ### Patterns -/

/-- Patterns that no half fits and that fit a mirror fit what it mirrors. -/
theorem Mirrors.startsWith (h : Mirrors ps.length ts us) (hps : ∀ p ∈ ps, p.Whole)
    (hus : startsWith us ps = true) : startsWith ts ps = true := by
  induction ps generalizing ts us with
  | nil => exact startsWith_nil
  | cons p ps ih =>
    rw [List.forall_mem_cons] at hps
    cases h with
    | nil => cases hus
    | half ht hcut =>
      rw [startsWith_cons, hps.1 _ _ _ ht hcut, Bool.false_and] at hus
      cases hus
    | same hsame hnext =>
      rw [startsWith_cons, holds_of_same hsame, Bool.and_eq_true] at hus
      rw [startsWith_cons, hus.1, ih hnext hps.2 hus.2, Bool.and_self]

/-- Patterns that are not at the front are not at the front of a mirror that reaches as far. -/
theorem Mirrors.startsWith_false (h : Mirrors ps.length ts us) (hps : ∀ p ∈ ps, p.Whole)
    (hts : Expander.startsWith ts ps = false) : Expander.startsWith us ps = false := by
  rw [Bool.eq_false_iff]
  intro hus
  rw [h.startsWith hps hus] at hts
  cases hts

/-- A pattern at the front of a mirror that no half fits was at the front of what is mirrored. -/
theorem Mirrors.lacks (h : Mirrors (n + 1) ts us) (hp : p.Whole)
    (hts : Expander.startsWith ts [p] = false) : Expander.startsWith us [p] = false := by
  have hfront : Mirrors [p].length ts us := h.front
  exact hfront.startsWith_false (List.forall_mem_singleton.mpr hp) hts

/-- Where a sequence ends with what fits some patterns, so does a mirror. -/
theorem Mirrors.ends (h : Mirrors (ps.length + 1) ts us) (hps : ∀ p ∈ ps, p.Whole)
    (hends : Expander.startsWith ts ps = true → ts.length = ps.length) :
    Expander.startsWith us ps = true → us.length = ps.length := by
  intro hus
  induction ps generalizing ts us with
  | nil =>
    obtain rfl := List.length_eq_zero_iff.mp (hends startsWith_nil)
    exact congrArg List.length h.eq_nil
  | cons p ps ih =>
    rw [List.forall_mem_cons] at hps
    cases h with
    | nil => cases hus
    | half ht hcut =>
      rw [startsWith_cons, hps.1 _ _ _ ht hcut, Bool.false_and] at hus
      cases hus
    | @same _ t u ts us hsame hnext =>
      rw [startsWith_cons, holds_of_same hsame, Bool.and_eq_true] at hus
      rw [startsWith_cons, hus.1, Bool.true_and] at hends
      rw [List.length_cons, ih hnext hps.2 (fun h ↦ Nat.succ.inj (hends h)) hus.2,
        List.length_cons]

/-- An angle at the front of a mirror is one of what is mirrored, or the first of two that are
joined there. -/
theorem Mirrors.startsWith_angle (h : Mirrors (n + 1) ts us)
    (hone : Expander.startsWith ts [.spelling s] = false)
    (htwo : Expander.startsWith ts [.spelling (s ++ s)] = false) :
    Expander.startsWith us [.spelling s] = false := by
  cases h with
  | nil => rfl
  | half ht hcut =>
    obtain ⟨s', -, ht', ha⟩ := spells_of_isJoined ht hcut
    rw [startsWith_cons, startsWith_nil, Bool.and_true, holds_spelling, Token.spells_eq ha,
      decide_eq_false_iff_not]
    rintro rfl
    simp [ht'] at htwo
  | same hsame =>
    rw [startsWith_cons, startsWith_nil, Bool.and_true] at hone ⊢
    rw [holds_of_same hsame, hone]

/-- The front of a mirror of a token that is no joined angle reads like that token. -/
theorem Mirrors.exists_same (h : Mirrors (n + 1) (t :: ts) us) (hne : us ≠ [])
    (ht : t.isJoined = false) : ∃ u us', us = u :: us' ∧ t.same u = true ∧ Mirrors n ts us' := by
  cases h with
  | nil => exact absurd rfl hne
  | half hjoined => simp [ht] at hjoined
  | same hsame hnext => exact ⟨_, _, rfl, hsame, hnext⟩

end Expander
