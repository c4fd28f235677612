import Expander.Grammar.Nonterminal

/-!
# Which tokens fit which patterns

A token has one spelling, one kind and at most one delimiter, so a pattern that holds of it decides
every other pattern. The equations here let a list of patterns be tested on tokens of which that
much is known.
-/

set_option autoImplicit false

namespace Expander

variable {t : Token} {ts : List Token} {s : String} {k : LeafKind} {d : Delimiter}

/-! ### Lists of patterns -/

@[simp] theorem startsWith_nil : startsWith ts [] = true := by
  cases ts <;> rfl

@[simp] theorem nil_startsWith {p : Pattern} {ps : List Pattern} :
    startsWith [] (p :: ps) = false := rfl

@[simp] theorem startsWith_cons {p : Pattern} {ps : List Pattern} :
    startsWith (t :: ts) (p :: ps) = (p.holds t && startsWith ts ps) := rfl

/-- A sequence that does not fit the first pattern does not fit a longer list. -/
theorem startsWith_cons_of_not {p : Pattern} (h : startsWith ts [p] = false) (ps : List Pattern) :
    startsWith ts (p :: ps) = false := by
  cases ts with
  | nil => rfl
  | cons t ts =>
    rw [startsWith_cons, startsWith_nil, Bool.and_true] at h
    rw [startsWith_cons, h, Bool.false_and]

/-- Patterns that stand at the front take as many tokens. -/
theorem length_le_of_startsWith {ps : List Pattern} (h : startsWith ts ps = true) :
    ps.length ≤ ts.length := by
  induction ps generalizing ts with
  | nil => exact Nat.zero_le _
  | cons p ps ih =>
    cases ts with
    | nil => cases h
    | cons t ts =>
      rw [startsWith_cons, Bool.and_eq_true] at h
      exact Nat.succ_le_succ (ih h.2)

/-- The first of some patterns stand at the front if all do. -/
theorem startsWith_of_append {ps qs : List Pattern} (h : startsWith ts (ps ++ qs) = true) :
    startsWith ts ps = true := by
  induction ps generalizing ts with
  | nil => exact startsWith_nil
  | cons p ps ih =>
    cases ts with
    | nil => cases h
    | cons t ts =>
      rw [List.cons_append, startsWith_cons, Bool.and_eq_true] at h
      rw [startsWith_cons, h.1, ih h.2, Bool.true_and]

/-- A sequence that ends where it fits some patterns does not fit more of them. -/
theorem startsWith_concat_of_ends {ps : List Pattern}
    (h : startsWith ts ps = true → ts.length = ps.length) (p : Pattern) :
    startsWith ts (ps ++ [p]) = false := by
  rw [Bool.eq_false_iff]
  intro hlonger
  have hlength := length_le_of_startsWith hlonger
  rw [h (startsWith_of_append hlonger), List.length_append, List.length_singleton] at hlength
  omega

/-- Where patterns may only be all there is, nothing more is found behind them. -/
theorem longer_of_ends {ps : List Pattern} (h : startsWith ts ps = true → ts.length = ps.length) :
    (startsWith ts ps && decide (ps.length < ts.length)) = false := by
  cases hstarts : startsWith ts ps with
  | false => rfl
  | true => simp [h hstarts]

@[simp] theorem holds_spelling : (Pattern.spelling s).holds t = t.spells s := rfl

@[simp] theorem holds_ident : Grammar.ident.holds t = t.isIdent := rfl

@[simp] theorem holds_lifetime : Grammar.lifetime.holds t = t.isLifetime := rfl

@[simp] theorem holds_literal : Grammar.literal.holds t = t.isLiteral := rfl

@[simp] theorem holds_group : (Pattern.group d).holds t = decide (t.delimiter? = some d) := rfl

/-! ### Single tokens -/

namespace Token

/-- A token with a spelling has no other. -/
theorem spells_eq (h : t.spells s = true) (s' : String) : t.spells s' = decide (s = s') := by
  cases t with
  | leaf kind text span => cases kind <;> simp_all [spells]
  | _ => cases h

theorem exists_of_isPunct (h : t.isPunct s = true) : ∃ span, t = .leaf .punct s span := by
  unfold isPunct at h
  split at h
  · rw [of_decide_eq_true h]
    exact ⟨_, rfl⟩
  · cases h

/-- Punctuation that is asked for by its spelling has that spelling. -/
theorem spells_of_isPunct (h : t.isPunct s = true) : t.spells s = true := by
  obtain ⟨span, rfl⟩ := exists_of_isPunct h
  simp [spells]

/-- Punctuation is no identifier. -/
theorem isIdent_of_isPunct (h : t.isPunct s = true) : t.isIdent = false := by
  obtain ⟨span, rfl⟩ := exists_of_isPunct h
  rfl

/-- What has a spelling is no group. -/
theorem delimiter?_of_spells (h : t.spells s = true) : t.delimiter? = none := by
  cases t with
  | leaf => rfl
  | _ => cases h

/-- What has a spelling is no lifetime. -/
theorem isLifetime_of_spells (h : t.spells s = true) : t.isLifetime = false := by
  cases t with
  | leaf kind => cases kind <;> first | rfl | cases h
  | _ => rfl

theorem isLiteral_of_spells (h : t.spells s = true) : t.isLiteral = false := by
  cases t with
  | leaf kind => cases kind <;> first | rfl | cases h
  | _ => rfl

/-- An identifier is of no other kind. -/
theorem kind_of_isIdent (h : t.isIdent = true) :
    t.isLifetime = false ∧ t.isLiteral = false ∧ t.delimiter? = none := by
  cases t with
  | leaf kind => cases kind <;> first | exact ⟨rfl, rfl, rfl⟩ | cases h
  | _ => cases h

/-- A lifetime is of no other kind. -/
theorem kind_of_isLifetime (h : t.isLifetime = true) :
    t.isIdent = false ∧ t.isLiteral = false ∧ t.delimiter? = none ∧ t.spells s = false := by
  cases t with
  | leaf kind => cases kind <;> first | exact ⟨rfl, rfl, rfl, rfl⟩ | cases h
  | _ => cases h

/-- A literal is of no other kind. -/
theorem kind_of_isLiteral (h : t.isLiteral = true) :
    t.isIdent = false ∧ t.isLifetime = false ∧ t.delimiter? = none ∧ t.spells s = false := by
  cases t with
  | leaf kind => cases kind <;> first | exact ⟨rfl, rfl, rfl, rfl⟩ | cases h
  | _ => cases h

theorem spells_of_isLiteral (h : t.isLiteral = true) (s : String) : t.spells s = false :=
  (kind_of_isLiteral h).2.2.2

/-- A group is of no other kind. -/
theorem kind_of_delimiter? (h : t.delimiter? = some d) :
    t.isIdent = false ∧ t.isLifetime = false ∧ t.isLiteral = false ∧ t.spells s = false := by
  cases t with
  | leaf => cases h
  | _ => exact ⟨rfl, rfl, rfl, rfl⟩

/-! ### Halves -/

/-- The halves of punctuation of two characters, with what is left of its span. -/
theorem halves?_eq_some_iff {a b : Token} : t.halves? = some (a, b) ↔
    ∃ text span c e, t = .leaf .punct text span ∧ text.toList = [c, e] ∧
      a = .leaf .punct (String.singleton c) (span.map fun s ↦ (s.splitAt 1).1) ∧
      b = .leaf .punct (String.singleton e) (span.map fun s ↦ (s.splitAt 1).2) := by
  cases t with
  | leaf kind text span =>
    cases kind with
    | punct =>
      rw [halves?]
      split
      · next c e htext =>
        simp only [Option.map_map, Option.some.injEq, Prod.mk.injEq, leaf.injEq, true_and]
        constructor
        · rintro ⟨rfl, rfl⟩
          exact ⟨text, span, c, e, ⟨rfl, rfl⟩, htext, rfl, rfl⟩
        · rintro ⟨_, _, c', e', ⟨rfl, rfl⟩, htext', rfl, rfl⟩
          rw [htext] at htext'
          cases htext'
          exact ⟨rfl, rfl⟩
      · next hnone =>
        simp only [reduceCtorEq, leaf.injEq, true_and, false_iff, not_exists, not_and]
        rintro _ _ c e ⟨rfl, rfl⟩ htext
        exact absurd htext (hnone c e)
    | _ => simp [halves?]
  | _ => simp [halves?]

end Token

end Expander
