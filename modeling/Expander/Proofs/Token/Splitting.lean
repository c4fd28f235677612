import Expander.Proofs.Token.Patterns

/-!
# Cutting sequences apart

A rule takes tokens from the front of a sequence and leaves the rest. On the way it may cut a joined
angle in two, and the cut may run through the middle: then the first half is taken and the second
one stands at the front of the rest (`Takes`). Since a half is not cut again, what is taken in turns
is taken at once (`Takes.trans`).

So nothing is lost: what was taken with the rest behind it is the sequence with some of its joined
angles cut (`Takes.cuts`), and the rest is a suffix, or a half and the suffix behind it
(`Takes.behind`). The weight of a sequence, which counts a token that can be cut as two, is divided
among the two parts.
-/

set_option autoImplicit false

namespace Expander

variable {t a b : Token} {ts us first first' rest rest' : List Token}

/-! ### Halves -/

/-- Each half of a token of two characters is spelled as its character. -/
theorem Token.spells_halves {s : String} (hs : t.spells s = true) {c e : Char}
    (hchars : s.toList = [c, e]) (hcut : t.halves? = some (a, b)) :
    a.spells (String.singleton c) = true ∧ b.spells (String.singleton e) = true := by
  obtain ⟨text, span, c', e', rfl, htext, rfl, rfl⟩ := halves?_eq_some_iff.mp hcut
  have heq : text = s := by simpa [spells] using hs
  rw [heq, hchars] at htext
  obtain ⟨rfl, rfl⟩ : c = c' ∧ e = e' := by simpa using htext
  exact ⟨by simp [spells], by simp [spells]⟩

/-- A half is no longer punctuation of two characters. -/
theorem Token.halves?_of_half (hcut : t.halves? = some (a, b)) :
    a.halves? = none ∧ b.halves? = none := by
  obtain ⟨text, span, c, e, -, -, rfl, rfl⟩ := halves?_eq_some_iff.mp hcut
  exact ⟨by simp [halves?], by simp [halves?]⟩

/-- Whether a token is two angles in one. -/
def Token.isJoined (t : Token) : Bool := t.spells ">>" || t.spells "<<"

theorem Token.isJoined_iff {t : Token} :
    t.isJoined = true ↔ t.spells ">>" = true ∨ t.spells "<<" = true := by
  rw [isJoined, Bool.or_eq_true]

/-! ### Taking tokens -/

/-- Tokens are taken from the front of a sequence, joined angles perhaps as their halves, and the
rest is left. The last angle may be cut and only its first half taken. -/
inductive Takes : List Token → List Token → List Token → Prop
  | nil {ts : List Token} : Takes ts [] ts
  | keep {t : Token} {ts first rest : List Token} (h : Takes ts first rest) :
      Takes (t :: ts) (t :: first) rest
  | cut {t a b : Token} {ts first rest : List Token} (ht : t.isJoined = true)
      (hcut : t.halves? = some (a, b)) (h : Takes ts first rest) :
      Takes (t :: ts) (a :: b :: first) rest
  | half {t a b : Token} {ts : List Token} (ht : t.spells ">>" = true)
      (hcut : t.halves? = some (a, b)) : Takes (t :: ts) [a] (b :: ts)

/-- Tokens in front may be taken as they are. -/
theorem Takes.append_left (h : Takes ts first rest) (us : List Token) :
    Takes (us ++ ts) (us ++ first) rest := by
  induction us with
  | nil => exact h
  | cons u us ih => exact .keep ih

/-- The tokens in front of a rest are taken. -/
theorem takes_append (first rest : List Token) : Takes (first ++ rest) first rest := by
  have hnil : Takes rest [] rest := .nil
  have h := hnil.append_left first
  rwa [List.append_nil] at h

/-- A half is taken as it is or not at all. -/
theorem Takes.of_half (h : Takes (b :: ts) first rest) (hb : b.halves? = none) :
    first = [] ∧ rest = b :: ts ∨ ∃ more, first = b :: more ∧ Takes ts more rest := by
  cases h with
  | nil => exact .inl ⟨rfl, rfl⟩
  | keep h => exact .inr ⟨_, rfl, h⟩
  | cut _ hcut _ => simp [hb] at hcut
  | half _ hcut => simp [hb] at hcut

/-- What is taken in turns is taken at once. -/
theorem Takes.trans (h : Takes ts first rest) (h' : Takes rest first' rest') :
    Takes ts (first ++ first') rest' := by
  induction h with
  | nil => exact h'
  | keep _ ih => exact .keep (ih h')
  | cut ht hcut _ ih => exact .cut ht hcut (ih h')
  | half ht hcut =>
    rcases h'.of_half (Token.halves?_of_half hcut).2 with ⟨rfl, rfl⟩ | ⟨more, rfl, hmore⟩
    · exact .half ht hcut
    · exact .cut (Token.isJoined_iff.mpr (.inl ht)) hcut hmore

/-- The second half of a joined angle is taken behind the first. -/
theorem Takes.of_cut (h : Takes (b :: ts) first rest) (ht : t.isJoined = true)
    (hcut : t.halves? = some (a, b)) (hfirst : first ≠ []) :
    Takes (t :: ts) (a :: first) rest := by
  rcases h.of_half (Token.halves?_of_half hcut).2 with ⟨rfl, rfl⟩ | ⟨more, rfl, hmore⟩
  · exact absurd rfl hfirst
  · exact .cut ht hcut hmore

/-! ### Nothing is lost -/

/-- A sequence with some of its joined angles replaced by their halves, in order. -/
inductive Cuts : List Token → List Token → Prop
  | nil : Cuts [] []
  | keep {t : Token} {ts us : List Token} (h : Cuts ts us) : Cuts (t :: ts) (t :: us)
  | cut {t a b : Token} {ts us : List Token} (ht : t.isJoined = true)
      (hcut : t.halves? = some (a, b)) (h : Cuts ts us) : Cuts (t :: ts) (a :: b :: us)

theorem Cuts.refl (ts : List Token) : Cuts ts ts := by
  induction ts with
  | nil => exact .nil
  | cons t ts ih => exact .keep ih

/-- With the rest behind it, what is taken is the sequence with some angles cut. -/
theorem Takes.cuts (h : Takes ts first rest) : Cuts ts (first ++ rest) := by
  induction h with
  | nil => exact .refl _
  | keep _ ih => exact .keep ih
  | cut ht hcut _ ih => exact .cut ht hcut ih
  | half ht hcut => exact .cut (Token.isJoined_iff.mpr (.inl ht)) hcut (.refl _)

/-- A suffix of a sequence, or the second half of two closing angles and the suffix behind them. -/
def Behind (ts rest : List Token) : Prop :=
  rest <:+ ts ∨ ∃ t a b us, t.spells ">>" = true ∧ t.halves? = some (a, b) ∧ t :: us <:+ ts ∧
    rest = b :: us

/-- The rest is a suffix, or half a token and a suffix. -/
theorem Takes.behind (h : Takes ts first rest) : Behind ts rest := by
  have hcons : ∀ {t : Token} {ts rest : List Token}, Behind ts rest → Behind (t :: ts) rest := by
    rintro t ts rest (hsuffix | ⟨u, a, b, us, hu, hcut, hsuffix, rfl⟩)
    · exact .inl (hsuffix.trans (List.suffix_cons t ts))
    · exact .inr ⟨u, a, b, us, hu, hcut, hsuffix.trans (List.suffix_cons t ts), rfl⟩
  induction h with
  | nil => exact .inl List.suffix_rfl
  | keep _ ih => exact hcons ih
  | cut _ _ _ ih => exact hcons ih
  | half ht hcut => exact .inr ⟨_, _, _, _, ht, hcut, List.suffix_rfl, rfl⟩

/-! ### Weight -/

mutual

/-- How many tokens a token counts as: itself and those inside it, where one that can be cut counts
as its two halves. -/
def Token.weight : Token → Nat
  | leaf kind text span => if (leaf kind text span).halves?.isSome then 2 else 1
  | group _ _ stream => Token.weightAll stream + 1
  | hollow .. => 1

def Token.weightAll : List Token → Nat
  | [] => 0
  | t :: ts => t.weight + Token.weightAll ts

end

@[simp] theorem weightAll_nil : Token.weightAll [] = 0 := by rw [Token.weightAll]

@[simp] theorem weightAll_cons (t : Token) (ts : List Token) :
    Token.weightAll (t :: ts) = t.weight + Token.weightAll ts := by rw [Token.weightAll]

@[simp] theorem weight_group {d : Delimiter} {span : Option Span} {stream : List Token} :
    (Token.group d span stream).weight = Token.weightAll stream + 1 := by rw [Token.weight]

theorem weightAll_append (ts us : List Token) :
    Token.weightAll (ts ++ us) = Token.weightAll ts + Token.weightAll us := by
  induction ts with
  | nil => simp
  | cons t ts ih => simp [ih, Nat.add_assoc]

theorem weight_pos (t : Token) : 0 < t.weight := by
  cases t with
  | leaf kind text span =>
    rw [Token.weight]
    split <;> omega
  | group => simp
  | hollow => rw [Token.weight]; exact Nat.one_pos

/-- The halves of a token weigh together what the token does. -/
theorem weight_of_halves? (h : t.halves? = some (a, b)) :
    t.weight = 2 ∧ a.weight = 1 ∧ b.weight = 1 := by
  have hhalf := Token.halves?_of_half h
  obtain ⟨text, span, c, e, rfl, -, rfl, rfl⟩ := Token.halves?_eq_some_iff.mp h
  refine ⟨?_, ?_, ?_⟩
  · rw [Token.weight, h, Option.isSome_some, if_pos rfl]
  · rw [Token.weight, hhalf.1, Option.isSome_none, if_neg Bool.false_ne_true]
  · rw [Token.weight, hhalf.2, Option.isSome_none, if_neg Bool.false_ne_true]

/-- The weight is divided among what is taken and what is left. -/
theorem Takes.weightAll_eq (h : Takes ts first rest) :
    Token.weightAll ts = Token.weightAll first + Token.weightAll rest := by
  induction h with
  | nil => simp
  | keep _ ih => simp [ih, Nat.add_assoc]
  | cut _ hcut _ ih =>
    obtain ⟨ht, ha, hb⟩ := weight_of_halves? hcut
    simp [ht, ha, hb, ih]
    omega
  | half _ hcut =>
    obtain ⟨ht, ha, hb⟩ := weight_of_halves? hcut
    simp [ht, ha, hb]
    omega

end Expander
