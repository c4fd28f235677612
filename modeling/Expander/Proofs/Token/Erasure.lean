import Expander.Proofs.Token.Patterns
import Mathlib.Data.List.Forall2

/-!
# Tokens without their places

Tokens read alike if and only if they are the same without their places (`same_iff_erase`). Nothing
that is asked of a token looks at its place: patterns, halves, streams and renderings are all the
same, or the same without their places, when the places are erased first.
-/

set_option autoImplicit false

namespace Expander

namespace Token

mutual

/-- A token without its place, and without the places of the tokens inside it. -/
def erase : Token → Token
  | leaf kind text _ => leaf kind text none
  | group d _ stream => group d none (eraseAll stream)
  | hollow d _ => hollow d none

def eraseAll : List Token → List Token
  | [] => []
  | t :: ts => t.erase :: eraseAll ts

end

theorem eraseAll_eq_map (ts : List Token) : eraseAll ts = ts.map erase := by
  induction ts with
  | nil => rfl
  | cons t ts ih => rw [eraseAll, ih, List.map_cons]

/-- The place of a group goes, and so do the places of all tokens between its brackets. -/
theorem erase_group (d : Delimiter) (span : Option Span) (stream : List Token) :
    (group d span stream).erase = group d none (stream.map erase) := by
  rw [erase, eraseAll_eq_map]

/-! ### Comparison -/

/-- Sequences compare equal if their tokens do, one by one. -/
theorem sameAll_iff {ts us : List Token} :
    sameAll ts us = true ↔ List.Forall₂ (fun t u ↦ t.same u = true) ts us := by
  induction ts generalizing us with
  | nil => cases us <;> simp [sameAll]
  | cons t ts ih => cases us <;> simp [sameAll, ih]

mutual

/-- Two tokens compare equal if and only if nothing but places tells them apart. So a comparison is
an equation, and what is shown of tokens without places holds of all that compare equal. -/
theorem same_iff_erase : (t u : Token) → (t.same u = true ↔ t.erase = u.erase)
  | leaf .., leaf .. => by simp [same, erase]
  | group _ _ ts, group _ _ us => by simp [same, erase, sameAll_iff_erase ts us]
  | hollow .., hollow .. => by simp [same, erase]
  | leaf .., group .. | leaf .., hollow .. | group .., leaf .. | group .., hollow ..
  | hollow .., leaf .. | hollow .., group .. => by simp [same, erase]

/-- Two sequences compare equal if and only if nothing but places tells them apart. -/
theorem sameAll_iff_erase : (ts us : List Token) →
    (sameAll ts us = true ↔ eraseAll ts = eraseAll us)
  | [], [] => by simp [sameAll]
  | t :: ts, u :: us => by simp [sameAll, eraseAll, same_iff_erase t u, sameAll_iff_erase ts us]
  | [], _ :: _ | _ :: _, [] => by simp [sameAll, eraseAll]

end

/-- The same, for places that are taken off token by token. -/
theorem sameAll_iff_map {ts us : List Token} :
    sameAll ts us = true ↔ ts.map erase = us.map erase := by
  rw [sameAll_iff_erase, eraseAll_eq_map, eraseAll_eq_map]

mutual

/-- A token that has no place has none to lose. -/
@[simp] theorem erase_erase : (t : Token) → t.erase.erase = t.erase
  | leaf .. => by simp [erase]
  | group _ _ ts => by simp [erase, eraseAll_eraseAll ts]
  | hollow .. => by simp [erase]

theorem eraseAll_eraseAll : (ts : List Token) → eraseAll (eraseAll ts) = eraseAll ts
  | [] => rfl
  | t :: ts => by simp [eraseAll, erase_erase t, eraseAll_eraseAll ts]

end

/-! ### Rendering -/

mutual

/-- What is printed of a token does not tell where it stood. -/
@[simp] theorem render_erase : (t : Token) → t.erase.render = t.render
  | leaf .. => by simp [erase, render]
  | group _ _ ts => by simp [erase, render, renderEach_erase ts]
  | hollow .. => by simp [erase, render]

/-- What is printed of a sequence does not tell where its tokens stood. -/
theorem renderEach_erase : (ts : List Token) → renderEach (eraseAll ts) = renderEach ts
  | [] => rfl
  | t :: ts => by simp [eraseAll, renderEach, render_erase t, renderEach_erase ts]

end

/-! ### Parts of a token -/

@[simp] theorem text_erase (t : Token) : t.erase.text = t.text := by
  cases t <;> rfl

/-- Whether a token is a certain punctuation is told by its kind and its text. -/
@[simp] theorem isPunct_erase (spelling : String) (t : Token) :
    t.erase.isPunct spelling = t.isPunct spelling := by
  cases t with
  | leaf kind => cases kind <;> rfl
  | _ => rfl

/-- The tokens of a group lose their places as the group does. -/
@[simp] theorem stream?_erase (t : Token) : t.erase.stream? = t.stream?.map (List.map erase) := by
  cases t with
  | group => simp [erase_group, stream?]
  | _ => rfl

/-- The halves of a token without a place have none either, since each takes its place from the
token. -/
@[simp] theorem halves?_erase (t : Token) :
    t.erase.halves? = t.halves?.map (Prod.map erase erase) := by
  cases t with
  | leaf kind text span =>
    cases kind with
    | punct =>
      simp only [erase, halves?]
      split <;> simp [erase]
    | _ => rfl
  | group => rw [erase_group]; rfl
  | hollow => rfl

end Token

/-! ### Patterns -/

/-- No pattern looks at a place, so one holds of a token if and only if it holds without places.
This is what makes rules blind to them. -/
@[simp] theorem holds_erase (p : Pattern) (t : Token) : p.holds t.erase = p.holds t := by
  cases t with
  | leaf kind text span =>
    cases p with
    | spelling => cases kind <;> rfl
    | _ => rfl
  | _ => cases p <;> rfl

end Expander
