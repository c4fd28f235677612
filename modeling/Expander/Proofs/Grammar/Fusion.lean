import Expander.Proofs.Grammar.Acceptance
import Expander.Proofs.Grammar.Lossless

/-!
# Joined tokens make no difference to reading

Joined angles and ampersands are read by steps of their own, which cut the token, skip a call or
take two ampersands at once. Here every step on a sequence is held against the steps on what the
sequence is taken apart into. Where nothing is joined they are the same step; where something is,
one of them stands for two of the other (`agrees_of_advances`).

So a call reads a sequence as it reads what that is taken apart into: it finds fault with both, or
gives back and leaves of the one what the other's are taken apart into (`Reads.agrees`).
-/

set_option autoImplicit false

namespace Expander

open Token

variable {t x : Token} {ts w : List Token} {s : String}

/-! ### The first half -/

/-- The first of what a token is taken apart into, with what is behind it. It is told apart from
nothing by which the token is not told apart, but for the spelling of a half. -/
structure Token.Leads (t x : Token) (w : List Token) : Prop where
  unfused : t.unfused = x :: w
  ident : x.isIdent = t.isIdent
  lifetime : x.isLifetime = t.isLifetime
  literal : x.isLiteral = t.isLiteral
  delimiter : x.delimiter? = t.delimiter?
  spells : ∀ s, (s ∈ halfSpellings → t.spells (s ++ s) = false) → t.spells s = false →
    x.spells s = false

/-- Every token begins with something when it is taken apart: its first half, or itself. -/
theorem Token.exists_leads (t : Token) : ∃ x w, t.Leads x w := by
  by_cases hfused : ∃ x y, t.IsFused x y
  · obtain ⟨x, y, hfused⟩ := hfused
    obtain ⟨s', hs', ht, hx, -⟩ := hfused.spells
    have hident := isKind_punct_of_halves? (k := .ident) hfused.1 (by decide)
    have hlifetime := isKind_punct_of_halves? (k := .lifetime) hfused.1 (by decide)
    have hliteral := isKind_punct_of_halves? (k := .literal) hfused.1 (by decide)
    refine ⟨x, [y], hfused.unfused_eq, hident.2.1.trans hident.1.symm,
      hlifetime.2.1.trans hlifetime.1.symm, hliteral.2.1.trans hliteral.1.symm, ?_, ?_⟩
    · rw [delimiter?_of_spells hx, delimiter?_of_spells ht]
    · intro s hhalf _
      rw [spells_eq hx, decide_eq_false_iff_not]
      rintro rfl
      rw [hhalf hs'] at ht
      cases ht
  · cases t with
    | leaf kind text span =>
      have hself := unfused_of_not_fused rfl fun x y h ↦ hfused ⟨x, y, h⟩
      exact ⟨_, [], hself, rfl, rfl, rfl, rfl, fun _ _ h ↦ h⟩
    | group d span stream => exact ⟨_, [], unfused_group, rfl, rfl, rfl, rfl, fun _ _ h ↦ h⟩
    | hollow d span => exact ⟨_, [], by rw [Token.unfused], rfl, rfl, rfl, rfl, fun _ _ h ↦ h⟩

/-- Nothing is behind the first half of a token with a spelling that no half has, if nothing was
behind the token. -/
theorem Token.Leads.ends (hx : t.Leads x w) (hs : s ∉ halfSpellings) (hfused : s ∉ fusedSpellings)
    (h : t.spells s = true → ts = []) (hspells : x.spells s = true) : w ++ unfuse ts = [] := by
  have ht : t.spells s = true := by
    by_contra hnot
    rw [hx.spells s (fun hhalf ↦ absurd hhalf hs) (Bool.eq_false_iff.mpr hnot)] at hspells
    cases hspells
  obtain ⟨-, rfl⟩ : t = x ∧ [] = w := by simpa [unfused_of_spells ht hfused] using hx.unfused
  rw [h ht, unfuse_nil, List.nil_append]

namespace Grammar

/-- A spelling that is not at the front of a sequence, not as one of two halves either, is not at
the front of what the sequence is taken apart into. -/
theorem startsWith_unfuse_spelling
    (hhalf : s ∈ halfSpellings → startsWith ts [.spelling (s ++ s)] = false)
    (h : startsWith ts [.spelling s] = false) : startsWith (unfuse ts) [.spelling s] = false := by
  cases ts with
  | nil => rw [unfuse_nil]; rfl
  | cons t ts =>
    obtain ⟨x, w, hx⟩ := t.exists_leads
    simp only [startsWith_cons, startsWith_nil, Bool.and_true, holds_spelling] at h hhalf
    rw [unfuse_cons, hx.unfused, List.cons_append, startsWith_cons, startsWith_nil, Bool.and_true]
    exact hx.spells s hhalf h

/-- Lifetimes, literals and groups stay at the front when tokens are taken apart, and none comes
there. -/
theorem startsWith_unfuse_kind :
    startsWith (unfuse ts) [lifetime] = startsWith ts [lifetime] ∧
    startsWith (unfuse ts) [literal] = startsWith ts [literal] ∧
    ∀ d, startsWith (unfuse ts) [.group d] = startsWith ts [.group d] := by
  cases ts with
  | nil => simp
  | cons t ts =>
    obtain ⟨x, w, hx⟩ := t.exists_leads
    simp [hx.unfused, hx.lifetime, hx.literal, hx.delimiter]

/-! ### Calls -/

/-- A call on tokens that were all taken apart. -/
@[simp] def Call.unfused : Call → Call
  | path ts => .path (unfuse ts)
  | tail before ts => .tail (unfuse before) (unfuse ts)
  | after before ts => .after (unfuse before) (unfuse ts)
  | more before read ts => .more (unfuse before) (unfuse read) (unfuse ts)
  | param ts => .param (unfuse ts)
  | arrow before ts => .arrow (unfuse before) (unfuse ts)
  | list s ts => .list s (unfuse ts)
  | separator s element ts => .separator s (unfuse element) (unfuse ts)
  | type ts => .type (unfuse ts)
  | summed ts => .summed (unfuse ts)
  | summands before ts => .summands (unfuse before) (unfuse ts)
  | summand before read ts => .summand (unfuse before) (unfuse read) (unfuse ts)
  | bounds before read ts => .bounds (unfuse before) (unfuse read) (unfuse ts)
  | bound ts => .bound (unfuse ts)
  | arrayEnd before behind element ts =>
    .arrayEnd (unfuse before) (unfuse behind) (unfuse element) (unfuse ts)
  | pointer before ts => .pointer (unfuse before) (unfuse ts)
  | self angle ts => .self (unfuse angle) (unfuse ts)
  | afterSelf before read ts => .afterSelf (unfuse before) (unfuse read) (unfuse ts)
  | selfEnd before read ts => .selfEnd (unfuse before) (unfuse read) (unfuse ts)
  | back r before read ts => .back r (unfuse before) (unfuse read) (unfuse ts)

/-- A result, and the same one of tokens that were taken apart. -/
inductive Alike : Parsed → Parsed → Prop
  | fault (f f' : Fault) : Alike (.error f) (.error f')
  | ok (first rest : List Token) : Alike (.ok (first, rest)) (.ok (unfuse first, unfuse rest))

/-- On tokens that were taken apart a call comes to the same. -/
def Call.Agrees (c : Call) (r : Parsed) : Prop :=
  ∃ ds r', Alike r r' ∧ Reads c.unfused ds r'

/-- If what a step leads to comes to the same, so does the call. -/
def Plan.Agrees (c : Call) : Plan → Prop
  | .fault f => c.Agrees (.error f)
  | .done first rest => c.Agrees (.ok (first, rest))
  | .go c' => ∀ ds r, Reads c' ds r → c'.Agrees r → c.Agrees r
  | .part c' next => (∀ f, c'.Agrees (.error f) → c.Agrees (.error f)) ∧
      ∀ first rest r, c'.Agrees (.ok (first, rest)) → (next first rest).Agrees r → c.Agrees r

section

variable {c c' c₁ c₂ : Call} {f f' : Fault} {first rest first' rest' : List Token}
  {next next' : List Token → List Token → Call}

/-- A fault agrees with a fault at the same tokens taken apart, wherever the two are. -/
theorem agrees_fault (h : Advances c₁ (.fault f')) (hc : c.unfused = c₁) : c.Agrees (.error f) :=
  ⟨_, _, .fault f f', hc.symm ▸ Reads.fault h⟩

/-- A fault that only the next call finds. -/
theorem agrees_lost {ds : List Nat} (h : Advances c₁ (.part c₂ next'))
    (hpart : Reads c₂ ds (.error f')) (hc : c.unfused = c₁) : c.Agrees (.error f) :=
  ⟨_, _, .fault f f', hc.symm ▸ Reads.lost h hpart⟩

/-- A call that is at its end agrees with one that gives back and leaves the same, taken apart. -/
theorem agrees_done (h : Advances c₁ (.done first' rest')) (hc : c.unfused = c₁)
    (hfirst : unfuse first = first') (hrest : unfuse rest = rest') :
    c.Agrees (.ok (first, rest)) := by
  subst hc hfirst hrest
  exact ⟨_, _, .ok first rest, .done h⟩

/-- A call that goes on agrees with one that goes on with the same, taken apart. -/
theorem agrees_go (h : Advances c₁ (.go c₂)) (hc : c.unfused = c₁) (hc' : c'.unfused = c₂) :
    (Plan.go c').Agrees c := by
  subst hc hc'
  rintro ds r - ⟨ds', r', halike, hreads⟩
  exact ⟨_, r', halike, .go h hreads⟩

/-- A step that stands for two. -/
theorem agrees_twice (h : Advances c₁ (.go c₂)) (h' : Advances c₂ (.done first' rest'))
    (hc : c.unfused = c₁) (hfirst : unfuse first = first') (hrest : unfuse rest = rest') :
    c.Agrees (.ok (first, rest)) := by
  subst hc hfirst hrest
  exact ⟨_, _, .ok first rest, .go h (.done h')⟩

/-- So does one that goes on behind a part. -/
theorem agrees_part (h : Advances c₁ (.part c₂ next')) (hc : c.unfused = c₁)
    (hc' : c'.unfused = c₂)
    (hnext : ∀ first rest, (next first rest).unfused = next' (unfuse first) (unfuse rest)) :
    (Plan.part c' next).Agrees c := by
  subst hc hc'
  constructor
  · rintro f ⟨ds, r', halike, hreads⟩
    cases halike
    exact ⟨_, _, .fault _ _, .lost h hreads⟩
  · rintro first rest r ⟨ds, r', halike, hreads⟩ ⟨ds', r'', halike', hreads'⟩
    cases halike
    rw [hnext] at hreads'
    exact ⟨_, r'', halike', .part h hreads hreads'⟩

end

/-! ### Steps of paths -/

section

variable {before read ts us : List Token} {p : Plan}

/-- A path takes the same step on tokens that are taken apart. So it is shown below for the other
calls. -/
theorem agrees_path (h : Advances (.path ts) p) : p.Agrees (.path ts) := by
  cases h with
  | @rooted c t ts hc ht =>
    have hc' := unfused_of_spells hc (by decide)
    have ht' := unfused_of_isIdent ht
    exact agrees_part (@Advances.rooted c t (unfuse ts) hc ht) (by simp [hc', ht']) (by simp)
      (by simp [hc', ht'])
  | @plain t ts ht hc =>
    have ht' := unfused_of_isIdent ht
    exact agrees_part (@Advances.plain t (unfuse ts) ht hc) (by simp [ht']) (by simp)
      (by simp [ht'])
  | noPath => exact agrees_fault .noPath (by simp)
  | @rootedNoIdent c t ts hc hident ht =>
    obtain ⟨x, w, hx⟩ := t.exists_leads
    have hc' := unfused_of_spells hc (by decide)
    exact agrees_fault (@Advances.rootedNoIdent c x (w ++ unfuse ts) hc hident
      (hx.ident.trans ht)) (by simp [hc', hx.unfused])
  | @noIdent t ts ht hc =>
    obtain ⟨x, w, hx⟩ := t.exists_leads
    exact agrees_fault (@Advances.noIdent x (w ++ unfuse ts) (hx.ident.trans ht)
      (hx.ends (by decide) (by decide) hc)) (by simp [hx.unfused])

/-- No path goes on with a closing angle. -/
theorem advances_angle {e : Token} (he : e.spells ">" = true) :
    Advances (.after before (e :: ts)) (.done before (e :: ts)) :=
  .pathEnd fun hstart ↦ by simp [spells_eq he] at hstart

/-- Two opening angles behind a path, and nothing behind them. -/
theorem reads_twoAngles (before : List Token) {cs : List Token} {o y : Token}
    (hcs : Maybe (spells "::") cs) (ho : o.spells "<" = true) (hy : y.spells "<" = true) :
    ∃ ds, Reads (.tail before (cs ++ [o, y])) ds (.error (.unexpected y)) := by
  have hother : ∀ s, s ≠ "<" → y.spells s = false := fun s hs ↦ by
    rw [spells_eq hy, decide_eq_false_iff_not]
    exact hs.symm
  have hparam : Advances (.param [y]) (.part (.summed [y]) (.back .param [])) := by
    refine .typeParam (isLifetime_of_spells hy) (isLiteral_of_spells hy) ?_ ?_ ?_
    · rw [delimiter?_of_spells hy]
      exact nofun
    · simp
    · simp
  have hopening : Advances (.tail before (cs ++ o :: [y]))
      (.part (.param [y]) (.more (before ++ cs ++ [o]))) := by
    refine .opening hcs ho (List.cons_ne_nil _ _) ?_ ?_
    · simp [hother]
    · simp [hother]
  exact ⟨_, .lost hopening (.lost hparam (.lost .summed (.fault (.qualifiedLast hy))))⟩

/-- Behind a double colon a sequence ends with an opening angle, also once it is taken apart, unless
the angle is joined. -/
theorem ends_unfuse (hturbo : startsWith ts ["::", "<"] = true → ts.length = 2)
    (hturboFused : startsWith ts ["::", "<<"] = true → ts.length = 2)
    (hcut : ¬ ∃ c o x y, ts = [c, o] ∧ c.spells "::" = true ∧ o.spells "<<" = true ∧
      o.IsFused x y) :
    (startsWith (unfuse ts) ["::", "<"] = true → (unfuse ts).length = 2) ∧
      (startsWith (unfuse ts) ["::", "<<"] = true → (unfuse ts).length = 2) := by
  constructor
  · intro h
    obtain ⟨c, w, hw, hc, h⟩ := exists_of_startsWith h
    obtain ⟨o, w, rfl, ho, -⟩ := exists_of_startsWith h
    obtain ⟨us, rfl, hus⟩ := exists_of_unfuse_of_spells hw hc (by decide)
    rcases exists_of_unfuse_of_half hus ho with ⟨vs, rfl, rfl⟩ | ⟨t, y, vs, rfl, hhalves, ht, -, -⟩
    · have hlength := hturbo (by simpa using ⟨hc, ho⟩)
      obtain rfl : vs = [] := by simpa using hlength
      simp [hw]
    · have hlength := hturboFused (by simpa using ⟨hc, ht⟩)
      obtain rfl : vs = [] := by simpa using hlength
      exact absurd ⟨c, t, o, y, rfl, hc, ht, hhalves, "<<", by decide, ht⟩ hcut
  · intro h
    obtain ⟨c, w, hw, hc, h⟩ := exists_of_startsWith h
    obtain ⟨o, w, rfl, ho, -⟩ := exists_of_startsWith h
    obtain ⟨us, rfl, hus⟩ := exists_of_unfuse_of_spells hw hc (by decide)
    obtain ⟨vs, rfl, rfl⟩ := exists_of_unfuse_of_spells hus ho (by decide)
    have hlength := hturboFused (by simpa using ⟨hc, ho⟩)
    obtain rfl : vs = [] := by simpa using hlength
    simp [hw]

/-- Where no angle follows an identifier, none does when tokens are taken apart. -/
theorem agrees_noArgs (hone : startsWith ts ["<"] = false) (htwo : startsWith ts ["<<"] = false)
    (hparen : startsWith ts [.group .paren] = false)
    (hturbo : startsWith ts ["::", "<"] = true → ts.length = 2)
    (hturboFused : startsWith ts ["::", "<<"] = true → ts.length = 2) :
    (Plan.go (.after before ts)).Agrees (.tail before ts) := by
  by_cases hcut : ∃ c o x y, ts = [c, o] ∧ c.spells "::" = true ∧ o.spells "<<" = true ∧
      o.IsFused x y
  · -- Only once they are taken apart do the angles open a list, and then it is left open.
    obtain ⟨c, o, x, y, rfl, hc, ho, hfused⟩ := hcut
    obtain ⟨hx, hy⟩ := spells_halves ho rfl hfused.1
    obtain ⟨ds', hreads⟩ := reads_twoAngles (unfuse before) (.one hc) hx hy
    have hident := isKind_punct_of_halves? (k := .ident) hfused.1 (by decide)
    have hagrees : ∀ f, (Call.tail before [c, o]).Agrees (.error f) := fun f ↦
      ⟨ds', _, .fault _ _, by
        simpa [unfused_of_spells hc (by decide), hfused.unfused_eq] using hreads⟩
    intro ds r hafter _
    cases hafter with
    | fault => exact hagrees _
    | done h =>
      cases h with
      | pathEnd hstart => cases hstart (by simpa using hc)
    | go h =>
      cases h with
      | segment _ ht => cases hident.1.symm.trans ht
    | part h => cases h
    | lost h => cases h
  · obtain ⟨hturbo', hturboFused'⟩ := ends_unfuse hturbo hturboFused hcut
    refine agrees_go (.noArgs (startsWith_unfuse_spelling (fun _ ↦ htwo) hone)
      (startsWith_unfuse_spelling (fun h ↦ absurd h (by decide)) htwo) ?_ hturbo' hturboFused')
      rfl rfl
    rw [startsWith_unfuse_kind.2.2, hparen]

/-- A cut of two opening angles is no step of its own on tokens that are taken apart: there they are
two already. -/
theorem agrees_tail (h : Advances (.tail before ts) p) : p.Agrees (.tail before ts) := by
  cases h with
  | @empty _ cs ts o e hcs ho he =>
    have hcs' := unfuse_maybe_spells (by decide) hcs
    have ho' := unfused_of_spells ho (by decide)
    have he' := unfused_of_spells he (by decide)
    exact agrees_go (@Advances.empty (unfuse before) cs (unfuse ts) o e hcs ho he)
      (by simp [hcs', ho', he']) (by simp [hcs', ho', he'])
  | @emptyFused _ cs ts o e e₁ e₂ hcs ho he hcut =>
    have hcs' := unfuse_maybe_spells (by decide) hcs
    have ho' := unfused_of_spells ho (by decide)
    obtain ⟨he', h₁, h₂⟩ := unfused_of_isJoined (isJoined_iff.mpr (.inl he)) hcut
    obtain ⟨hone, htwo⟩ : e₁.spells ">" = true ∧ e₂.spells ">" = true :=
      spells_halves he rfl hcut
    exact agrees_twice (@Advances.empty (unfuse before) cs (e₂ :: unfuse ts) o e₁ hcs ho hone)
      (advances_angle htwo) (by simp [hcs', ho', he']) (by simp [hcs', ho', h₁]) (by simp [h₂])
  | @opening _ cs ts o hcs ho hts hone htwo =>
    have hcs' := unfuse_maybe_spells (by decide) hcs
    have ho' := unfused_of_spells ho (by decide)
    exact agrees_part (@Advances.opening (unfuse before) cs (unfuse ts) o hcs ho
      (mt unfuse_eq_nil_iff.mp hts) (startsWith_unfuse_spelling (fun _ ↦ htwo) hone)
      (startsWith_unfuse_spelling (fun h ↦ absurd h (by decide)) htwo))
      (by simp [hcs', ho']) rfl (by simp [hcs', ho'])
  | @openingFused _ cs ts o o₁ o₂ hcs ho hcut hts =>
    have hcs' := unfuse_maybe_spells (by decide) hcs
    obtain ⟨ho', h₁, h₂⟩ := unfused_of_isJoined (isJoined_iff.mpr (.inr ho)) hcut
    obtain ⟨hone, htwo⟩ : o₁.spells "<" = true ∧ o₂.spells "<" = true :=
      spells_halves ho rfl hcut
    exact agrees_part (@Advances.opening (unfuse before) cs (o₂ :: unfuse ts) o₁ hcs hone
      (List.cons_ne_nil _ _) (startsWith_false_of_spells htwo (by decide))
      (startsWith_false_of_spells htwo (by decide)))
      (by simp [hcs', ho']) (by simp [h₂]) (by simp [hcs', h₁])
  | @openingLast _ o ho =>
    exact agrees_fault (@Advances.openingLast (unfuse before) o ho)
      (by simp [unfused_of_spells ho (by decide)])
  | @fnArgs _ ts inner span =>
    exact agrees_part (@Advances.fnArgs (unfuse before) (unfuse ts) (unfuse inner) span)
      (by simp) (by simp) (by simp)
  | noArgs hone htwo hparen hturbo hturboFused =>
    exact agrees_noArgs hone htwo hparen hturbo hturboFused

theorem agrees_after (h : Advances (.after before ts) p) : p.Agrees (.after before ts) := by
  cases h with
  | @segment _ ts c t hc ht =>
    have hc' := unfused_of_spells hc (by decide)
    have ht' := unfused_of_isIdent ht
    exact agrees_go (@Advances.segment (unfuse before) (unfuse ts) c t hc ht)
      (by simp [hc', ht']) (by simp [hc', ht'])
  | @segmentNoIdent _ ts c t hc ht =>
    obtain ⟨x, w, hx⟩ := t.exists_leads
    have hc' := unfused_of_spells hc (by decide)
    exact agrees_fault (@Advances.segmentNoIdent (unfuse before) (w ++ unfuse ts) c x hc
      (hx.ident.trans ht)) (by simp [hc', hx.unfused])
  | pathEnd hend =>
    refine agrees_done (.pathEnd fun hstart ↦ ?_) rfl rfl rfl
    obtain ⟨c, w, hw, hc, -⟩ := exists_of_startsWith hstart
    obtain ⟨us, rfl, -⟩ := exists_of_unfuse_of_spells hw hc (by decide)
    obtain rfl : us = [] := by simpa using hend (by simpa using hc)
    simp [unfused_of_spells hc (by decide)]

/-- A sequence that is not empty has a last token, also once it is taken apart. -/
theorem exists_getLast?_unfuse (h : ts.getLast? = some t) : ∃ u, (unfuse ts).getLast? = some u := by
  refine exists_getLast? fun hnil ↦ ?_
  rw [unfuse_eq_nil_iff.mp hnil] at h
  cases h

/-- Nor is a cut of two closing angles. -/
theorem agrees_more (h : Advances (.more before read ts) p) : p.Agrees (.more before read ts) := by
  cases h with
  | @close _ _ ms ts e hms he =>
    have hms' := unfuse_maybe_spells (by decide) hms
    have he' := unfused_of_spells he (by decide)
    exact agrees_go (@Advances.close (unfuse before) (unfuse read) ms (unfuse ts) e hms he)
      (by simp [hms', he']) (by simp [hms', he'])
  | @closeFused _ _ ms ts e e₁ e₂ hms he hcut =>
    have hms' := unfuse_maybe_spells (by decide) hms
    obtain ⟨he', h₁, h₂⟩ := unfused_of_isJoined (isJoined_iff.mpr (.inl he)) hcut
    obtain ⟨hone, htwo⟩ : e₁.spells ">" = true ∧ e₂.spells ">" = true :=
      spells_halves he rfl hcut
    exact agrees_twice
      (@Advances.close (unfuse before) (unfuse read) ms (e₂ :: unfuse ts) e₁ hms hone)
      (advances_angle htwo) (by simp [hms', he']) (by simp [hms', h₁]) (by simp [h₂])
  | @comma _ _ ts m hm hts hone htwo =>
    have hm' := unfused_of_spells hm (by decide)
    exact agrees_part (@Advances.comma (unfuse before) (unfuse read) (unfuse ts) m hm
      (mt unfuse_eq_nil_iff.mp hts) (startsWith_unfuse_spelling (fun _ ↦ htwo) hone)
      (startsWith_unfuse_spelling (fun h ↦ absurd h (by decide)) htwo))
      (by simp [hm']) rfl (by simp [hm'])
  | leftOpen ht =>
    obtain ⟨u, hu⟩ := exists_getLast?_unfuse ht
    exact agrees_fault (@Advances.leftOpen (unfuse before) (unfuse read) u hu) (by simp)
  | @noComma _ _ ts t hone htwo hm =>
    obtain ⟨x, w, hx⟩ := t.exists_leads
    exact agrees_fault (@Advances.noComma (unfuse before) (unfuse read) (w ++ unfuse ts) x
      (hx.spells _ (fun _ ↦ htwo) hone) (hx.spells _ (fun h ↦ absurd h (by decide)) htwo)
      (hx.ends (by decide) (by decide) hm)) (by simp [hx.unfused])

theorem agrees_param (h : Advances (.param ts) p) : p.Agrees (.param ts) := by
  cases h with
  | @single ts t ht =>
    obtain ⟨u, hu, hkind⟩ : ∃ u, t.unfused = [u] ∧
        (u.isLifetime = true ∨ u.isLiteral = true ∨ u.delimiter? = some .brace) := by
      rcases ht with ht | ht | ht
      · exact ⟨t, unfused_of_isLifetime ht, .inl ht⟩
      · exact ⟨t, unfused_of_isLiteral ht, .inr (.inl ht)⟩
      · obtain ⟨u, hu, hbrace⟩ := unfused_of_delimiter? ht
        exact ⟨u, hu, .inr (.inr hbrace)⟩
    exact agrees_done (@Advances.single (unfuse ts) u hkind) (by simp [hu]) (by simp [hu]) rfl
  | @negative ts m l hm hl =>
    have hm' := unfused_of_spells hm (by decide)
    have hl' := unfused_of_isLiteral hl
    exact agrees_done (@Advances.negative (unfuse ts) m l hm hl) (by simp [hm', hl'])
      (by simp [hm', hl']) rfl
  | @binding ts t e ht he hts =>
    have ht' := unfused_of_isIdent ht
    have he' := unfused_of_spells he (by decide)
    exact agrees_part (@Advances.binding (unfuse ts) t e ht he (mt unfuse_eq_nil_iff.mp hts))
      (by simp [ht', he']) rfl (by simp [ht', he'])
  | noParam => exact agrees_fault .noParam (by simp)
  | @typeParam ts t hlifetime hliteral hbrace hbinding hnegative =>
    obtain ⟨x, w, hx⟩ := t.exists_leads
    have hfront : unfuse (t :: ts) = x :: (w ++ unfuse ts) := by simp [hx.unfused]
    refine agrees_part (@Advances.typeParam (w ++ unfuse ts) x (hx.lifetime.trans hlifetime)
      (hx.literal.trans hliteral) (hx.delimiter ▸ hbrace) ?_ ?_) (by simp [hx.unfused])
      (by simp [hx.unfused]) (by simp)
    · intro hstart
      rw [← hfront] at hstart
      obtain ⟨t', v, hv, ht', hstart⟩ := exists_of_startsWith hstart
      obtain ⟨e, v, rfl, he, -⟩ := exists_of_startsWith hstart
      obtain ⟨us, hus, hrest⟩ := exists_of_unfuse_of_isKind hv (by decide) ht'
      obtain ⟨us, rfl, rfl⟩ := exists_of_unfuse_of_spells hrest he (by decide)
      obtain ⟨rfl, rfl⟩ := List.cons.inj hus
      obtain rfl : us = [] := by simpa using hbinding (by simpa using ⟨ht', he⟩)
      obtain ⟨-, hw⟩ := List.cons.inj (hfront.symm.trans hv)
      rw [hw, unfuse_nil, List.length_singleton]
    · rw [← hfront, Bool.eq_false_iff]
      intro hstart
      obtain ⟨m, v, hv, hm, hstart⟩ := exists_of_startsWith hstart
      obtain ⟨l, v, rfl, hl, -⟩ := exists_of_startsWith hstart
      obtain ⟨us, hus, hrest⟩ := exists_of_unfuse_of_spells hv hm (by decide)
      obtain ⟨us, rfl, rfl⟩ := exists_of_unfuse_of_isKind hrest (by decide) hl
      obtain ⟨rfl, rfl⟩ := List.cons.inj hus
      rw [startsWith_cons, hm, startsWith_cons, hl, startsWith_nil] at hnegative
      cases hnegative

theorem agrees_arrow (h : Advances (.arrow before ts) p) : p.Agrees (.arrow before ts) := by
  cases h with
  | @arrow _ ts a ha hts =>
    have ha' := unfused_of_spells ha (by decide)
    exact agrees_part (@Advances.arrow (unfuse before) (unfuse ts) a ha
      (mt unfuse_eq_nil_iff.mp hts)) (by simp [ha']) rfl (by simp [ha'])
  | @arrowLast _ a ha =>
    exact agrees_fault (@Advances.arrowLast (unfuse before) a ha)
      (by simp [unfused_of_spells ha (by decide)])
  | noArrow h =>
    exact agrees_done (.noArrow (startsWith_unfuse_spelling (fun h ↦ absurd h (by decide)) h))
      rfl rfl rfl

theorem agrees_list {s : Sequence} (h : Advances (.list s ts) p) : p.Agrees (.list s ts) := by
  cases h with
  | listEnd => exact agrees_done (@Advances.listEnd s) (by simp) unfuse_nil unfuse_nil
  | listType hts =>
    exact agrees_part (.listType (mt unfuse_eq_nil_iff.mp hts)) rfl rfl fun _ _ ↦ rfl
  | listSummed hts =>
    exact agrees_part (.listSummed (mt unfuse_eq_nil_iff.mp hts)) rfl rfl fun _ _ ↦ rfl

theorem agrees_separator {s : Sequence} (h : Advances (.separator s read ts) p) :
    p.Agrees (.separator s read ts) := by
  cases h with
  | separatorEnd =>
    exact agrees_done (@Advances.separatorEnd s (unfuse read)) (by simp) unfuse_nil unfuse_nil
  | @separator _ _ ts m hm =>
    exact agrees_go (@Advances.separator s (unfuse read) (unfuse ts) m hm)
      (by simp [unfused_of_spells hm (by decide)]) rfl
  | @noSeparator _ _ ts t ht =>
    obtain ⟨x, w, hx⟩ := t.exists_leads
    exact agrees_fault (@Advances.noSeparator s (unfuse read) (w ++ unfuse ts) x
      (hx.spells _ (fun h ↦ absurd h (by decide)) ht)) (by simp [hx.unfused])

end

/-! ### Steps of types -/

section

variable {before read ts : List Token} {p : Plan}

/-- Two ampersands in one are two of one. -/
theorem spells_ampersands {a x y : Token} (ha : a.spells "&" = true ∨ a.spells "&&" = true)
    (hfused : a.IsFused x y) : x.spells "&" = true ∧ y.spells "&" = true := by
  rcases ha with ha | ha
  · obtain ⟨s, hs, hspells, -⟩ := hfused.spells
    rw [spells_eq ha, decide_eq_true_eq] at hspells
    have hlone : ∀ s ∈ halfSpellings, "&" ≠ s ++ s := by decide
    exact absurd hspells (hlone s hs)
  · exact spells_halves ha rfl hfused.1

theorem unfused_ampersand {a : Token} (ha : a.spells "&" = true ∨ a.spells "&&" = true)
    (hfused : ¬ ∃ x y, a.IsFused x y) : a.unfused = [a] := by
  refine unfused_of_not_fused ?_ fun x y h ↦ hfused ⟨x, y, h⟩
  rcases ha with ha | ha
  · exact delimiter?_of_spells ha
  · exact delimiter?_of_spells ha

/-- Taken apart, two ampersands are a reference to a reference. -/
theorem advances_ampersand {x y : Token} (hx : x.spells "&" = true) (hy : y.spells "&" = true)
    (ts : List Token) :
    Advances (.type (x :: y :: ts)) (.part (.type (y :: ts)) (.back .prefixed [x])) :=
  @Advances.reference x [] [] (y :: ts) (.inl hx) .none .none
    (fun _ ↦ by simp [isLifetime_of_spells hy])
    (fun _ ↦ startsWith_false_of_spells hy (by decide)) (List.cons_ne_nil y ts)

/-- Two ampersands in one begin a reference to a reference. -/
theorem agrees_reference {a : Token} {ls ms : List Token}
    (ha : a.spells "&" = true ∨ a.spells "&&" = true) (hls : Maybe isLifetime ls)
    (hms : Maybe (spells "mut") ms)
    (hnoLifetime : ls = [] → startsWith (ms ++ ts) [lifetime] = false)
    (hnoMut : ms = [] → startsWith ts ["mut"] = false) (hts : ts ≠ []) :
    (Plan.part (.type ts) (.back .prefixed (a :: (ls ++ ms)))).Agrees
      (.type (a :: (ls ++ ms ++ ts))) := by
  have hls' : unfuse ls = ls := unfuse_maybe (fun _ ↦ unfused_of_isLifetime) hls
  have hms' : unfuse ms = ms := unfuse_maybe_spells (by decide) hms
  have hmarked {b : Token} (hb : b.spells "&" = true ∨ b.spells "&&" = true) :
      Advances (.type (b :: (ls ++ ms ++ unfuse ts)))
        (.part (.type (unfuse ts)) (.back .prefixed (b :: (ls ++ ms)))) := by
    refine .reference hb hls hms (fun h ↦ ?_) (fun h ↦ ?_) (mt unfuse_eq_nil_iff.mp hts)
    · have hunfuse : unfuse (ms ++ ts) = ms ++ unfuse ts := by rw [unfuse_append, hms']
      rw [← hunfuse, startsWith_unfuse_kind.1, hnoLifetime h]
    · exact startsWith_unfuse_spelling (fun h ↦ absurd h (by decide)) (hnoMut h)
  by_cases hfused : ∃ x y, a.IsFused x y
  · obtain ⟨x, y, hfused⟩ := hfused
    obtain ⟨hx, hy⟩ := spells_ampersands ha hfused
    have houter := advances_ampersand hx hy (ls ++ ms ++ unfuse ts)
    have hinner := hmarked (.inl hy)
    constructor
    · rintro f ⟨ds, r', halike, hreads⟩
      cases halike
      exact agrees_lost houter (.lost hinner hreads) (by simp [hfused.unfused_eq, hls', hms'])
    · rintro first rest r ⟨ds, r', halike, hreads⟩ ⟨ds', r'', halike', hreads'⟩
      cases halike
      cases hreads' with
      | fault h | go h | part h | lost h => cases h
      | done h =>
        cases h with
        | back =>
          obtain ⟨ds'', hboth⟩ : ∃ ds'', Reads (.type (x :: y :: (ls ++ ms ++ unfuse ts))) ds''
              (.ok ([x] ++ (y :: (ls ++ ms) ++ unfuse first), unfuse rest)) :=
            ⟨_, .part houter (.part hinner hreads (.done .back)) (.done .back)⟩
          refine ⟨ds'', _, halike', ?_⟩
          simpa [Return.kept, hfused.unfused_eq, hls', hms'] using hboth
  · have ha' := unfused_ampersand ha hfused
    exact agrees_part (hmarked ha) (by simp [ha', hls', hms']) rfl (by simp [ha', hls', hms'])

/-- A reference that breaks off is at fault in both forms. -/
theorem agrees_referenceLast {a : Token} {ls ms : List Token} {f : Fault}
    (ha : a.spells "&" = true ∨ a.spells "&&" = true) (hls : Maybe isLifetime ls)
    (hms : Maybe (spells "mut") ms) : (Plan.fault f).Agrees (.type (a :: (ls ++ ms))) := by
  have hls' : unfuse ls = ls := unfuse_maybe (fun _ ↦ unfused_of_isLifetime) hls
  have hms' : unfuse ms = ms := unfuse_maybe_spells (by decide) hms
  have hmarked {b : Token} (hb : b.spells "&" = true ∨ b.spells "&&" = true) :
      ∃ t, Advances (.type (b :: (ls ++ ms))) (.fault (.unexpected t)) := by
    obtain ⟨t, ht⟩ := exists_getLast? (List.cons_ne_nil b (ls ++ ms))
    exact ⟨t, .referenceLast hb hls hms ht⟩
  by_cases hfused : ∃ x y, a.IsFused x y
  · obtain ⟨x, y, hfused⟩ := hfused
    obtain ⟨hx, hy⟩ := spells_ampersands ha hfused
    obtain ⟨t, hinner⟩ := hmarked (.inl hy)
    exact agrees_lost (advances_ampersand hx hy (ls ++ ms)) (.fault hinner)
      (by simp [hfused.unfused_eq, hls', hms'])
  · obtain ⟨t, hinner⟩ := hmarked ha
    exact agrees_fault hinner (by simp [unfused_ampersand ha hfused, hls', hms'])

/-- A type is told by its first token in both forms, where two ampersands take one step more when
they are apart. -/
theorem agrees_type (h : Advances (.type ts) p) : p.Agrees (.type ts) := by
  cases h with
  | noType => exact agrees_fault .noType (by simp)
  | @tuple ts inner span =>
    exact agrees_part (@Advances.tuple (unfuse ts) (unfuse inner) span) (by simp) rfl (by simp)
  | @bracketed ts inner span hinner =>
    exact agrees_part (@Advances.bracketed (unfuse ts) (unfuse inner) span
      (mt unfuse_eq_nil_iff.mp hinner)) (by simp) rfl (by simp)
  | @bracketedEmpty ts span =>
    exact agrees_fault (@Advances.bracketedEmpty (unfuse ts) span) (by simp)
  | reference ha hls hms hnoLifetime hnoMut hts =>
    exact agrees_reference ha hls hms hnoLifetime hnoMut hts
  | referenceLast ha hls hms => exact agrees_referenceLast ha hls hms
  | @pointer a m ts ha hm hts =>
    have ha' := unfused_of_spells ha (by decide)
    have hm' := unfused_of_spells_or hm (by decide) (by decide)
    exact agrees_part (@Advances.pointer a m (unfuse ts) ha hm (mt unfuse_eq_nil_iff.mp hts))
      (by simp [ha', hm']) rfl (by simp [ha', hm'])
  | @pointerLast a m ha hm =>
    have ha' := unfused_of_spells ha (by decide)
    have hm' := unfused_of_spells_or hm (by decide) (by decide)
    exact agrees_fault (.pointerLast ha hm) (by simp [ha', hm'])
  | @pointerNoMark a t ts ha hconst hmut =>
    obtain ⟨x, w, hx⟩ := t.exists_leads
    have ha' := unfused_of_spells ha (by decide)
    exact agrees_fault (@Advances.pointerNoMark a x (w ++ unfuse ts) ha
      (hx.spells _ (fun h ↦ absurd h (by decide)) hconst)
      (hx.spells _ (fun h ↦ absurd h (by decide)) hmut)) (by simp [ha', hx.unfused])
  | @pointerOnly a ha =>
    exact agrees_fault (.pointerOnly ha) (by simp [unfused_of_spells ha (by decide)])
  | @lone t ts ht =>
    have ht' := unfused_of_spells_or ht (by decide) (by decide)
    exact agrees_done (@Advances.lone t (unfuse ts) ht) (by simp [ht']) (by simp [ht']) rfl
  | @fnPointer t ts ht =>
    have ht' : t.unfused = [t] := by
      rcases ht with ht | ht | ht
      · exact unfused_of_spells ht (by decide)
      · exact unfused_of_spells ht (by decide)
      · exact unfused_of_spells ht (by decide)
    exact agrees_part (@Advances.fnPointer t (unfuse ts) ht) (by simp [ht']) (by simp [ht'])
      (by simp)
  | @bounded t ts ht hts =>
    have ht' := unfused_of_spells_or ht (by decide) (by decide)
    exact agrees_part (@Advances.bounded t (unfuse ts) ht (mt unfuse_eq_nil_iff.mp hts))
      (by simp [ht']) rfl (by simp [ht'])
  | @boundedLast t ht =>
    exact agrees_fault (.boundedLast ht)
      (by simp [unfused_of_spells_or ht (by decide) (by decide)])
  | @qualified o ts ho hts =>
    have ho' := unfused_of_spells ho (by decide)
    exact agrees_part (@Advances.qualified o (unfuse ts) ho (mt unfuse_eq_nil_iff.mp hts))
      (by simp [ho']) (by simp [ho']) (by simp)
  | @qualifiedLast o ho =>
    exact agrees_fault (.qualifiedLast ho) (by simp [unfused_of_spells ho (by decide)])
  | @qualifiedFused o o₁ o₂ ts ho hcut =>
    obtain ⟨ho', h₁, h₂⟩ := unfused_of_isJoined (isJoined_iff.mpr (.inr ho)) hcut
    exact agrees_part (@Advances.qualified o₁ (o₂ :: unfuse ts) (spells_halves ho rfl hcut).1
      (List.cons_ne_nil _ _)) (by simp [ho']) (by simp [h₁, h₂]) (by simp)
  | @typePath t ts ht hstart =>
    have ht' : t.unfused = [t] := by
      rcases ht with ht | ht
      · exact unfused_of_spells ht (by decide)
      · exact unfused_of_isIdent ht
    exact agrees_part (@Advances.typePath t (unfuse ts) ht hstart) (by simp [ht']) (by simp [ht'])
      (by simp)
  | @noTypeStart t ts ht hc hstart hparen hbracket =>
    obtain ⟨x, w, hx⟩ := t.exists_leads
    refine agrees_fault (@Advances.noTypeStart x (w ++ unfuse ts) (hx.ident.trans ht)
      (hx.spells _ (fun h ↦ absurd h (by decide)) hc) (fun s hs ↦ hx.spells s ?_ (hstart s hs))
      (hx.delimiter ▸ hparen) (hx.delimiter ▸ hbracket)) (by simp [hx.unfused])
    intro hhalf
    refine hstart _ ?_
    revert s
    decide

theorem agrees_summands (h : Advances (.summands before ts) p) :
    p.Agrees (.summands before ts) := by
  cases h with
  | @plus _ ts a ha hts =>
    have ha' := unfused_of_spells ha (by decide)
    exact agrees_part (@Advances.plus (unfuse before) (unfuse ts) a ha
      (mt unfuse_eq_nil_iff.mp hts)) (by simp [ha']) rfl (by simp [ha'])
  | @plusLast _ a ha =>
    exact agrees_fault (@Advances.plusLast (unfuse before) a ha)
      (by simp [unfused_of_spells ha (by decide)])
  | noPlus h =>
    exact agrees_done (.noPlus (startsWith_unfuse_spelling (fun h ↦ absurd h (by decide)) h))
      rfl rfl rfl

theorem agrees_bounds (h : Advances (.bounds before read ts) p) :
    p.Agrees (.bounds before read ts) := by
  cases h with
  | @boundPlus _ _ ts a ha hts =>
    have ha' := unfused_of_spells ha (by decide)
    exact agrees_part (@Advances.boundPlus (unfuse before) (unfuse read) (unfuse ts) a ha
      (mt unfuse_eq_nil_iff.mp hts)) (by simp [ha']) rfl (by simp [ha'])
  | @boundPlusLast _ _ a ha =>
    exact agrees_fault (@Advances.boundPlusLast (unfuse before) (unfuse read) a ha)
      (by simp [unfused_of_spells ha (by decide)])
  | boundNoPlus h =>
    exact agrees_done (.boundNoPlus (startsWith_unfuse_spelling (fun h ↦ absurd h (by decide)) h))
      rfl (by simp) rfl

theorem agrees_bound (h : Advances (.bound ts) p) : p.Agrees (.bound ts) := by
  cases h with
  | @simpleBound t ts ht =>
    obtain ⟨u, hu, hkind⟩ : ∃ u, t.unfused = [u] ∧
        (u.isLifetime = true ∨ u.delimiter? = some .paren) := by
      rcases ht with ht | ht
      · exact ⟨t, unfused_of_isLifetime ht, .inl ht⟩
      · obtain ⟨u, hu, hparen⟩ := unfused_of_delimiter? ht
        exact ⟨u, hu, .inr hparen⟩
    exact agrees_done (@Advances.simpleBound u (unfuse ts) hkind) (by simp [hu]) (by simp [hu]) rfl
  | @maybeBound q ts hq hts =>
    have hq' := unfused_of_spells hq (by decide)
    exact agrees_part (@Advances.maybeBound q (unfuse ts) hq (mt unfuse_eq_nil_iff.mp hts))
      (by simp [hq']) rfl (by simp [hq'])
  | @maybeBoundLast q hq =>
    exact agrees_fault (.maybeBoundLast hq) (by simp [unfused_of_spells hq (by decide)])
  | @pathBound t ts ht hq =>
    have ht' : t.unfused = [t] := by
      rcases ht with ht | ht
      · exact unfused_of_spells ht (by decide)
      · exact unfused_of_isIdent ht
    exact agrees_part (@Advances.pathBound t (unfuse ts) ht hq) (by simp [ht']) (by simp [ht'])
      (by simp)
  | noBound => exact agrees_fault .noBound (by simp)
  | @noBoundStart t ts hlifetime hparen hq hc ht =>
    obtain ⟨x, w, hx⟩ := t.exists_leads
    exact agrees_fault (@Advances.noBoundStart x (w ++ unfuse ts) (hx.lifetime.trans hlifetime)
      (hx.delimiter ▸ hparen) (hx.spells _ (fun h ↦ absurd h (by decide)) hq)
      (hx.spells _ (fun h ↦ absurd h (by decide)) hc) (hx.ident.trans ht))
      (by simp [hx.unfused])

theorem agrees_arrayEnd {group behind element : List Token}
    (h : Advances (.arrayEnd group behind element ts) p) :
    p.Agrees (.arrayEnd group behind element ts) := by
  cases h with
  | arrayEnd hend =>
    refine agrees_done (.arrayEnd ?_) rfl rfl rfl
    rcases hend with rfl | ⟨hstart, hlength⟩
    · exact .inl unfuse_nil
    · obtain ⟨m, us, rfl, hm, -⟩ := exists_of_startsWith hstart
      obtain ⟨u, us, rfl⟩ := List.exists_cons_of_length_pos (Nat.lt_of_succ_lt_succ hlength)
      obtain ⟨x, w, hx⟩ := u.exists_leads
      have hfront : unfuse (m :: u :: us) = m :: x :: (w ++ unfuse us) := by
        simp [unfused_of_spells hm (by decide), hx.unfused]
      rw [hfront]
      exact .inr ⟨by simpa using hm, by simp⟩
  | @noArrayEnd _ _ _ ts t h =>
    obtain ⟨x, w, hx⟩ := t.exists_leads
    exact agrees_fault (@Advances.noArrayEnd (unfuse group) (unfuse behind) (unfuse element)
      (w ++ unfuse ts) x (hx.ends (by decide) (by decide) h)) (by simp [hx.unfused])

theorem agrees_pointer (h : Advances (.pointer before ts) p) : p.Agrees (.pointer before ts) := by
  cases h with
  | @fn _ ts inner f span hf =>
    have hf' := unfused_of_spells hf (by decide)
    exact agrees_part (@Advances.fn (unfuse before) (unfuse ts) (unfuse inner) f span hf)
      (by simp [hf']) rfl (by simp [hf'])
  | @unsafeFn _ ts t ht =>
    have ht' := unfused_of_spells ht (by decide)
    exact agrees_go (@Advances.unsafeFn (unfuse before) (unfuse ts) t ht) (by simp [ht'])
      (by simp [ht'])
  | @externFn _ ls ts t ht hls hnone =>
    have ht' := unfused_of_spells ht (by decide)
    have hls' := unfuse_maybe (fun _ ↦ unfused_of_isLiteral) hls
    exact agrees_go (@Advances.externFn (unfuse before) ls (unfuse ts) t ht hls fun h ↦ by
      rw [startsWith_unfuse_kind.2.1, hnone h]) (by simp [ht', hls']) (by simp [ht', hls'])
  | @fnNoArgs _ ts f t hf ht =>
    obtain ⟨x, w, hx⟩ := t.exists_leads
    have hf' := unfused_of_spells hf (by decide)
    exact agrees_fault (@Advances.fnNoArgs (unfuse before) (w ++ unfuse ts) f x hf
      (hx.delimiter ▸ ht)) (by simp [hf', hx.unfused])
  | pointerEmpty ht =>
    obtain ⟨u, hu⟩ := exists_getLast?_unfuse ht
    exact agrees_fault (.pointerEmpty hu) (by simp)
  | @noFn _ ts t hmark habi hfn =>
    obtain ⟨x, w, hx⟩ := t.exists_leads
    exact agrees_fault (@Advances.noFn (unfuse before) (w ++ unfuse ts) x
      (hx.spells _ (fun h ↦ absurd h (by decide)) hmark)
      (hx.spells _ (fun h ↦ absurd h (by decide)) habi) (hx.ends (by decide) (by decide) hfn))
      (by simp [hx.unfused])

/-- Behind a self type two angles in one are at fault as two are, though at another token. -/
theorem agrees_noItem {c : Call} {e : Token} {f : Fault}
    (he : e.spells ">" = true ∨ e.spells ">>" = true)
    (hitem : startsWith (e :: ts) [">", "::"] = true → ts.length = 1)
    (hc : ∀ ts' p', EndsSelf (unfuse before) ts' p' → unfuse (e :: ts) = ts' →
      Advances c.unfused p') : (Plan.fault f).Agrees c := by
  have hends {x : Token} (us : List Token) (hx : x.spells ">" = true ∨ x.spells ">>" = true)
      (hus : startsWith (x :: us) [">", "::"] = true → us.length = 1)
      (hfront : unfuse (e :: ts) = x :: us) : (Plan.fault f).Agrees c := by
    obtain ⟨u, hu⟩ := exists_getLast? (List.cons_ne_nil x (us.take 1))
    exact agrees_fault (hc _ _ (.noItem hx hus hu) hfront) rfl
  rcases he with hone | htwo
  · refine hends (unfuse ts) (.inl hone) (fun hstart ↦ ?_)
      (by simp [unfused_of_spells hone (by decide)])
    obtain ⟨-, hcolon⟩ : e.spells ">" = true ∧ startsWith (unfuse ts) ["::"] = true := by
      simpa using hstart
    obtain ⟨d, w, hw, hd, -⟩ := exists_of_startsWith hcolon
    obtain ⟨us, rfl, -⟩ := exists_of_unfuse_of_spells hw hd (by decide)
    obtain rfl : us = [] := by simpa using hitem (by simpa using ⟨hone, hd⟩)
    simp [unfused_of_spells hd (by decide)]
  · by_cases hfused : ∃ x y, e.IsFused x y
    · obtain ⟨x, y, hfused⟩ := hfused
      obtain ⟨hx, hy⟩ : x.spells ">" = true ∧ y.spells ">" = true := spells_halves htwo rfl hfused.1
      refine hends (y :: unfuse ts) (.inl hx) (fun hstart ↦ ?_) (by simp [hfused.unfused_eq])
      rw [startsWith_cons, startsWith_false_of_spells hy (by decide), Bool.and_false] at hstart
      cases hstart
    · refine hends (unfuse ts) (.inr htwo) (fun hstart ↦ ?_)
        (by simp [unfused_of_not_fused (delimiter?_of_spells htwo) fun x y h ↦ hfused ⟨x, y, h⟩])
      rw [startsWith_cons, holds_spelling, spells_eq htwo] at hstart
      cases hstart

theorem agrees_endsSelf {c : Call} (h : EndsSelf before ts p)
    (hc : ∀ ts' p', EndsSelf (unfuse before) ts' p' → unfuse ts = ts' → Advances c.unfused p') :
    p.Agrees c := by
  cases h with
  | @item e d t ts he hd ht =>
    have he' := unfused_of_spells he (by decide)
    have hd' := unfused_of_spells hd (by decide)
    have ht' := unfused_of_isIdent ht
    exact agrees_go (hc _ _ (@EndsSelf.item (unfuse before) e d t (unfuse ts) he hd ht)
      (by simp [he', hd', ht'])) rfl (by simp [he', hd', ht'])
  | @noIdent e d t ts he hd ht =>
    obtain ⟨x, w, hx⟩ := t.exists_leads
    have he' := unfused_of_spells he (by decide)
    have hd' := unfused_of_spells hd (by decide)
    exact agrees_fault (hc _ _ (@EndsSelf.noIdent (unfuse before) e d x (w ++ unfuse ts) he hd
      (hx.ident.trans ht)) (by simp [he', hd', hx.unfused])) rfl
  | noItem he hitem => exact agrees_noItem he hitem hc
  | unclosed ht =>
    obtain ⟨u, hu⟩ := exists_getLast?_unfuse ht
    exact agrees_fault (hc _ _ (.unclosed hu) unfuse_nil) rfl
  | @noAngle t ts hone htwo =>
    obtain ⟨x, w, hx⟩ := t.exists_leads
    exact agrees_fault (hc _ _ (@EndsSelf.noAngle (unfuse before) x (w ++ unfuse ts)
      (hx.spells _ (fun _ ↦ htwo) hone) (hx.spells _ (fun h ↦ absurd h (by decide)) htwo))
      (by simp [hx.unfused])) rfl

theorem agrees_afterSelf (h : Advances (.afterSelf before read ts) p) :
    p.Agrees (.afterSelf before read ts) := by
  cases h with
  | @asPath _ _ ts a ha hts =>
    have ha' := unfused_of_spells ha (by decide)
    exact agrees_part (@Advances.asPath (unfuse before) (unfuse read) (unfuse ts) a ha
      (mt unfuse_eq_nil_iff.mp hts)) (by simp [ha']) rfl (by simp [ha'])
  | noAs has hend =>
    refine agrees_endsSelf hend fun ts' p' hend' hts ↦ ?_
    rw [unfuse_append] at hend'
    rw [Call.unfused, hts]
    refine .noAs (fun hstart ↦ ?_) hend'
    obtain ⟨a, w, hw, ha, -⟩ := exists_of_startsWith hstart
    obtain ⟨us, rfl, -⟩ := exists_of_unfuse_of_spells (hts.trans hw) ha (by decide)
    obtain rfl : us = [] := by simpa using has (by simpa using ha)
    simp [← hts, unfused_of_spells ha (by decide)]

theorem agrees_selfEnd (h : Advances (.selfEnd before read ts) p) :
    p.Agrees (.selfEnd before read ts) := by
  cases h with
  | selfEnd hend =>
    refine agrees_endsSelf hend fun ts' p' hend' hts ↦ ?_
    rw [unfuse_append] at hend'
    rw [Call.unfused, hts]
    exact .selfEnd hend'

/-- Whatever step a call takes, on tokens taken apart it comes to the same. -/
theorem agrees_of_advances {c : Call} (h : Advances c p) : p.Agrees c := by
  cases c with
  | path => exact agrees_path h
  | tail => exact agrees_tail h
  | after => exact agrees_after h
  | more => exact agrees_more h
  | param => exact agrees_param h
  | arrow => exact agrees_arrow h
  | list => exact agrees_list h
  | separator => exact agrees_separator h
  | type => exact agrees_type h
  | summed ts =>
    cases h with
    | summed => exact agrees_part .summed rfl rfl fun _ _ ↦ rfl
  | summands => exact agrees_summands h
  | summand before bound ts =>
    cases h with
    | summand =>
      exact agrees_go (@Advances.summand (unfuse before) (unfuse bound) (unfuse ts)) rfl (by simp)
  | bounds => exact agrees_bounds h
  | bound => exact agrees_bound h
  | arrayEnd => exact agrees_arrayEnd h
  | pointer => exact agrees_pointer h
  | self angle ts =>
    cases h with
    | self => exact agrees_part (@Advances.self (unfuse angle) (unfuse ts)) rfl rfl fun _ _ ↦ rfl
  | afterSelf => exact agrees_afterSelf h
  | selfEnd => exact agrees_selfEnd h
  | back r before read ts =>
    cases h with
    | back =>
      refine agrees_done (@Advances.back r (unfuse before) (unfuse read) (unfuse ts)) rfl ?_ rfl
      cases r <;> simp [Return.kept]

end

/-- A call comes to the same on tokens that were taken apart. -/
theorem Reads.agrees {c : Call} {ds : List Nat} {r : Parsed} (h : Reads c ds r) : c.Agrees r := by
  induction h with
  | fault h => exact agrees_of_advances h
  | done h => exact agrees_of_advances h
  | go h hgo ih => exact agrees_of_advances h _ _ hgo ih
  | part h _ _ ihpart ihnext => exact (agrees_of_advances h).2 _ _ _ ihpart ihnext
  | lost h _ ih => exact (agrees_of_advances h).1 _ ih

end Grammar

/-! ### Entries -/

open Grammar Machine

variable {σ : Type} {file source : String}

/-- What an entry reads of a sequence that was taken apart is what it reads of the sequence itself,
taken apart: it gives a value for both or for neither, and the outputs for the one are the outputs
for the other with every joined token taken apart. This is so unless a limit is reached, and limits
that are high enough are not. -/
theorem entries_read_unfused_alike (hlex : lex file source = .ok ts)
    (more : List (Callee × Handler σ)) (e : Entry) :
    (∀ returnsTo last, returnsTo.LeadsTo (Registry.standardAnd more) last →
      (Registry.standardAnd more).handler last = Destinations.capture → ∀ limits limits' w w',
      Unlimited (e.result more limits ts returnsTo w) →
      Unlimited (e.result more limits' (unfuse ts) returnsTo w') →
        ((∃ value, e.result more limits ts returnsTo w = .ok value) ↔
          ∃ value, e.result more limits' (unfuse ts) returnsTo w' = .ok value) ∧
        ∀ value value', e.result more limits ts returnsTo w = .ok value →
          e.result more limits' (unfuse ts) returnsTo w' = .ok value' → ∃ first rest,
            value = .outputs (e.outputs first rest) ∧
            value' = .outputs (e.outputs (unfuse first) (unfuse rest))) ∧
    ∃ n : Nat, ∀ limits : Limits, n ≤ limits.recursion → n ≤ limits.steps →
      ∀ returnsTo last, returnsTo.LeadsTo (Registry.standardAnd more) last →
        (Registry.standardAnd more).handler last = Destinations.capture → ∀ w,
        Unlimited (e.result more limits ts returnsTo w) ∧
          Unlimited (e.result more limits (unfuse ts) returnsTo w) := by
  obtain ⟨ds, r, hreads⟩ := exists_reads_of_lex hlex e
  obtain ⟨ds', r', halike, hreads'⟩ := hreads.agrees
  have hcall : (e.call ts).unfused = e.call (unfuse ts) := by cases e <;> rfl
  rw [hcall] at hreads'
  constructor
  · intro returnsTo last hleads hkeeps limits limits' w w' hlimits hlimits'
    rw [result_of_unlimited hreads hleads (.capture hkeeps) hlimits,
      result_of_unlimited hreads' hleads (.capture hkeeps) hlimits']
    cases halike with
    | fault f f' => exact ⟨⟨nofun, nofun⟩, nofun⟩
    | ok first rest =>
      rw [returned_entry, returned_entry]
      refine ⟨⟨fun _ ↦ ⟨_, rfl⟩, fun _ ↦ ⟨_, rfl⟩⟩, fun value value' hvalue hvalue' ↦ ?_⟩
      cases hvalue
      cases hvalue'
      exact ⟨first, rest, rfl, rfl⟩
  · obtain ⟨n, hn⟩ := exists_fits (runDepths ds r)
    obtain ⟨n', hn'⟩ := exists_fits (runDepths ds' r')
    refine ⟨max n n', fun limits hrecursion hsteps returnsTo last hleads hkeeps w ↦ ⟨?_, ?_⟩⟩
    · exact unlimited_of_fits hreads hleads (.capture hkeeps)
        (hn limits (by omega) (by omega))
    · exact unlimited_of_fits hreads' hleads (.capture hkeeps)
        (hn' limits (by omega) (by omega))

def keptReferences (ts : List Token) : Except Failure Value :=
  Entry.type.result [(keeping, Destinations.capture)] ⟨128, 100⟩ ts (.callee (.callee keeping))
    (.initial ())

/-- Two ampersands and two closing angles in one each, and the same apart. -/
theorem entries_read_unfused_alike_references :
    lex "<input>" "&&A<B<C>>" = .ok fusedReferences ∧ Unlimited (keptReferences fusedReferences) ∧
    Unlimited (keptReferences (unfuse fusedReferences)) ∧ ∃ first rest,
      keptReferences fusedReferences = .ok (.outputs (Entry.type.outputs first rest)) ∧
      keptReferences (unfuse fusedReferences) =
        .ok (.outputs (Entry.type.outputs (unfuse first) (unfuse rest))) := by
  have hlex : lex "<input>" "&&A<B<C>>" = .ok fusedReferences := rfl
  have hok : (keptReferences fusedReferences).isOk = true := by decide +kernel
  have hok' : (keptReferences (unfuse fusedReferences)).isOk = true := by decide +kernel
  have hvalues {r : Except Failure Value} (hr : r.isOk = true) : ∃ value, r = .ok value := by
    cases r with
    | error f => cases hr
    | ok value => exact ⟨value, rfl⟩
  obtain ⟨value, hvalue⟩ := hvalues hok
  obtain ⟨value', hvalue'⟩ := hvalues hok'
  have hlimits : Unlimited (keptReferences fusedReferences) := hvalue ▸ nofun
  have hlimits' : Unlimited (keptReferences (unfuse fusedReferences)) := hvalue' ▸ nofun
  have hall := entries_read_unfused_alike (σ := Unit) hlex [(keeping, Destinations.capture)] .type
  obtain ⟨-, hparts⟩ := hall.1 (.callee (.callee keeping)) keeping (.callee rfl) rfl ⟨128, 100⟩
    ⟨128, 100⟩ (.initial ()) (.initial ()) hlimits hlimits'
  obtain ⟨first, rest, rfl, rfl⟩ := hparts _ _ hvalue hvalue'
  exact ⟨hlex, hlimits, hlimits', first, rest, hvalue, hvalue'⟩

end Expander
