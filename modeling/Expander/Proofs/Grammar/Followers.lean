import Expander.Proofs.Grammar.Locality

/-!
# What follows a parameter

A call that leaves a closing angle takes the same steps if a comma stands there, or another closing
angle, with anything behind it (`Reads.trades`). The rules look ahead for what a call could go on
with, and neither of the two marks is that: a test either fits tokens that the call takes, or fails
on both. So the call gives back the same by steps of the same depths, and leaves the other mark.

That the angle is left, and not taken, is what bounds the calls in between: each has the angle and
what is behind it still ahead, since nothing is put back (`Takes.exists_append`).
-/

set_option autoImplicit false

namespace Expander

open Token

/-! ### Marks in place of a closing angle -/

/-- A sequence that begins with a closing angle, and one that begins with a closing angle or with a
comma. -/
inductive Trade : List Token → List Token → Prop
  | marks {g m : Token} {us vs : List Token} (hg : g.isPunct ">" = true)
      (hm : m.isPunct ">" = true ∨ m.isPunct "," = true) : Trade (g :: us) (m :: vs)

/-- A pattern that fits neither a closing angle nor a comma. -/
def Pattern.Foreign (p : Pattern) : Prop :=
  ∀ t : Token, t.isPunct ">" = true ∨ t.isPunct "," = true → p.holds t = false

section

variable {t : Token} {p : Pattern} {ps : List Pattern} {s : String}
  {ts x y z z' taken rest : List Token}

/-- Spellings other than those of the two marks say nothing of either. -/
theorem foreign_spelling (hs : s ∉ [">", ","]) : (Pattern.spelling s).Foreign := by
  intro t ht
  rw [List.mem_cons, List.mem_singleton, not_or] at hs
  rcases ht with ht | ht
  · obtain ⟨span, rfl⟩ := exists_of_isPunct ht
    simpa [spells] using Ne.symm hs.1
  · obtain ⟨span, rfl⟩ := exists_of_isPunct ht
    simpa [spells] using Ne.symm hs.2

theorem foreign_kind {k : LeafKind} (hk : k ≠ .punct) : (Pattern.kind k).Foreign := by
  intro t ht
  rcases ht with ht | ht <;>
  · obtain ⟨span, rfl⟩ := exists_of_isPunct ht
    simpa [Pattern.holds, isKind] using hk.symm

theorem foreign_group {d : Delimiter} : (Pattern.group d).Foreign := by
  intro t ht
  rcases ht with ht | ht <;>
  · obtain ⟨span, rfl⟩ := exists_of_isPunct ht
    rfl

/-- There is a mark on both sides. -/
theorem Trade.ne_nil (h : Trade z z') : z ≠ [] ∧ z' ≠ [] := by
  cases h
  exact ⟨List.cons_ne_nil _ _, List.cons_ne_nil _ _⟩

/-- Foreign patterns that fit with one of the marks behind some tokens fit these tokens. -/
theorem startsWith_left (hps : ∀ p ∈ ps, p.Foreign) {m : Token}
    (hm : m.isPunct ">" = true ∨ m.isPunct "," = true) :
    startsWith (x ++ m :: ts) ps = startsWith x ps := by
  induction ps generalizing x with
  | nil => simp
  | cons p ps ih =>
    rw [List.forall_mem_cons] at hps
    cases x with
    | nil => simp [hps.1 m hm]
    | cons t x => simp [ih hps.2]

/-- Patterns that are foreign to the marks are found in front of the one if and only if they are in
front of the other. -/
theorem Trade.startsWith_eq (h : Trade z z') (hps : ∀ p ∈ ps, p.Foreign) :
    startsWith (x ++ z') ps = startsWith (x ++ z) ps := by
  obtain ⟨hg, hm⟩ := h
  rw [startsWith_left hps hm, startsWith_left hps (.inl hg)]

/-- A sequence that only fits foreign patterns if it ends with them does not fit them. -/
theorem Trade.ends (h : Trade z z') (hps : ∀ p ∈ ps, p.Foreign)
    (hends : startsWith (x ++ z) ps = true → (x ++ z).length = ps.length) :
    startsWith (x ++ z') ps = true → (x ++ z').length = ps.length := by
  intro hstart
  obtain ⟨hg, hm⟩ := h
  rw [startsWith_left hps hm] at hstart
  rw [startsWith_left hps (.inl hg), List.length_append, List.length_cons] at hends
  have hlength := hends hstart
  have hle := length_le_of_startsWith hstart
  omega

/-- A foreign pattern that does not fit a sequence does not fit it in front of another mark. -/
theorem Trade.lacks (h : Trade z z') (hp : p.Foreign) (hnone : startsWith (x ++ z) [p] = false) :
    startsWith (x ++ z') [p] = false :=
  (h.startsWith_eq (List.forall_mem_singleton.mpr hp)).trans hnone

/-- A pattern is tested on the first token alone, if there is one in front of the mark. -/
theorem startsWith_of_ne_nil (hx : x ≠ []) (h : startsWith (x ++ z) [p] = false) :
    startsWith (x ++ z') [p] = false := by
  obtain ⟨t, x, rfl⟩ := List.exists_cons_of_ne_nil hx
  simpa using h

theorem foreign_pair {q : Pattern} (hp : p.Foreign) (hq : q.Foreign) : ∀ r ∈ [p, q], r.Foreign :=
  List.forall_mem_cons.mpr ⟨hp, List.forall_mem_singleton.mpr hq⟩

/-- What is left is no longer than what was there, since half a token counts as one. -/
theorem Takes.length_le (h : Takes ts taken rest) : rest.length ≤ ts.length := by
  induction h with
  | nil => exact Nat.le_refl _
  | keep _ ih | cut _ _ _ ih =>
    rw [List.length_cons]
    omega
  | half => rw [List.length_cons, List.length_cons]

/-- Where something is left of a sequence that ends with a closing angle and what is behind it, no
less than that, it was not taken from. -/
theorem Takes.exists_append (h : Takes ts taken rest) (hz : startsWith z [">"] = true)
    (hts : ts = x ++ z) (hlength : z.length ≤ rest.length) :
    ∃ y, rest = y ++ z ∧ (taken ≠ [] → x ≠ []) := by
  have hshort : ∀ {t : Token} {ts taken rest : List Token}, Takes ts taken rest →
      t :: ts = [] ++ z → ¬ z.length ≤ rest.length := by
    rintro t ts taken rest h rfl
    have := h.length_le
    rw [List.length_cons]
    omega
  induction h generalizing x with
  | nil => exact ⟨x, hts, fun h ↦ absurd rfl h⟩
  | keep h ih | cut _ _ h ih =>
    cases x with
    | nil => exact absurd hlength (hshort h hts)
    | cons t x =>
      obtain ⟨y, hrest, -⟩ := ih (List.cons.inj hts).2 hlength
      exact ⟨y, hrest, fun _ ↦ List.cons_ne_nil _ _⟩
  | half ht =>
    cases x with
    | nil =>
      rw [List.nil_append] at hts
      subst hts
      simp [Token.spells_eq ht] at hz
    | cons t x =>
      obtain ⟨rfl, rfl⟩ := List.cons.inj hts
      exact ⟨_ :: x, rfl, fun _ ↦ List.cons_ne_nil _ _⟩

theorem Trade.startsWith_angle (h : Trade z z') : startsWith z [">"] = true := by
  obtain ⟨hg, -⟩ := h
  simp [spells_of_isPunct hg]

/-- What is behind some tokens of a sequence that ends with another one. -/
theorem exists_append_of_length {front ts : List Token} (h : front ++ ts = x ++ z)
    (hlength : z.length ≤ ts.length) : ∃ x', ts = x' ++ z ∧ x = front ++ x' := by
  have hsuffix : z <:+ ts := by
    have hend : z <:+ front ++ ts := h ▸ List.suffix_append x z
    exact List.suffix_of_suffix_length_le hend (List.suffix_append front ts) hlength
  obtain ⟨x', rfl⟩ := hsuffix
  rw [← List.append_assoc] at h
  exact ⟨x', rfl, (List.append_cancel_right h).symm⟩

end

namespace Grammar

/-! ### Calls in front of a mark -/

/-- A call that leaves a closing angle takes the same steps in front of another mark. -/
def Call.Trades (c : Call) (ds : List Nat) (first rest : List Token) : Prop :=
  ∀ x y z z', Trade z z' → c.ahead = x ++ z → rest = y ++ z →
    Reads (c.onto (x ++ z')) ds (.ok (first, y ++ z'))

/-- What a step leads to trades a mark, and then so does the call. -/
def Plan.Trades (c : Call) : Plan → Prop
  | .fault _ => True
  | .done first rest => c.Trades [0] first rest
  | .go c' => ∀ ds first rest, Reads c' ds (.ok (first, rest)) → c'.Trades ds first rest →
      c.Trades (0 :: ds) first rest
  | .part c' next => ∀ ds first rest ds' first' rest', Reads c' ds (.ok (first, rest)) →
      (c'.Looks ∨ c'.Trades ds first rest) → Reads (next first rest) ds' (.ok (first', rest')) →
        (next first rest).Trades ds' first' rest' →
          c.Trades ((if c.waiting.isEmpty then [0] else []) ++ (ds.map (· + 1) ++ ds'))
            first' rest'

section

variable {c c' : Call} {next : List Token → List Token → Call} {first rest front : List Token}
  {ds : List Nat} {p : Plan}

/-- What waits behind a call does not depend on its tokens. -/
theorem waiting_onto (c : Call) (ts : List Token) : (c.onto ts).waiting = c.waiting := by
  cases c <;> rfl

/-- What a call leaves is no more than it has ahead. -/
theorem Reads.length_rest_le (h : Reads c ds (.ok (first, rest))) (hlooks : ¬ c.Looks) :
    rest.length ≤ c.ahead.length := by
  obtain ⟨taken, -, htakes, -⟩ := h.conserves hlooks rfl
  exact htakes.length_le

/-! ### Ways to go on -/

/-- The call is at its end behind some tokens. -/
theorem trades_done (taken : List Token) (hahead : c.ahead = taken ++ rest)
    (h : ∀ y z z', Trade z z' → rest = y ++ z →
      Advances (c.onto (taken ++ (y ++ z'))) (.done first (y ++ z'))) :
    (Plan.done first rest).Trades c := by
  intro x y z z' hz hx hy
  obtain rfl : x = taken ++ y := by
    rw [hahead, hy, ← List.append_assoc] at hx
    exact (List.append_cancel_right hx).symm
  rw [List.append_assoc]
  exact .done (h y z z' hz hy)

/-- The call is at its end behind the first half of two closing angles. -/
theorem trades_half (front : List Token) {e e₂ : Token} {ts : List Token}
    (he : e.spells ">>" = true) (hahead : c.ahead = front ++ e :: ts)
    (h : ∀ us, Advances (c.onto (front ++ e :: us)) (.done first (e₂ :: us))) :
    (Plan.done first (e₂ :: ts)).Trades c := by
  intro x y z z' hz hx hy
  cases y with
  | nil =>
    rw [List.nil_append] at hy
    subst hy
    have hlast : x ++ [e₂] = front ++ [e] := by
      rw [hahead, ← List.singleton_append, ← List.append_assoc, ← List.singleton_append (l := ts),
        ← List.append_assoc] at hx
      exact (List.append_cancel_right hx).symm
    obtain ⟨-, heq⟩ := List.append_inj' hlast rfl
    obtain rfl := List.singleton_inj.mp heq
    have hangle := hz.startsWith_angle
    simp [Token.spells_eq he] at hangle
  | cons u y =>
    rw [List.cons_append] at hy
    obtain ⟨rfl, rfl⟩ := List.cons.inj hy
    obtain rfl : x = front ++ e :: y := by
      rw [hahead, ← List.cons_append, ← List.append_assoc] at hx
      exact (List.append_cancel_right hx).symm
    rw [List.append_assoc]
    exact .done (h (y ++ z'))

/-- Some tokens ahead are taken as they are. -/
theorem trades_go (front : List Token) (hlooks : ¬ c'.Looks) (hahead : c.ahead = front ++ c'.ahead)
    (h : ∀ x z z', Trade z z' → c'.ahead = x ++ z →
      Advances (c.onto (front ++ (x ++ z'))) (.go (c'.onto (x ++ z')))) :
    (Plan.go c').Trades c := by
  intro ds first rest hreads htrades x y z z' hz hx hy
  have hle := hreads.length_rest_le hlooks
  rw [hahead] at hx
  rw [hy, List.length_append] at hle
  obtain ⟨x', hx', rfl⟩ := exists_append_of_length hx (by omega)
  rw [List.append_assoc]
  exact .go (h x' z z' hz hx') (htrades x' y z z' hz hx' hy)

/-- Behind some tokens there is a part. -/
theorem trades_part (front : List Token) (hlooks : ¬ c'.Looks)
    (hahead : c.ahead = front ++ c'.before ++ c'.ahead)
    (hnext : ∀ first rest, ¬ (next first rest).Looks ∧ (next first rest).ahead = rest ∧
      ∀ ts, (next first rest).onto ts = next first ts)
    (h : ∀ x z z', Trade z z' → c'.ahead = x ++ z → (c'.Consumes → x ≠ []) →
      Advances (c.onto (front ++ c'.before ++ (x ++ z'))) (.part (c'.onto (x ++ z')) next)) :
    (Plan.part c' next).Trades c := by
  intro ds first rest ds' first' rest' hpart hpartTrades hreads htrades x y z z' hz hx hy
  obtain ⟨hnextLooks, hnextAhead, honto⟩ := hnext first rest
  obtain ⟨taken, -, htakes, hne⟩ := hpart.conserves hlooks rfl
  have hle := hreads.length_rest_le hnextLooks
  rw [hnextAhead, hy, List.length_append] at hle
  rw [hahead] at hx
  obtain ⟨x', hx', rfl⟩ :=
    exists_append_of_length hx (Nat.le_trans (by omega) htakes.length_le)
  obtain ⟨y', rfl, hx''⟩ := htakes.exists_append hz.startsWith_angle hx' (by omega)
  have hreads₁ := hpartTrades.resolve_left hlooks x' y' z z' hz hx' rfl
  have hreads₂ := htrades y' y z z' hz hnextAhead hy
  rw [honto] at hreads₂
  rw [List.append_assoc, ← waiting_onto c (front ++ c'.before ++ (x' ++ z'))]
  exact .part (h x' z z' hz hx' fun hc ↦ hx'' (hne hc)) hreads₁ hreads₂

/-- Behind some tokens two opening angles are cut, and a part takes the second. -/
theorem trades_cut (front : List Token) {o o₂ : Token} {ts : List Token} (hlooks : ¬ c'.Looks)
    (ho : o.spells "<<" = true) (hahead : c.ahead = front ++ o :: ts)
    (hahead' : c'.ahead = o₂ :: ts)
    (hnext : ∀ first rest, ¬ (next first rest).Looks ∧ (next first rest).ahead = rest ∧
      ∀ ts, (next first rest).onto ts = next first ts)
    (h : ∀ us, us ≠ [] → Advances (c.onto (front ++ o :: us)) (.part (c'.onto (o₂ :: us)) next)) :
    (Plan.part c' next).Trades c := by
  intro ds first rest ds' first' rest' hpart hpartTrades hreads htrades x y z z' hz hx hy
  obtain ⟨hnextLooks, hnextAhead, honto⟩ := hnext first rest
  obtain ⟨taken, -, htakes, hne⟩ := hpart.conserves hlooks rfl
  have hle := hreads.length_rest_le hnextLooks
  rw [hnextAhead, hy, List.length_append] at hle
  rw [hahead] at hx
  -- The angle that is left is none of the two that are cut.
  have hlength : z.length ≤ ts.length := by
    by_contra hlong
    have hall := htakes.length_le
    rw [hahead', List.length_cons] at hall
    obtain ⟨x', hx', rfl⟩ := exists_append_of_length hx (by rw [List.length_cons]; omega)
    obtain rfl : x' = [] := by
      have hlengths := congrArg List.length hx'
      rw [List.length_append, List.length_cons] at hlengths
      exact List.length_eq_zero_iff.mp (by omega)
    rw [List.nil_append] at hx'
    have hangle := hz.startsWith_angle
    rw [← hx'] at hangle
    simp [Token.spells_eq ho] at hangle
  obtain ⟨x', rfl, hx'⟩ : ∃ x', ts = x' ++ z ∧ x = front ++ [o] ++ x' :=
    exists_append_of_length (by simpa using hx) hlength
  have hahead'' : c'.ahead = (o₂ :: x') ++ z := hahead'
  obtain ⟨y', rfl, -⟩ := htakes.exists_append hz.startsWith_angle hahead'' (by omega)
  have hreads₁ := hpartTrades.resolve_left hlooks (o₂ :: x') y' z z' hz hahead'' rfl
  have hreads₂ := htrades y' y z z' hz hnextAhead hy
  rw [honto] at hreads₂
  have hadvances := h (x' ++ z') (by simp [hz.ne_nil.2])
  rw [← waiting_onto c (x ++ z'), hx']
  simp only [List.append_assoc, List.singleton_append]
  exact .part hadvances hreads₁ hreads₂

/-- A part reads the tokens of a group, and what follows goes on behind the group. -/
theorem trades_group (front : List Token)
    (hnext : ∀ first rest, ¬ (next first rest).Looks ∧ c.ahead = front ++ (next first rest).ahead)
    (h : ∀ us, Advances (c.onto (front ++ us))
      (.part c' fun first rest ↦ (next first rest).onto us)) :
    (Plan.part c' next).Trades c := by
  intro ds first rest ds' first' rest' hpart _ hreads htrades x y z z' hz hx hy
  obtain ⟨hlooks, hahead⟩ := hnext first rest
  have hle := hreads.length_rest_le hlooks
  rw [hahead] at hx
  rw [hy, List.length_append] at hle
  obtain ⟨x', hx', rfl⟩ := exists_append_of_length hx (by omega)
  rw [List.append_assoc, ← waiting_onto c (front ++ (x' ++ z'))]
  exact .part (h (x' ++ z')) hpart (htrades x' y z z' hz hx' hy)

/-! ### Steps -/

section

variable {before read ts : List Token}

/-- A path takes its step in front of another mark as well. So it is shown below for the other
calls. -/
theorem trades_path (h : Advances (.path ts) p) : p.Trades (.path ts) := by
  cases h with
  | @rooted d t ts hd ht =>
    exact trades_part [d, t] id rfl (fun _ _ ↦ ⟨id, rfl, fun _ ↦ rfl⟩) fun _ _ _ _ _ _ ↦
      .rooted hd ht
  | @plain t ts ht hd =>
    exact trades_part [t] id rfl (fun _ _ ↦ ⟨id, rfl, fun _ ↦ rfl⟩) fun _ _ _ _ _ _ ↦ .plain ht hd
  | _ => trivial

/-- No rule of what follows an identifier looks for a comma or for a closing angle, except behind an
angle that opens. -/
theorem trades_tail (h : Advances (.tail before ts) p) : p.Trades (.tail before ts) := by
  cases h with
  | @empty _ cs ts o e hcs ho he =>
    refine trades_go (cs ++ [o, e]) id (by simp [Call.ahead, Call.input]) fun _ _ _ _ _ ↦ ?_
    simpa using Advances.empty hcs ho he
  | @emptyFused _ cs ts o e e₁ e₂ hcs ho he hcut =>
    refine trades_half (cs ++ [o]) he (by simp [Call.ahead, Call.input]) fun us ↦ ?_
    simpa using Advances.emptyFused hcs ho he hcut
  | @opening _ cs ts o hcs ho hts hone htwo =>
    refine trades_part (cs ++ [o]) id (by simp [Call.ahead, Call.input, Call.before])
      (fun _ _ ↦ ⟨id, rfl, fun _ ↦ rfl⟩) fun x z z' hz hx hne ↦ ?_
    have hx' : ts = x ++ z := hx
    subst hx'
    have hstep : Advances (.tail before (cs ++ o :: (x ++ z'))) _ :=
      .opening hcs ho (by simp [hz.ne_nil.2]) (startsWith_of_ne_nil (hne trivial) hone)
        (startsWith_of_ne_nil (hne trivial) htwo)
    simpa [Call.before] using hstep
  | @openingFused _ cs ts o o₁ o₂ hcs ho hcut =>
    exact trades_cut cs id ho rfl rfl (fun _ _ ↦ ⟨id, rfl, fun _ ↦ rfl⟩) fun us hus ↦
      .openingFused hcs ho hcut (.inr hus)
  | @fnArgs _ ts inner span =>
    exact trades_group [.group .paren span inner] (fun _ _ ↦ ⟨id, rfl⟩) fun us ↦ .fnArgs
  | noArgs hone htwo hparen hturbo hturboFused =>
    have hcolons : (Pattern.spelling "::").Foreign := foreign_spelling (by decide)
    have hopen : (Pattern.spelling "<").Foreign := foreign_spelling (by decide)
    have hopens : (Pattern.spelling "<<").Foreign := foreign_spelling (by decide)
    refine trades_go [] id rfl fun x z z' hz hx ↦ ?_
    have hx' : ts = x ++ z := hx
    subst hx'
    exact .noArgs (hz.lacks hopen hone) (hz.lacks hopens htwo) (hz.lacks foreign_group hparen)
      (hz.ends (foreign_pair hcolons hopen) hturbo)
      (hz.ends (foreign_pair hcolons hopens) hturboFused)
  | openingLast => trivial

theorem trades_after (h : Advances (.after before ts) p) : p.Trades (.after before ts) := by
  cases h with
  | @segment _ ts d t hd ht => exact trades_go [d, t] id rfl fun _ _ _ _ _ ↦ .segment hd ht
  | pathEnd hend =>
    refine trades_done [] rfl fun y z z' hz hy ↦ .pathEnd ?_
    subst hy
    exact hz.ends (List.forall_mem_singleton.mpr (foreign_spelling (by decide))) hend
  | segmentNoIdent => trivial

/-- A list of parameters looks for the marks itself, but those that it takes are its own: the one
that is changed stands in what is left. -/
theorem trades_more (h : Advances (.more before read ts) p) : p.Trades (.more before read ts) := by
  cases h with
  | @close _ _ ms ts e hms he =>
    refine trades_go (ms ++ [e]) id (by simp [Call.ahead, Call.input]) fun _ _ _ _ _ ↦ ?_
    simpa using Advances.close hms he
  | @closeFused _ _ ms ts e e₁ e₂ hms he hcut =>
    exact trades_half ms he rfl fun us ↦ .closeFused hms he hcut
  | @comma _ _ ts m hm hts hone htwo =>
    refine trades_part [m] id rfl (fun _ _ ↦ ⟨id, rfl, fun _ ↦ rfl⟩) fun x z z' hz hx hne ↦ ?_
    have hx' : ts = x ++ z := hx
    subst hx'
    have hstep : ∀ s, startsWith (x ++ z) [.spelling s] = false →
        startsWith (x ++ z') [.spelling s] = false := fun _ ↦ startsWith_of_ne_nil (hne trivial)
    exact .comma hm (by simp [hz.ne_nil.2]) (hstep _ hone) (hstep _ htwo)
  | _ => trivial

theorem trades_param (h : Advances (.param ts) p) : p.Trades (.param ts) := by
  cases h with
  | @single ts t ht => exact trades_done [t] rfl fun _ _ _ _ _ ↦ .single ht
  | @negative ts m l hm hl => exact trades_done [m, l] rfl fun _ _ _ _ _ ↦ .negative hm hl
  | @binding ts t e ht he =>
    exact trades_part [t, e] id rfl (fun _ _ ↦ ⟨id, rfl, fun _ ↦ rfl⟩) fun _ _ _ hz _ _ ↦
      .binding ht he (by simp [hz.ne_nil.2])
  | @typeParam ts t hlifetime hliteral hbrace hbinding hnegative =>
    refine trades_part [] id rfl (fun _ _ ↦ ⟨id, rfl, fun _ ↦ rfl⟩) fun x z z' hz hx hne ↦ ?_
    obtain ⟨u, x, rfl⟩ := List.exists_cons_of_ne_nil (hne trivial)
    obtain ⟨rfl, rfl⟩ : t = u ∧ ts = x ++ z := List.cons.inj hx
    have hname : startsWith (t :: x ++ z') [ident, "="] = true → (t :: x ++ z').length = 2 :=
      hz.ends (foreign_pair (foreign_kind (by decide)) (foreign_spelling (by decide)))
        fun h ↦ congrArg (· + 1) (hbinding h)
    have hsign : startsWith (t :: x ++ z') ["-", literal] = startsWith (t :: x ++ z) ["-", literal] :=
      hz.startsWith_eq (foreign_pair (foreign_spelling (by decide)) (foreign_kind (by decide)))
    exact .typeParam hlifetime hliteral hbrace (fun h ↦ Nat.succ.inj (hname h))
      (hsign.trans hnegative)
  | noParam => trivial

theorem trades_arrow (h : Advances (.arrow before ts) p) : p.Trades (.arrow before ts) := by
  cases h with
  | @arrow _ ts a ha =>
    exact trades_part [a] id rfl (fun _ _ ↦ ⟨id, rfl, fun _ ↦ rfl⟩) fun _ _ _ hz _ _ ↦
      .arrow ha (by simp [hz.ne_nil.2])
  | noArrow hnone =>
    refine trades_done [] rfl fun y z z' hz hy ↦ .noArrow ?_
    subst hy
    exact hz.lacks (foreign_spelling (by decide)) hnone
  | arrowLast => trivial

theorem trades_type (h : Advances (.type ts) p) : p.Trades (.type ts) := by
  cases h with
  | @tuple ts inner span =>
    exact trades_group [.group .paren span inner] (fun _ _ ↦ ⟨id, rfl⟩) fun us ↦ .tuple
  | @bracketed ts inner span hinner =>
    exact trades_group [.group .bracket span inner] (fun _ _ ↦ ⟨id, rfl⟩) fun us ↦
      .bracketed hinner
  | @reference a ls ms ts ha hls hms hnoLifetime hnoMut =>
    refine trades_part (a :: (ls ++ ms)) id (by simp [Call.ahead, Call.input, Call.before])
      (fun _ _ ↦ ⟨id, rfl, fun _ ↦ rfl⟩) fun x z z' hz hx hne ↦ ?_
    have hx' : ts = x ++ z := hx
    subst hx'
    have hstep : Advances (.type (a :: (ls ++ ms ++ (x ++ z'))))
        (.part (.type (x ++ z')) (.back .prefixed (a :: (ls ++ ms)))) := by
      refine .reference ha hls hms (fun hls ↦ ?_) (fun hms ↦ ?_) (by simp [hz.ne_nil.2])
      · rw [← List.append_assoc]
        exact hz.lacks (foreign_kind (by decide)) (by simpa using hnoLifetime hls)
      · exact startsWith_of_ne_nil (hne trivial) (hnoMut hms)
    simpa [Call.before] using hstep
  | @pointer a m ts ha hm =>
    exact trades_part [a, m] id rfl (fun _ _ ↦ ⟨id, rfl, fun _ ↦ rfl⟩) fun _ _ _ hz _ _ ↦
      .pointer ha hm (by simp [hz.ne_nil.2])
  | @lone t ts ht => exact trades_done [t] rfl fun _ _ _ _ _ ↦ .lone ht
  | @fnPointer t ts ht =>
    refine trades_part [] id rfl (fun _ _ ↦ ⟨id, rfl, fun _ ↦ rfl⟩) fun x z z' hz hx hne ↦ ?_
    obtain ⟨u, x, rfl⟩ := List.exists_cons_of_ne_nil (hne trivial)
    obtain ⟨rfl, -⟩ : t = u ∧ ts = x ++ z := List.cons.inj hx
    exact .fnPointer ht
  | @bounded t ts ht =>
    exact trades_part [t] id rfl (fun _ _ ↦ ⟨id, rfl, fun _ ↦ rfl⟩) fun _ _ _ hz _ _ ↦
      .bounded ht (by simp [hz.ne_nil.2])
  | @qualified o ts ho =>
    exact trades_part [] id rfl (fun _ _ ↦ ⟨id, rfl, fun _ ↦ rfl⟩) fun _ _ _ hz _ _ ↦
      .qualified ho (by simp [hz.ne_nil.2])
  | @qualifiedFused o o₁ o₂ ts ho hcut =>
    exact trades_cut [] id ho rfl rfl (fun _ _ ↦ ⟨id, rfl, fun _ ↦ rfl⟩) fun us _ ↦
      .qualifiedFused ho hcut
  | @typePath t ts ht hstart =>
    refine trades_part [] id rfl (fun _ _ ↦ ⟨id, rfl, fun _ ↦ rfl⟩) fun x z z' hz hx hne ↦ ?_
    obtain ⟨u, x, rfl⟩ := List.exists_cons_of_ne_nil (hne trivial)
    obtain ⟨rfl, -⟩ : t = u ∧ ts = x ++ z := List.cons.inj hx
    exact .typePath ht hstart
  | _ => trivial

theorem trades_summands (h : Advances (.summands before ts) p) :
    p.Trades (.summands before ts) := by
  cases h with
  | @plus _ ts a ha =>
    exact trades_part [a] id rfl (fun _ _ ↦ ⟨id, rfl, fun _ ↦ rfl⟩) fun _ _ _ hz _ _ ↦
      .plus ha (by simp [hz.ne_nil.2])
  | noPlus hnone =>
    refine trades_done [] rfl fun y z z' hz hy ↦ .noPlus ?_
    subst hy
    exact hz.lacks (foreign_spelling (by decide)) hnone
  | plusLast => trivial

theorem trades_bounds (h : Advances (.bounds before read ts) p) :
    p.Trades (.bounds before read ts) := by
  cases h with
  | @boundPlus _ _ ts a ha =>
    exact trades_part [a] id rfl (fun _ _ ↦ ⟨id, rfl, fun _ ↦ rfl⟩) fun _ _ _ hz _ _ ↦
      .boundPlus ha (by simp [hz.ne_nil.2])
  | boundNoPlus hnone =>
    refine trades_done [] rfl fun y z z' hz hy ↦ .boundNoPlus ?_
    subst hy
    exact hz.lacks (foreign_spelling (by decide)) hnone
  | boundPlusLast => trivial

theorem trades_bound (h : Advances (.bound ts) p) : p.Trades (.bound ts) := by
  cases h with
  | @simpleBound t ts ht => exact trades_done [t] rfl fun _ _ _ _ _ ↦ .simpleBound ht
  | @maybeBound q ts hq =>
    exact trades_part [q] id rfl (fun _ _ ↦ ⟨id, rfl, fun _ ↦ rfl⟩) fun _ _ _ hz _ _ ↦
      .maybeBound hq (by simp [hz.ne_nil.2])
  | @pathBound t ts ht hq =>
    refine trades_part [] id rfl (fun _ _ ↦ ⟨id, rfl, fun _ ↦ rfl⟩) fun x z z' hz hx hne ↦ ?_
    obtain ⟨u, x, rfl⟩ := List.exists_cons_of_ne_nil (hne trivial)
    obtain ⟨rfl, -⟩ : t = u ∧ ts = x ++ z := List.cons.inj hx
    exact .pathBound ht hq
  | _ => trivial

theorem trades_pointer (h : Advances (.pointer before ts) p) : p.Trades (.pointer before ts) := by
  cases h with
  | @fn _ ts inner f span hf =>
    exact trades_group [f, .group .paren span inner] (fun _ _ ↦ ⟨id, rfl⟩) fun us ↦ .fn hf
  | @unsafeFn _ ts t ht => exact trades_go [t] id rfl fun _ _ _ _ _ ↦ .unsafeFn ht
  | @externFn _ ls ts t ht hls hnone =>
    refine trades_go (t :: ls) id rfl fun x z z' hz hx ↦ .externFn ht hls fun hempty ↦ ?_
    have hx' : ts = x ++ z := hx
    subst hx'
    exact hz.lacks (foreign_kind (by decide)) (hnone hempty)
  | _ => trivial

theorem trades_afterSelf (h : Advances (.afterSelf before read ts) p) :
    p.Trades (.afterSelf before read ts) := by
  cases h with
  | @asPath _ _ ts a ha =>
    exact trades_part [a] id rfl (fun _ _ ↦ ⟨id, rfl, fun _ ↦ rfl⟩) fun _ _ _ hz _ _ ↦
      .asPath ha (by simp [hz.ne_nil.2])
  | noAs hshort hend =>
    cases hend with
    | @item e d t ts he hd ht =>
      refine trades_go [e, d, t] id rfl fun x z z' hz hx ↦ .noAs (fun h ↦ ?_) (.item he hd ht)
      simp [Token.spells_eq he] at h
    | _ => trivial

theorem trades_selfEnd (h : Advances (.selfEnd before read ts) p) :
    p.Trades (.selfEnd before read ts) := by
  cases h with
  | selfEnd hend =>
    cases hend with
    | @item e d t ts he hd ht =>
      exact trades_go [e, d, t] id rfl fun _ _ _ _ _ ↦ .selfEnd (.item he hd ht)
    | _ => trivial

/-- Whatever step a call takes, it takes it in front of another mark as well. -/
theorem trades_of_advances (hlooks : ¬ c.Looks) (h : Advances c p) : p.Trades c := by
  cases c with
  | path => exact trades_path h
  | tail => exact trades_tail h
  | after => exact trades_after h
  | more => exact trades_more h
  | param => exact trades_param h
  | arrow => exact trades_arrow h
  | list | separator => exact absurd trivial hlooks
  | type => exact trades_type h
  | summed =>
    cases h
    exact trades_part [] id rfl (fun _ _ ↦ ⟨id, rfl, fun _ ↦ rfl⟩) fun _ _ _ _ _ _ ↦ .summed
  | summands => exact trades_summands h
  | summand =>
    cases h
    exact trades_go [] id rfl fun _ _ _ _ _ ↦ .summand
  | bounds => exact trades_bounds h
  | bound => exact trades_bound h
  | arrayEnd =>
    cases h with
    | arrayEnd h => exact trades_done [] rfl fun _ _ _ _ _ ↦ .arrayEnd h
    | noArrayEnd => trivial
  | pointer => exact trades_pointer h
  | self =>
    cases h
    exact trades_part [] id rfl (fun _ _ ↦ ⟨id, rfl, fun _ ↦ rfl⟩) fun _ _ _ _ _ _ ↦ .self
  | afterSelf => exact trades_afterSelf h
  | selfEnd => exact trades_selfEnd h
  | back =>
    cases h
    exact trades_done [] rfl fun _ _ _ _ _ ↦ .back

end

/-- A call that leaves a closing angle gives back the same by the same steps if another closing
angle stands there or a comma. -/
theorem Reads.trades {r : Parsed} (h : Reads c ds r) (hlooks : ¬ c.Looks)
    (hr : r = .ok (first, rest)) : c.Trades ds first rest := by
  induction h generalizing first rest with
  | fault => cases hr
  | done h =>
    cases hr
    exact trades_of_advances hlooks h
  | go h hgo ih =>
    subst hr
    have hcontinues := conserves_of_advances h hlooks
    exact trades_of_advances hlooks h _ _ _ hgo (ih hcontinues.1 rfl)
  | @part c c' next _ _ first' rest' _ h hpart hnext ihpart ihnext =>
    subst hr
    have hdone : c'.Looks ∨ c'.Conserves first' rest' := by
      by_cases hpartLooks : c'.Looks
      · exact .inl hpartLooks
      · exact .inr (hpart.conserves hpartLooks rfl)
    have hnextLooks := (conserves_of_advances h hlooks first' rest' hdone).1
    have hpartTrades : c'.Looks ∨ c'.Trades _ first' rest' :=
      (em c'.Looks).imp_right fun hpartLooks ↦ ihpart hpartLooks rfl
    exact trades_of_advances hlooks h _ _ _ _ _ _ hpart hpartTrades hnext (ihnext hnextLooks rfl)
  | lost => cases hr

end

end Grammar

end Expander
