import Expander.Proofs.Grammar.Reaching

/-!
# The language is read

Whatever is in the language is read, whatever stands behind it, as long as that does not go on with
a path (`Derives.completes`). The proof is by induction on the derivation, with one lemma for each
rule of the language; what each symbol needs of the tokens behind it is the invariant (`Completes`).
-/

set_option autoImplicit false

namespace Expander.Grammar

open Token

/-! ### The invariant -/

/-- A sequence that begins with what ends or divides generic parameters. -/
def Fenced (v : List Token) : Prop :=
  ∃ x us, v = x :: us ∧ (x.spells "," = true ∨ x.spells ">" = true)

/-- A sequence of a symbol is read, whatever stands behind it. -/
def Completes : Symbol → List Token → Prop
  | .path, w => ∀ ts v v', Follows ts w v v' → Reaches (.path ts) v v'
  | .tail, w => ∀ before ts v v', Follows ts w v v' → Reaches (.tail before ts) v v'
  | .after, w => ∀ before ts v v', Follows ts w v v' → Reaches (.after before ts) v v'
  | .params, w => ∀ before ts u v v' e, e.spells ">" = true → Derives False .after u →
      (∀ before ts, Follows ts u v v' → Reaches (.after before ts) v v') →
      Follows ts (w ++ e :: u) v v' → ∃ ds first rest, Reads (.param ts) ds (.ok (first, rest)) ∧
        Reaches (.more before first rest) v v'
  | .param, w => ∀ ts v, RegularAll ts → unfuse ts = w ++ v → Fenced v → Reaches (.param ts) v v
  | .result, w => ∀ before ts v v', Follows ts w v v' → Reaches (.arrow before ts) v v'
  | .types, w => ∀ ts, RegularAll ts → unfuse ts = w → Reaches (.list .fnArgs ts) [] []
  | .sums, w => ∀ ts, RegularAll ts → unfuse ts = w → Reaches (.list .typeList ts) [] []
  | .sum, w => ∀ ts v, RegularAll ts → unfuse ts = w ++ v → Bare v → startsWith v ["+"] = false →
      Reaches (.summed ts) v v
  | .plus, w => ∀ v v', Bare v → Absorbs v v' → Absorbs v' v' →
      Bare (w ++ v) ∧ Absorbs (w ++ v) v'
  | .bound, w => ∀ ts v v', Follows ts w v v' → Reaches (.bound ts) v v'
  | .type, w => ∀ ts v v', Follows ts w v v' → Reaches (.type ts) v v'
  | .function, w => ∀ before ts v v', Follows ts w v v' → Reaches (.pointer before ts) v v'
  | .trait, w => ∀ before read ts us v v' e d t, e.spells ">" = true → d.spells "::" = true →
      t.isIdent = true → (∀ before ts, Follows ts us v v' → Reaches (.tail before ts) v v') →
      Follows ts (w ++ e :: d :: t :: us) v v' → Reaches (.afterSelf before read ts) v v'

/-! ### Paths -/

section

variable {before ts us v v' w : List Token}

/-- A path is read to where its tail ends. By induction on the derivation each sequence of the
grammar is read to its end, and this lemma and those below are the cases. -/
theorem completes_path {cs : List Token} {t : Token} (hcs : Maybe (spells "::") cs)
    (ht : t.isIdent = true) (htail : Completes .tail w) : Completes .path (cs ++ t :: w) := by
  intro ts v v' h
  obtain ⟨us, rfl, hident⟩ := exists_of_unfuse_maybe (by decide) hcs (by simpa using h.eq)
  obtain ⟨us, rfl, hus⟩ := exists_of_unfuse_of_isKind hident (by decide) ht
  obtain ⟨-, hregular⟩ := regularAll_append.mp h.regular
  obtain ⟨htRegular, hregular⟩ := regularAll_cons.mp hregular
  have hrest : Reaches (.tail [] us) v v' := htail [] us v v' (h.behind hregular hus)
  cases hcs with
  | none => exact .of_back (.plain ht (htRegular.spells_eq_false ht (by decide))) hrest
  | one hc => exact .of_back (.rooted hc ht) hrest

/-- Function arguments are looked at inside their group, and the result type is read behind it. -/
theorem completes_called {inner : List Token} {span : Option Span} (hinner : Completes .types inner)
    (hresult : Completes .result w) : Completes .tail (.group .paren span inner :: w) := by
  intro before ts v v' h
  obtain ⟨stream, us, rfl, hstream, hus⟩ := exists_of_unfuse_of_group h.eq
  have hregular := (regularAll_cons.mp h.regular).2
  obtain ⟨ds, first, rest, hlist, -⟩ :=
    hinner stream (regularAll_stream h.regular List.mem_cons_self) hstream
  exact .of_part .fnArgs hlist (hresult _ us v v' (h.behind hregular hus))

/-- Where no angle and no group of arguments stands, a path goes on with a segment or ends. -/
theorem advances_noArgs (h : Follows ts w v v') (hw : Derives False .after w) :
    Advances (.tail before ts) (.go (.after before ts)) := by
  cases hw with
  | pathEnd =>
    have hbare : Bare (unfuse ts) := h.eq ▸ h.bare
    obtain ⟨hone, htwo⟩ := startsWith_angle_of_unfuse (.inr ⟨rfl, rfl⟩) h.regular hbare.angle
    have hsegment : startsWith ts ["::"] = false :=
      startsWith_of_unfuse (.spelling (by decide)) hbare.segment
    refine .noArgs hone htwo (startsWith_of_unfuse (.group _) hbare.args) ?_ ?_
    · rw [startsWith_cons_of_not hsegment]
      exact nofun
    · rw [startsWith_cons_of_not hsegment]
      exact nofun
  | @segment us c t hc ht =>
    obtain ⟨us, rfl, hident⟩ := exists_of_unfuse_of_spells h.eq hc (by decide)
    obtain ⟨us, rfl, -⟩ := exists_of_unfuse_of_isKind hident (by decide) ht
    have htRegular : t.Regular := (regularAll_cons.mp (regularAll_cons.mp h.regular).2).1
    have hone : t.spells "<" = false := htRegular.spells_eq_false ht (by decide)
    have htwo : t.spells "<<" = false := htRegular.spells_eq_false ht (by decide)
    refine .noArgs ?_ ?_ ?_ ?_ ?_
    · simp [spells_eq hc]
    · simp [spells_eq hc]
    · simp [delimiter?_of_spells hc]
    · simp [hone]
    · simp [htwo]

/-- Without arguments the path goes on right behind the identifier. -/
theorem completes_plain (hafter : Derives False .after w) (ih : Completes .after w) :
    Completes .tail w :=
  fun before ts v v' h ↦ .of_go (advances_noArgs h hafter) (ih before ts v v' h)

/-- Angles with nothing between them may be joined to what stands around them, or not. -/
theorem completes_empty {cs : List Token} {o e : Token} (hcs : Maybe (spells "::") cs)
    (ho : o.spells "<" = true) (he : e.spells ">" = true) (hafter : Derives False .after w)
    (ih : Completes .after w) : Completes .tail (cs ++ o :: e :: w) := by
  intro before ts v v' h
  obtain ⟨us, rfl, hopen⟩ := exists_of_unfuse_maybe (by decide) hcs (by simpa using h.eq)
  obtain ⟨-, hregular⟩ := regularAll_append.mp h.regular
  rcases opening_angle hregular hopen ho with ⟨us, rfl, hus, hclose⟩ |
    ⟨t, y, us, -, -, -, -, hy, heq⟩
  · rcases closing_angle hclose he hafter with ⟨us, rfl, hrest⟩ | ⟨t, y, us, rfl, ht, hcut, hrest⟩
    · have hbehind : Follows us w v v' := h.behind (regularAll_cons.mp hus).2 hrest
      exact .of_go (.empty hcs ho he) (ih _ us v v' hbehind)
    · exact .of_done (.emptyFused hcs ho ht hcut) (.inl hrest)
  · rw [unfuse_cons, unfused_of_spells hy (by decide), List.singleton_append,
      List.cons.injEq] at heq
    rw [← heq.1, spells_eq hy] at he
    cases he

/-- A parameter list that is closed is read, and what stands behind the angle. -/
theorem reaches_close {read ms : List Token} {u : List Token} {e : Token}
    (hms : Maybe (spells ",") ms) (he : e.spells ">" = true) (hafter : Derives False .after u)
    (ih : ∀ before ts, Follows ts u v v' → Reaches (.after before ts) v v')
    (h : Follows ts (ms ++ e :: u) v v') : Reaches (.more before read ts) v v' := by
  obtain ⟨us, rfl, hclose⟩ := exists_of_unfuse_maybe (by decide) hms (by simpa using h.eq)
  obtain ⟨-, hregular⟩ := regularAll_append.mp h.regular
  rcases closing_angle hclose he hafter with ⟨us, rfl, hrest⟩ | ⟨t, y, us, rfl, ht, hcut, hrest⟩
  · exact .of_go (.close hms he) (ih _ us (h.behind (regularAll_cons.mp hregular).2 hrest))
  · exact .of_done (.closeFused hms ht hcut) (.inl hrest)

/-- A parameter list that is read is not empty and does not close at once. -/
theorem front_of_params {ps : List Token} (hps : Derives False .params ps) (hus : RegularAll us)
    (h : unfuse us = ps ++ w) :
    us ≠ [] ∧ startsWith us [">"] = false ∧ startsWith us [">>"] = false := by
  have hne : ps ≠ [] := ne_nil_of_derives hps trivial
  have hunfuse := regularAll_unfuse hus
  rw [h, regularAll_append] at hunfuse
  refine ⟨ne_nil_of_unfuse_append h hne, startsWith_angle_of_unfuse (.inl ⟨rfl, rfl⟩) hus ?_⟩
  rw [h]
  exact startsWith_false_left (front_of_derives hps hunfuse.1 (by decide)) hne

/-- Angles around parameters may be halves of joined ones, and the rule then cuts them. -/
theorem completes_angles {cs ps : List Token} {o e : Token} (hcs : Maybe (spells "::") cs)
    (ho : o.spells "<" = true) (hps : Derives False .params ps) (ihps : Completes .params ps)
    (he : e.spells ">" = true) (hafter : Derives False .after w) (ih : Completes .after w) :
    Completes .tail (cs ++ o :: (ps ++ e :: w)) := by
  intro before ts v v' h
  obtain ⟨us, rfl, hopen⟩ := exists_of_unfuse_maybe (by decide) hcs (by simpa using h.eq)
  obtain ⟨-, hregular⟩ := regularAll_append.mp h.regular
  have hne : ps ≠ [] := ne_nil_of_derives hps trivial
  rcases opening_angle hregular hopen ho with ⟨us, rfl, hus, hparams⟩ |
    ⟨t, y, us, rfl, ht, hcut, hus, hy, hparams⟩
  · have hfollows : Follows us (ps ++ e :: w) v v' := h.behind hus (by simpa using hparams)
    obtain ⟨ds, first, rest, hreads, hmore⟩ :=
      ihps (before ++ cs ++ [o]) us w v v' e he hafter (fun b us ↦ ih b us v v') hfollows
    obtain ⟨husne, hone, htwo⟩ := front_of_params hps hus hparams
    exact .of_part (.opening hcs ho husne hone htwo) hreads hmore
  · have hfollows : Follows (y :: us) (ps ++ e :: w) v v' := h.behind hus (by simpa using hparams)
    obtain ⟨ds, first, rest, hreads, hmore⟩ :=
      ihps (before ++ cs ++ [o]) (y :: us) w v v' e he hafter (fun b us ↦ ih b us v v') hfollows
    have husne : us ≠ [] := by
      rintro rfl
      have hlength := congrArg List.length hparams
      have hpositive := List.length_pos_iff.mpr hne
      simp [unfused_of_spells hy (by decide)] at hlength
      omega
    exact .of_part (.openingFused hcs ht hcut (.inr husne)) hreads hmore

/-- A path ends where no segment follows. -/
theorem completes_pathEnd : Completes .after [] := by
  intro before ts v v' h
  have hsegment : startsWith ts ["::"] = false :=
    startsWith_of_unfuse (.spelling (by decide)) (h.eq ▸ h.bare.segment)
  exact .of_done (.pathEnd fun hstart ↦ by rw [hsegment] at hstart; cases hstart) (.inl h.eq)

theorem completes_segment {c t : Token} (hc : c.spells "::" = true) (ht : t.isIdent = true)
    (ih : Completes .tail w) : Completes .after (c :: t :: w) := by
  intro before ts v v' h
  obtain ⟨us, rfl, hident⟩ := exists_of_unfuse_of_spells h.eq hc (by decide)
  obtain ⟨us, rfl, hus⟩ := exists_of_unfuse_of_isKind hident (by decide) ht
  have hregular := (regularAll_cons.mp (regularAll_cons.mp h.regular).2).2
  exact .of_go (.segment hc ht) (ih _ us v v' (h.behind hregular hus))

end

/-! ### Generic parameters -/

section

variable {ts us v v' w : List Token}

theorem Fenced.bare (h : Fenced v) : Bare v ∧ startsWith v ["+"] = false ∧
    startsWith v ["="] = false := by
  obtain ⟨x, us, rfl, hx | hx⟩ := h
  · exact ⟨bare_cons hx (by decide), startsWith_false_of_spells hx (by decide),
      startsWith_false_of_spells hx (by decide)⟩
  · exact ⟨bare_cons hx (by decide), startsWith_false_of_spells hx (by decide),
      startsWith_false_of_spells hx (by decide)⟩

/-- The last parameter ends in front of the closing angle. -/
theorem completes_lastParam {ps ms : List Token} (ihparam : Completes .param ps)
    (hms : Maybe (spells ",") ms) : Completes .params (ps ++ ms) := by
  intro before ts u v v' e he hu hafter h
  have hfenced : Fenced (ms ++ e :: (u ++ v)) := by
    cases hms with
    | none => exact ⟨e, u ++ v, rfl, .inr he⟩
    | @one m hm => exact ⟨m, e :: (u ++ v), rfl, .inl hm⟩
  have hparam : Reaches (.param ts) (ms ++ e :: (u ++ v)) (ms ++ e :: (u ++ v)) :=
    ihparam ts _ h.regular (by simpa using h.eq) hfenced
  obtain ⟨ds, first, rest, hreads, hregular, hrest⟩ := hparam.exists_reads id h.regular
  rw [or_self_iff] at hrest
  exact ⟨ds, first, rest, hreads,
    reaches_close hms he hu hafter (h.behind hregular (by simpa using hrest))⟩

/-- Behind a parameter and a comma the list goes on. -/
theorem completes_moreParams {ps qs : List Token} {m : Token} (ihparam : Completes .param ps)
    (hm : m.spells "," = true) (hqs : Derives False .params qs) (ihparams : Completes .params qs) :
    Completes .params (ps ++ m :: qs) := by
  intro before ts u v v' e he hu hafter h
  have hparam : Reaches (.param ts) (m :: (qs ++ e :: (u ++ v))) (m :: (qs ++ e :: (u ++ v))) :=
    ihparam ts _ h.regular (by simpa using h.eq) ⟨m, _, rfl, .inl hm⟩
  obtain ⟨ds, first, rest, hreads, hregular, hrest⟩ := hparam.exists_reads id h.regular
  rw [or_self_iff] at hrest
  obtain ⟨us, rfl, hus⟩ := exists_of_unfuse_of_spells hrest hm (by decide)
  have husRegular := (regularAll_cons.mp hregular).2
  obtain ⟨ds', first', rest', hreads', hmore⟩ := ihparams (before ++ first ++ [m]) us u v v' e he hu
    hafter (h.behind husRegular (by simpa using hus))
  obtain ⟨husne, hone, htwo⟩ := front_of_params hqs husRegular hus
  exact ⟨ds, first, _, hreads, .of_part (.comma hm husne hone htwo) hreads' hmore⟩

theorem completes_single {t : Token}
    (ht : t.isLifetime = true ∨ t.isLiteral = true ∨ t.delimiter? = some .brace) :
    Completes .param [t] := by
  intro ts v _ h _
  obtain ⟨t, us, rfl, ht, hus⟩ : ∃ u us, ts = u :: us ∧ (u.isLifetime = true ∨
      u.isLiteral = true ∨ u.delimiter? = some .brace) ∧ unfuse us = v := by
    rcases ht with ht | ht | ht
    · obtain ⟨us, rfl, hus⟩ := exists_of_unfuse_of_isKind h (by decide) ht
      exact ⟨t, us, rfl, .inl ht, hus⟩
    · obtain ⟨us, rfl, hus⟩ := exists_of_unfuse_of_isKind h (by decide) ht
      exact ⟨t, us, rfl, .inr (.inl ht), hus⟩
    · obtain ⟨u, us, rfl, hu, hus⟩ := exists_of_unfuse_of_delimiter? h ht
      exact ⟨u, us, rfl, .inr (.inr hu), hus⟩
  exact .of_done (.single ht) (.inl hus)

theorem completes_negative {m l : Token} (hm : m.spells "-" = true) (hl : l.isLiteral = true) :
    Completes .param [m, l] := by
  intro ts v _ h _
  obtain ⟨us, rfl, hliteral⟩ := exists_of_unfuse_of_spells h hm (by decide)
  obtain ⟨us, rfl, hus⟩ := exists_of_unfuse_of_isKind hliteral (by decide) hl
  exact .of_done (.negative hm hl) (.inl hus)

/-- A binding is told from a type by the equals sign in second place. -/
theorem completes_binding {t e : Token} (ht : t.isIdent = true) (he : e.spells "=" = true)
    (htype : Derives False .type w) (ih : Completes .type w) :
    Completes .param (t :: e :: w) := by
  intro ts v hts h hv
  obtain ⟨us, rfl, hequals⟩ := exists_of_unfuse_of_isKind h (by decide) ht
  obtain ⟨us, rfl, hus⟩ := exists_of_unfuse_of_spells hequals he (by decide)
  have hregular := (regularAll_cons.mp (regularAll_cons.mp hts).2).2
  have hfollows : Follows us w v v := .of_no_plus hregular hus hv.bare.1 hv.bare.2.1
  exact .of_back (.binding ht he (hfollows.ne_nil (ne_nil_of_derives htype trivial)))
    (ih us v v hfollows)

/-- A sum begins as nothing else does that is a parameter. -/
theorem front_of_sum (h : Derives False .sum w) (hw : RegularAll w) {p : Pattern}
    (hp : Besides p) (hv : startsWith v ["="] = false) :
    startsWith (w ++ v) [p] = false ∧ startsWith (w ++ v) [ident, "="] = false := by
  cases h with
  | @sum ts us htype hplus =>
    obtain ⟨hts, hus⟩ := regularAll_append.mp hw
    rw [List.append_assoc]
    refine ⟨?_, second_of_type htype hts ?_⟩
    · exact startsWith_false_left (front_of_type htype hts hp) (ne_nil_of_derives htype trivial)
    · exact startsWith_false_append (front_of_derives hplus hus (by decide)) hv

theorem completes_typeParam (hsum : Derives False .sum w) (ih : Completes .sum w) :
    Completes .param w := by
  intro ts v hts h hv
  have hread : Reaches (.summed ts) v v := ih ts v hts h hv.bare.1 hv.bare.2.1
  have hregular : RegularAll w := (regularAll_append.mp (h ▸ regularAll_unfuse hts)).1
  have hfront : ∀ {p : Pattern}, Besides p → Stays p → startsWith ts [p] = false := by
    intro p hp hstays
    exact startsWith_of_unfuse hstays (h ▸ (front_of_sum hsum hregular hp hv.bare.2.2).1)
  cases ts with
  | nil => exact absurd rfl (ne_nil_of_unfuse_append h (ne_nil_of_derives hsum trivial))
  | cons t ts =>
    have hlifetime := hfront .lifetime (.kind (by decide))
    have hliteral := hfront .literal (.kind (by decide))
    have hbrace := hfront .brace (.group _)
    rw [startsWith_cons, startsWith_nil, Bool.and_true] at hlifetime hliteral hbrace
    refine .of_back (.typeParam hlifetime hliteral (of_decide_eq_false hbrace) ?_ ?_) hread
    · intro hbinding
      obtain ⟨x, us, hxs, hx, he⟩ := exists_of_startsWith hbinding
      cases hxs
      obtain ⟨e, us, rfl, he, -⟩ := exists_of_startsWith he
      have hsecond := (front_of_sum hsum hregular .minus hv.bare.2.2).2
      rw [← h, unfuse_cons, unfuse_cons, unfused_of_isIdent hx, unfused_of_spells he (by decide)]
        at hsecond
      simp only [List.cons_append, List.nil_append, startsWith_cons, holds_spelling,
        startsWith_nil, hx, show e.spells "=" = true from he] at hsecond
      cases hsecond
    · exact startsWith_cons_of_not (hfront .minus (.spelling (by decide))) _

end

/-! ### Functions and lists -/

section

variable {ts us v v' w : List Token} {m : Token} {s : Sequence}

theorem completes_noResult : Completes .result [] := by
  intro before ts v v' h
  have hnone : startsWith ts ["->"] = false :=
    startsWith_of_unfuse (.spelling (by decide)) (h.eq ▸ h.bare.result)
  exact .of_done (.noArrow hnone) (.inl h.eq)

theorem completes_result {a : Token} (ha : a.spells "->" = true) (htype : Derives False .type w)
    (ih : Completes .type w) : Completes .result (a :: w) := by
  intro before ts v v' h
  obtain ⟨us, rfl, hus⟩ := exists_of_unfuse_of_spells h.eq ha (by decide)
  have hfollows : Follows us w v v' := h.behind (regularAll_cons.mp h.regular).2 hus
  exact .of_back (.arrow ha (hfollows.ne_nil (ne_nil_of_derives htype trivial)))
    (ih us v v' hfollows)

/-- The call that reads an element of a list. -/
def Sequence.reader : Sequence → List Token → Call
  | fnArgs => .type
  | typeList => .summed

theorem advances_element (h : ts ≠ []) :
    Advances (.list s ts) (.part (s.reader ts) (.separator s)) := by
  cases s with
  | fnArgs => exact .listType h
  | typeList => exact .listSummed h

theorem reaches_noElements (h : unfuse ts = []) : Reaches (.list s ts) [] [] := by
  obtain rfl := unfuse_eq_nil_iff.mp h
  exact .of_done .listEnd (.inl unfuse_nil)

/-- What an element of a list needs in order to be read. -/
theorem completes_element (ih : Completes s.element w) (hts : RegularAll ts)
    (h : unfuse ts = w ++ v) (hbare : Bare v) (hplus : startsWith v ["+"] = false) :
    Reaches (s.reader ts) v v := by
  cases s with
  | fnArgs => exact ih ts v v (.of_no_plus hts h hbare hplus)
  | typeList => exact ih ts v hts h hbare hplus

theorem ne_nil_of_element (h : Derives False s.element w) (hts : unfuse ts = w ++ v) :
    ts ≠ [] := by
  refine ne_nil_of_unfuse_append hts (ne_nil_of_derives h ?_)
  cases s <;> trivial

theorem completes_lastElement (h : Derives False s.element w) (ih : Completes s.element w)
    (hts : RegularAll ts) (heq : unfuse ts = w) : Reaches (.list s ts) [] [] := by
  have hall : unfuse ts = w ++ [] := by rw [heq, List.append_nil]
  obtain ⟨ds, first, rest, hreads, hrest⟩ := completes_element ih hts hall bare_nil rfl
  obtain rfl : rest = [] := unfuse_eq_nil_iff.mp (or_self_iff.mp hrest)
  exact .of_part (advances_element (ne_nil_of_element h hall)) hreads
    (.of_done .separatorEnd (.inl unfuse_nil))

theorem completes_moreElements (h : Derives False s.element w) (ih : Completes s.element w)
    (hm : m.spells "," = true)
    (hmore : ∀ us, RegularAll us → unfuse us = v → Reaches (.list s us) [] [])
    (hts : RegularAll ts) (heq : unfuse ts = w ++ m :: v) : Reaches (.list s ts) [] [] := by
  have hreader : ¬ (s.reader ts).Looks ∧ (s.reader ts).ahead = ts := by
    cases s with
    | fnArgs => exact ⟨id, rfl⟩
    | typeList => exact ⟨id, rfl⟩
  have helement : Reaches (s.reader ts) (m :: v) (m :: v) :=
    completes_element ih hts heq (bare_cons hm (by decide))
      (startsWith_false_of_spells hm (by decide))
  obtain ⟨ds, first, rest, hreads, hregular, hrest⟩ :=
    helement.exists_reads hreader.1 (hreader.2.symm ▸ hts)
  obtain ⟨us, rfl, hus⟩ := exists_of_unfuse_of_spells (or_self_iff.mp hrest) hm (by decide)
  exact .of_part (advances_element (ne_nil_of_element h heq)) hreads
    (.of_go (.separator hm) (hmore us (regularAll_cons.mp hregular).2 hus))

theorem completes_unsafeFn {t : Token} (ht : t.spells "unsafe" = true)
    (ih : Completes .function w) : Completes .function (t :: w) := by
  intro before ts v v' h
  obtain ⟨us, rfl, hus⟩ := exists_of_unfuse_of_spells h.eq ht (by decide)
  exact .of_go (.unsafeFn ht) (ih _ us v v' (h.behind (regularAll_cons.mp h.regular).2 hus))

/-- The literal behind `extern` is taken if it is there. -/
theorem completes_externFn {ls : List Token} {t : Token} (ht : t.spells "extern" = true)
    (hls : Maybe isLiteral ls) (hw : Derives False .function w) (ih : Completes .function w) :
    Completes .function (t :: (ls ++ w)) := by
  intro before ts v v' h
  obtain ⟨us, rfl, hliteral⟩ := exists_of_unfuse_of_spells h.eq ht (by decide)
  obtain ⟨us, rfl, hus⟩ :=
    exists_of_unfuse_maybe_kind (k := .literal) (by decide) hls (by simpa using hliteral)
  obtain ⟨-, hregular⟩ := regularAll_append.mp (regularAll_cons.mp h.regular).2
  have hnone : startsWith us [literal] = false := by
    obtain ⟨x, xs, rfl, hx⟩ := starts_function hw
    refine startsWith_of_unfuse (.kind (by decide)) ?_
    rw [hus, List.cons_append, startsWith_cons, startsWith_nil, Bool.and_true]
    rcases hx with hx | hx | hx
    · exact isLiteral_of_spells hx
    · exact isLiteral_of_spells hx
    · exact isLiteral_of_spells hx
  exact .of_go (.externFn ht hls fun _ ↦ hnone) (ih _ us v v' (h.behind hregular hus))

/-- The parameters of a function are looked at inside their group. -/
theorem completes_fn {inner : List Token} {f : Token} {span : Option Span}
    (hf : f.spells "fn" = true) (hinner : Completes .types inner) (hresult : Completes .result w) :
    Completes .function (f :: .group .paren span inner :: w) := by
  intro before ts v v' h
  obtain ⟨us, rfl, hgroup⟩ := exists_of_unfuse_of_spells h.eq hf (by decide)
  obtain ⟨stream, us, rfl, hstream, hus⟩ := exists_of_unfuse_of_group hgroup
  have hregular := (regularAll_cons.mp h.regular).2
  obtain ⟨ds, first, rest, hlist, -⟩ :=
    hinner stream (regularAll_stream hregular List.mem_cons_self) hstream
  exact .of_part (.fn hf) hlist
    (hresult _ us v v' (h.behind (regularAll_cons.mp hregular).2 hus))

end

/-! ### Sums and bounds -/

section

variable {ts us v v' w w' : List Token}

theorem completes_sum (ihtype : Completes .type w) (ihplus : Completes .plus w') :
    Completes .sum (w ++ w') := by
  intro ts v hts h hbare hplus
  have hend : Absorbs v v := absorbs_of_no_plus hplus
  obtain ⟨hbareBehind, habsorbs⟩ := ihplus v v hbare hend hend
  have hfollows : Follows ts w (w' ++ v) v := ⟨hts, by simpa using h, hbareBehind, habsorbs, hend⟩
  obtain ⟨ds, first, rest, hreads, hregular, hrest⟩ :=
    (ihtype ts (w' ++ v) v hfollows).exists_reads id hts
  refine .of_part .summed hreads ?_
  rcases hrest with hrest | hrest
  · exact (habsorbs rest hregular hrest).2 first
  · exact (hend rest hregular hrest).2 first

/-- A sum ends where no plus follows. -/
theorem completes_noPlus : Completes .plus [] := fun _ _ hbare habsorbs _ ↦ ⟨hbare, habsorbs⟩

/-- A bound behind a plus is read by whichever loop comes to it first. -/
theorem completes_plus {a : Token} (ha : a.spells "+" = true) (hbound : Derives False .bound w)
    (ihbound : Completes .bound w) (ihplus : Completes .plus w') :
    Completes .plus (a :: (w ++ w')) := by
  intro v v' hbare habsorbs hsettled
  obtain ⟨hbareBehind, habsorbsBehind⟩ := ihplus v v' hbare habsorbs hsettled
  refine ⟨bare_cons ha (by decide), fun ts hts h ↦ ?_⟩
  obtain ⟨us, rfl, hus⟩ := exists_of_unfuse_of_spells h ha (by decide)
  have hfollows : Follows us w (w' ++ v) v' := by
    refine ⟨(regularAll_cons.mp hts).2, ?_, hbareBehind, habsorbsBehind, hsettled⟩
    exact hus.trans (List.append_assoc _ _ _)
  have hne : us ≠ [] := hfollows.ne_nil (ne_nil_of_derives hbound trivial)
  obtain ⟨ds, first, rest, hreads, hregular, hrest⟩ :=
    (ihbound us (w' ++ v) v' hfollows).exists_reads id hfollows.regular
  have hloops : Absorbs (unfuse rest) v' := by
    rcases hrest with hrest | hrest
    · exact hrest ▸ habsorbsBehind
    · exact hrest ▸ hsettled
  obtain ⟨hbounds, hsummands⟩ := hloops rest hregular rfl
  exact ⟨fun before read ↦ .of_part (.boundPlus ha hne) hreads (hbounds _ first),
    fun before ↦ .of_part (.plus ha hne) hreads (.of_go .summand (hsummands _))⟩

theorem completes_simpleBound {t : Token} (ht : t.isLifetime = true ∨ t.delimiter? = some .paren) :
    Completes .bound [t] := by
  intro ts v v' h
  obtain ⟨t, us, rfl, ht, hus⟩ : ∃ u us, ts = u :: us ∧
      (u.isLifetime = true ∨ u.delimiter? = some .paren) ∧ unfuse us = v := by
    rcases ht with ht | ht
    · obtain ⟨us, rfl, hus⟩ := exists_of_unfuse_of_isKind h.eq (by decide) ht
      exact ⟨t, us, rfl, .inl ht, hus⟩
    · obtain ⟨u, us, rfl, hu, hus⟩ := exists_of_unfuse_of_delimiter? h.eq ht
      exact ⟨u, us, rfl, .inr hu, hus⟩
  exact .of_done (.simpleBound ht) (.inl hus)

/-- What a path begins with is the first token, also before it was taken apart. -/
theorem exists_of_path (hw : Derives False .path w) (h : unfuse ts = w ++ v) : ∃ x us w',
    ts = x :: us ∧ w = x :: w' ∧ (x.spells "::" = true ∨ x.isIdent = true) := by
  obtain ⟨x, xs, rfl, hx⟩ := starts_path hw
  rcases hx with hx | hx
  · obtain ⟨us, rfl, -⟩ := exists_of_unfuse_of_spells h hx (by decide)
    exact ⟨x, us, xs, rfl, rfl, .inl hx⟩
  · obtain ⟨us, rfl, -⟩ := exists_of_unfuse_of_isKind h (by decide) hx
    exact ⟨x, us, xs, rfl, rfl, .inr hx⟩

/-- A bound that is a path is told by its first token. -/
theorem completes_pathBound {qs : List Token} (hqs : Maybe (spells "?") qs)
    (hw : Derives False .path w) (ih : Completes .path w) : Completes .bound (qs ++ w) := by
  intro ts v v' h
  obtain ⟨us, rfl, hus⟩ := exists_of_unfuse_maybe (by decide) hqs (by simpa using h.eq)
  have hfollows : Follows us w v v' := h.behind (regularAll_append.mp h.regular).2 hus
  have hpath : Reaches (.path us) v v' := ih us v v' hfollows
  cases hqs with
  | none =>
    obtain ⟨x, us, w', rfl, -, hx⟩ := exists_of_path hw hus
    refine .of_back (.pathBound hx ?_) hpath
    rcases hx with hx | hx
    · rw [spells_eq hx]
      rfl
    · exact (regularAll_cons.mp hfollows.regular).1.spells_eq_false hx (by decide)
  | one hq =>
    exact .of_back (.maybeBound hq (hfollows.ne_nil (ne_nil_of_derives hw trivial))) hpath

end

/-! ### Types -/

section

variable {ts us v v' w w' : List Token}

/-- A tuple is one token, and its sums are looked at inside. -/
theorem completes_tuple {inner : List Token} {span : Option Span} (ih : Completes .sums inner) :
    Completes .type [.group .paren span inner] := by
  intro ts v v' h
  obtain ⟨stream, us, rfl, hstream, hus⟩ := exists_of_unfuse_of_group h.eq
  obtain ⟨ds, first, rest, hlist, -⟩ :=
    ih stream (regularAll_stream h.regular List.mem_cons_self) hstream
  exact .of_part .tuple hlist (.of_done .back (.inl hus))

/-- A slice is one token, with nothing behind the type inside. -/
theorem completes_slice {inner : List Token} {span : Option Span} (hw : Derives False .type inner)
    (ih : Completes .type inner) : Completes .type [.group .bracket span inner] := by
  intro ts v v' h
  obtain ⟨stream, us, rfl, hstream, hus⟩ := exists_of_unfuse_of_group h.eq
  have hfollows : Follows stream inner [] [] :=
    .of_no_plus (regularAll_stream h.regular List.mem_cons_self) (by simpa using hstream) bare_nil
      rfl
  obtain ⟨ds, first, rest, hreads, hrest⟩ := ih stream [] [] hfollows
  obtain rfl : rest = [] := unfuse_eq_nil_iff.mp (or_self_iff.mp hrest)
  exact .of_part (.bracketed (hfollows.ne_nil (ne_nil_of_derives hw trivial))) hreads
    (.of_done (.arrayEnd (.inl rfl)) (.inl hus))

/-- An array has a semicolon behind the type inside, and something behind that. -/
theorem completes_array {m : Token} {span : Option Span} (hw : Derives False .type w)
    (ih : Completes .type w) (hm : m.spells ";" = true) (hne : us ≠ []) :
    Completes .type [.group .bracket span (w ++ m :: us)] := by
  intro ts v v' h
  obtain ⟨stream, behind, rfl, hstream, hbehind⟩ := exists_of_unfuse_of_group h.eq
  have hregular : RegularAll stream := regularAll_stream h.regular List.mem_cons_self
  have hfollows : Follows stream w (m :: us) (m :: us) :=
    .of_no_plus hregular hstream (bare_cons hm (by decide))
      (startsWith_false_of_spells hm (by decide))
  obtain ⟨ds, first, rest, hreads, hrest⟩ := ih stream _ _ hfollows
  obtain ⟨length, rfl, hlength⟩ := exists_of_unfuse_of_spells (or_self_iff.mp hrest) hm (by decide)
  have hend : startsWith (m :: length) [";"] = true ∧ 1 < (m :: length).length := by
    refine ⟨by simpa using hm, ?_⟩
    have hpositive : length ≠ [] := fun hnil ↦ hne (by rw [← hlength, hnil, unfuse_nil])
    simpa using List.length_pos_iff.mpr hpositive
  exact .of_part (.bracketed (hfollows.ne_nil (ne_nil_of_derives hw trivial))) hreads
    (.of_done (.arrayEnd (.inr hend)) (.inl hbehind))

/-- One ampersand makes the same of a type as two. -/
theorem advances_ampersands {t y : Token} {p : Plan} (ht : t.spells "&&" = true)
    (hy : y.spells "&" = true) (h : Advances (.type (y :: us)) p) :
    (∃ f, p = .fault f) ∨ ∃ c before before', p = .part c (.back .prefixed before) ∧
      Advances (.type (t :: us)) (.part c (.back .prefixed before')) := by
  have hother : ∀ {s : String}, y.spells s = true → s ≠ "&" → False := by
    intro s hs hne
    rw [spells_eq hy, decide_eq_true_eq] at hs
    exact hne hs.symm
  cases h with
  | reference _ hls hms hnoLifetime hnoMut hts =>
    exact .inr ⟨_, _, _, rfl, .reference (.inr ht) hls hms hnoLifetime hnoMut hts⟩
  | referenceLast | bracketedEmpty | pointerLast | pointerNoMark | pointerOnly | boundedLast
  | qualifiedLast | noTypeStart => exact .inl ⟨_, rfl⟩
  | tuple | bracketed => cases hy
  | pointer h | qualified h | qualifiedFused h => exact (hother h (by decide)).elim
  | lone h | bounded h =>
    rcases h with h | h
    · exact (hother h (by decide)).elim
    · exact (hother h (by decide)).elim
  | fnPointer h =>
    rcases h with h | h | h
    · exact (hother h (by decide)).elim
    · exact (hother h (by decide)).elim
    · exact (hother h (by decide)).elim
  | typePath _ hstart =>
    rw [hstart "&" (by decide)] at hy
    cases hy

/-- Two ampersands in one are read as one in front of another, so that what is read behind the
second is read behind both. -/
theorem Reaches.of_ampersand {t y : Token} (ht : t.spells "&&" = true) (hy : y.spells "&" = true)
    (h : Reaches (.type (y :: us)) v v') : Reaches (.type (t :: us)) v v' := by
  obtain ⟨ds, first, rest, hreads, hrest⟩ := h
  cases hreads with
  | done h =>
    rcases advances_ampersands ht hy h with ⟨f, hf⟩ | ⟨c, before, before', hc, -⟩
    · cases hf
    · cases hc
  | go h =>
    rcases advances_ampersands ht hy h with ⟨f, hf⟩ | ⟨c, before, before', hc, -⟩
    · cases hf
    · cases hc
  | part h hpart hnext =>
    rcases advances_ampersands ht hy h with ⟨f, hf⟩ | ⟨c, before, before', hc, hadvances⟩
    · cases hf
    · cases hc
      cases hnext with
      | done hback =>
        cases hback
        exact .of_part hadvances hpart (.of_done .back hrest)
      | go hback => cases hback
      | part hback => cases hback

/-- What stands behind an ampersand, before it was taken apart. -/
theorem reaches_reference {ls ms : List Token} {a : Token} (ha : a.spells "&" = true)
    (hls : Maybe isLifetime ls) (hms : Maybe (spells "mut") ms)
    (hmut : ms = [] → startsWith w ["mut"] = false) (hw : Derives False .type w)
    (h : Follows us (ls ++ ms ++ w) v v')
    (ih : ∀ us, Follows us w v v' → Reaches (.type us) v v') : Reaches (.type (a :: us)) v v' := by
  have hne : w ≠ [] := ne_nil_of_derives hw trivial
  obtain ⟨us, rfl, hmark⟩ :=
    exists_of_unfuse_maybe_kind (k := .lifetime) (by decide) hls (by simpa using h.eq)
  obtain ⟨us, rfl, hus⟩ := exists_of_unfuse_maybe (by decide) hms (by simpa using hmark)
  have hregular : RegularAll us :=
    (regularAll_append.mp (regularAll_append.mp h.regular).2).2
  have hfollows : Follows us w v v' := h.behind hregular hus
  have hwRegular : RegularAll w := (regularAll_append.mp (hus ▸ regularAll_unfuse hregular)).1
  have hnoLifetime : startsWith (ms ++ us) [lifetime] = false := by
    cases hms with
    | none =>
      refine startsWith_of_unfuse (.kind (by decide)) ?_
      exact hus ▸ startsWith_false_left (front_of_type hw hwRegular .lifetime) hne
    | one hm => simpa using isLifetime_of_spells hm
  have hnoMut : ms = [] → startsWith us ["mut"] = false := by
    intro hnone
    refine startsWith_of_unfuse (.spelling (by decide)) ?_
    exact hus ▸ startsWith_false_left (hmut hnone) hne
  rw [← List.append_assoc]
  exact .of_back (.reference (.inl ha) hls hms (fun _ ↦ hnoLifetime) hnoMut
    (hfollows.ne_nil hne)) (ih us hfollows)

/-- A reference whose ampersand is the second half of two is read along with the first. -/
theorem completes_reference {ls ms : List Token} {a : Token} (ha : a.spells "&" = true)
    (hls : Maybe isLifetime ls) (hms : Maybe (spells "mut") ms)
    (hmut : ms = [] → startsWith w ["mut"] = false) (hw : Derives False .type w)
    (ih : Completes .type w) : Completes .type (a :: (ls ++ ms ++ w)) := by
  intro ts v v' h
  rcases exists_of_unfuse_of_half h.eq ha with ⟨us, rfl, hus⟩ | ⟨t, y, us, rfl, hcut, ht, hy, hus⟩
  · have hfollows := h.behind (regularAll_cons.mp h.regular).2 hus
    exact reaches_reference ha hls hms hmut hw hfollows fun us ↦ ih us v v'
  · -- The second half begins the type, so that neither a lifetime nor a mark stands between.
    have hls : ls = [] := by
      cases hls with
      | none => rfl
      | one hl =>
        obtain ⟨rfl, -⟩ := List.cons.inj hus
        rw [isLifetime_of_spells hy] at hl
        cases hl
    have hms : ms = [] := by
      subst hls
      cases hms with
      | none => rfl
      | one hm =>
        obtain ⟨rfl, -⟩ := List.cons.inj hus
        rw [spells_eq hy] at hm
        cases hm
    subst hls hms
    have heq : unfuse (y :: us) = w ++ v := by
      rw [unfuse_cons, unfused_of_spells hy (by decide)]
      exact hus.symm
    have hregular : RegularAll (y :: us) :=
      regularAll_cons.mpr ⟨(regular_of_halves hcut).2, (regularAll_cons.mp h.regular).2⟩
    exact .of_ampersand ht hy (ih (y :: us) v v' (h.behind hregular heq))

theorem completes_pointer {a m : Token} (ha : a.spells "*" = true)
    (hm : m.spells "const" = true ∨ m.spells "mut" = true) (hw : Derives False .type w)
    (ih : Completes .type w) : Completes .type (a :: m :: w) := by
  intro ts v v' h
  obtain ⟨us, rfl, hmark⟩ := exists_of_unfuse_of_spells h.eq ha (by decide)
  obtain ⟨us, rfl, hus⟩ := exists_of_unfuse_of_spells_or hmark hm (by decide) (by decide)
  have hfollows := h.behind (regularAll_cons.mp (regularAll_cons.mp h.regular).2).2 hus
  exact .of_back (.pointer ha hm (hfollows.ne_nil (ne_nil_of_derives hw trivial)))
    (ih us v v' hfollows)

theorem completes_lone {t : Token} (ht : t.spells "!" = true ∨ t.spells "_" = true) :
    Completes .type [t] := by
  intro ts v v' h
  obtain ⟨us, rfl, hus⟩ := exists_of_unfuse_of_spells_or h.eq ht (by decide) (by decide)
  exact .of_done (.lone ht) (.inl hus)

theorem completes_fnPointer (hw : Derives False .function w) (ih : Completes .function w) :
    Completes .type w := by
  intro ts v v' h
  have hread : Reaches (.pointer [] ts) v v' := ih [] ts v v' h
  obtain ⟨x, xs, rfl, hx⟩ := starts_function hw
  obtain ⟨us, rfl, -⟩ : ∃ us, ts = x :: us ∧ unfuse us = xs ++ v := by
    rcases hx with hx | hx | hx
    · exact exists_of_unfuse_of_spells h.eq hx (by decide)
    · exact exists_of_unfuse_of_spells h.eq hx (by decide)
    · exact exists_of_unfuse_of_spells h.eq hx (by decide)
  exact .of_back (.fnPointer hx) hread

theorem completes_bounded {t : Token} (ht : t.spells "dyn" = true ∨ t.spells "impl" = true)
    (hw : Derives False .bound w) (ihbound : Completes .bound w) (ihplus : Completes .plus w') :
    Completes .type (t :: (w ++ w')) := by
  intro ts v v' h
  obtain ⟨hbare, habsorbs⟩ := ihplus v v' h.bare h.absorbs h.settled
  obtain ⟨us, rfl, hus⟩ := exists_of_unfuse_of_spells_or h.eq ht (by decide) (by decide)
  have hregular : RegularAll us := (regularAll_cons.mp h.regular).2
  have hfollows : Follows us w (w' ++ v) v' :=
    ⟨hregular, hus.trans (List.append_assoc _ _ _), hbare, habsorbs, h.settled⟩
  obtain ⟨ds, first, rest, hreads, hrestRegular, hrest⟩ :=
    (ihbound us _ v' hfollows).exists_reads id hregular
  have hbounds : Reaches (.bounds [t] first rest) v' v' := by
    rcases hrest with hrest | hrest
    · exact (habsorbs rest hrestRegular hrest).1 [t] first
    · exact (h.settled rest hrestRegular hrest).1 [t] first
  exact .of_part (.bounded ht (hfollows.ne_nil (ne_nil_of_derives hw trivial))) hreads
    hbounds.right

/-- The self type of a qualified path ends with an angle and an item. -/
theorem reaches_endsSelf {c : Call} {before : List Token} {e d t : Token}
    (he : e.spells ">" = true) (hd : d.spells "::" = true) (ht : t.isIdent = true)
    (hc : ∀ p, EndsSelf before ts p → Advances c p)
    (ih : ∀ before us, Follows us w v v' → Reaches (.tail before us) v v')
    (h : Follows ts (e :: d :: t :: w) v v') : Reaches c v v' := by
  rcases exists_of_unfuse_of_half h.eq he with ⟨us, rfl, hpath⟩ | ⟨_, y, _, -, -, -, hy, heq⟩
  · obtain ⟨us, rfl, hident⟩ := exists_of_unfuse_of_spells hpath hd (by decide)
    obtain ⟨us, rfl, hus⟩ := exists_of_unfuse_of_isKind hident (by decide) ht
    have hregular := (regularAll_cons.mp (regularAll_cons.mp
      (regularAll_cons.mp h.regular).2).2).2
    exact .of_go (hc _ (.item he hd ht)) (ih _ us (h.behind hregular hus))
  · obtain ⟨rfl, -⟩ := List.cons.inj heq
    rw [spells_eq hd] at hy
    cases hy

theorem completes_noTrait : Completes .trait [] := by
  intro before read ts us v v' e d t he hd ht ih h
  refine reaches_endsSelf he hd ht (fun p ↦ .noAs fun has ↦ ?_) ih h
  have hnone : startsWith ts ["as"] = false :=
    startsWith_of_unfuse (.spelling (by decide))
      (h.eq ▸ startsWith_false_of_spells he (by decide))
  rw [hnone] at has
  cases has

theorem completes_trait {a : Token} (ha : a.spells "as" = true) (hw : Derives False .path w)
    (ih : Completes .path w) : Completes .trait (a :: w) := by
  intro before read ts us v v' e d t he hd ht ihtail h
  obtain ⟨vs, rfl, hvs⟩ := exists_of_unfuse_of_spells h.eq ha (by decide)
  have hregular : RegularAll vs := (regularAll_cons.mp h.regular).2
  have hfollows : Follows vs w (e :: d :: t :: (us ++ v)) (e :: d :: t :: (us ++ v)) :=
    .of_no_plus hregular (by simpa using hvs) (bare_cons he (by decide))
      (startsWith_false_of_spells he (by decide))
  obtain ⟨ds, first, rest, hreads, hrestRegular, hrest⟩ :=
    (ih vs _ _ hfollows).exists_reads id hregular
  have hend : Reaches (.selfEnd (before ++ read ++ [a]) first rest) v v' :=
    reaches_endsSelf he hd ht (fun p ↦ .selfEnd) ihtail
      (h.behind hrestRegular (or_self_iff.mp hrest))
  exact .of_part (.asPath ha (hfollows.ne_nil (ne_nil_of_derives hw trivial))) hreads hend

/-- A qualified path opens with an angle that may be half of a token, and its self type ends at an
item. -/
theorem completes_qualified {o e d t : Token} (ho : o.spells "<" = true)
    (hw : Derives False .type w) (ihtype : Completes .type w) (htrait : Derives False .trait w')
    (ihtrait : Completes .trait w') (he : e.spells ">" = true) (hd : d.spells "::" = true)
    (ht : t.isIdent = true) (ihtail : Completes .tail us) :
    Completes .type (o :: (w ++ w' ++ e :: d :: t :: us)) := by
  intro ts v v' h
  have hself : ∀ angle vs, RegularAll vs → unfuse vs = w ++ (w' ++ e :: d :: t :: us) ++ v →
      Reaches (.self angle vs) v v' := by
    intro angle vs hregular hvs
    have hfront : Bare (w' ++ e :: d :: t :: us ++ v) ∧
        startsWith (w' ++ e :: d :: t :: us ++ v) ["+"] = false := by
      cases htrait with
      | noTrait =>
        exact ⟨bare_cons he (by decide), startsWith_false_of_spells he (by decide)⟩
      | trait ha =>
        exact ⟨bare_cons ha (by decide), startsWith_false_of_spells ha (by decide)⟩
    have hfollows : Follows vs w _ _ :=
      .of_no_plus hregular (hvs.trans (List.append_assoc _ _ _)) hfront.1 hfront.2
    obtain ⟨ds, first, rest, hreads, hrestRegular, hrest⟩ :=
      (ihtype vs _ _ hfollows).exists_reads id hregular
    exact .of_part .self hreads (ihtrait angle first rest us v v' e d t he hd ht
      (fun before us ↦ ihtail before us v v') (h.behind hrestRegular (or_self_iff.mp hrest)))
  have heq : unfuse ts = o :: (w ++ (w' ++ e :: d :: t :: us) ++ v) := by simpa using h.eq
  rcases opening_angle h.regular heq ho with ⟨vs, rfl, hregular, hvs⟩ |
    ⟨s, y, vs, rfl, hs, hcut, hregular, -, hvs⟩
  · have hread : Reaches (.self [o] vs) v v' := hself [o] vs hregular hvs
    have hne : vs ≠ [] :=
      ne_nil_of_unfuse_append (hvs.trans (List.append_assoc _ _ _)) (ne_nil_of_derives hw trivial)
    exact .of_back (.qualified ho hne) hread
  · exact .of_back (.qualifiedFused hs hcut) (hself [o] (y :: vs) hregular hvs)

/-- A path is a type if no word is in front that begins another one. -/
theorem completes_typePath (hw : Derives False .path w) (ih : Completes .path w)
    (hwords : ∀ s ∈ typeWords, startsWith w [.spelling s] = false) : Completes .type w := by
  intro ts v v' h
  have hread : Reaches (.path ts) v v' := ih ts v v' h
  obtain ⟨x, us, w', rfl, rfl, hx⟩ := exists_of_path hw h.eq
  refine .of_back (.typePath hx fun s hs ↦ ?_) hread
  by_cases hword : s ∈ typeWords
  · have hfront := hwords s hword
    rwa [startsWith_cons, startsWith_nil, Bool.and_true] at hfront
  · rcases hx with hx | hx
    · rw [spells_eq hx, decide_eq_false_iff_not]
      rintro rfl
      revert hs
      decide
    · have hmark : isMark s = true := by
        revert s
        decide
      exact (regularAll_cons.mp h.regular).1.spells_eq_false hx hmark

end

/-! ### The language -/

/-- Every sequence of the language is read. -/
theorem Derives.completes {sym : Symbol} {w : List Token} (h : Derives False sym w) :
    Completes sym w := by
  induction h with
  | path hcs ht _ ih => exact completes_path hcs ht ih
  | called _ _ ihinner ihresult => exact completes_called ihinner ihresult
  | plain hafter ih => exact completes_plain hafter ih
  | empty hcs ho he hafter ih => exact completes_empty hcs ho he hafter ih
  | angles hcs ho hparams he hafter ihparams ih =>
    exact completes_angles hcs ho hparams ihparams he hafter ih
  | pathEnd => exact completes_pathEnd
  | segment hc ht _ ih => exact completes_segment hc ht ih
  | lastParam _ hms ih => exact completes_lastParam ih hms
  | moreParams _ hm hparams ihparam ihparams =>
    exact completes_moreParams ihparam hm hparams ihparams
  | single ht => exact completes_single ht
  | negative hm hl => exact completes_negative hm hl
  | binding ht he htype ih => exact completes_binding ht he htype ih
  | typeParam hsum ih => exact completes_typeParam hsum ih
  | noResult => exact completes_noResult
  | result ha htype ih => exact completes_result ha htype ih
  | noTypes => exact fun ts _ h ↦ reaches_noElements h
  | lastType htype ih => exact fun ts ↦ completes_lastElement (s := .fnArgs) htype ih
  | moreTypes htype hm _ ih ihmore =>
    exact fun ts ↦ completes_moreElements (s := .fnArgs) htype ih hm ihmore
  | noSums => exact fun ts _ h ↦ reaches_noElements h
  | lastSum hsum ih => exact fun ts ↦ completes_lastElement (s := .typeList) hsum ih
  | moreSums hsum hm _ ih ihmore =>
    exact fun ts ↦ completes_moreElements (s := .typeList) hsum ih hm ihmore
  | sum _ _ ihtype ihplus => exact completes_sum ihtype ihplus
  | noPlus => exact completes_noPlus
  | plus ha hbound _ ihbound ihplus => exact completes_plus ha hbound ihbound ihplus
  | simpleBound ht => exact completes_simpleBound ht
  | pathBound hqs hpath ih => exact completes_pathBound hqs hpath ih
  | tuple _ ih => exact completes_tuple ih
  | slice hinner ih => exact completes_slice hinner ih
  | array htype hm hus ih => exact completes_array htype ih hm hus
  | reference ha hls hms hmut htype ih =>
    exact completes_reference ha hls hms (fun h ↦ (hmut h).resolve_left id) htype ih
  | pointer ha hm htype ih => exact completes_pointer ha hm htype ih
  | lone ht => exact completes_lone ht
  | fnPointer h ih => exact completes_fnPointer h ih
  | bounded ht hbound _ ihbound ihplus => exact completes_bounded ht hbound ihbound ihplus
  | qualified ho htype htrait he hc ht _ ihtype ihtrait ihtail =>
    exact completes_qualified ho htype ihtype htrait ihtrait he hc ht ihtail
  | typePath hpath hwords ih => exact completes_typePath hpath ih hwords
  | unsafeFn ht _ ih => exact completes_unsafeFn ht ih
  | externFn ht hls h ih => exact completes_externFn ht hls h ih
  | fn hf _ _ ihinner ihresult => exact completes_fn hf ihinner ihresult
  | noTrait => exact completes_noTrait
  | trait ha hpath ih => exact completes_trait ha hpath ih

end Expander.Grammar
