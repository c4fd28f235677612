import Expander.Proofs.Grammar.Costs
import Expander.Proofs.Lexing.Provenance

/-!
# Every call comes to an end

On regular tokens a call always has a step to take (`advances_total`): no shape of arguments is
without a rule, a fault has a token to blame, and what is to be cut or looked into can be. A step
keeps this so (`sound_of_advances`), and what comes next costs less (`affords_of_advances`). So
every call reads its tokens to an end, and comes to a result or to a fault (`exists_reads`).
-/

set_option autoImplicit false

namespace Expander

/-! ### Regular tokens -/

/-- Sequences of regular tokens. -/
def RegularAll (ts : List Token) : Prop := ∀ t ∈ ts, t.Regular

section

variable {t : Token} {ts us : List Token} {s : String} {d : Delimiter}

theorem regularAll_cons : RegularAll (t :: ts) ↔ t.Regular ∧ RegularAll ts := List.forall_mem_cons

theorem regularAll_append : RegularAll (ts ++ us) ↔ RegularAll ts ∧ RegularAll us :=
  List.forall_mem_append

/-- Tokens of a regular sequence make a regular one in any order. -/
theorem RegularAll.of_mem (h : RegularAll ts) (hsub : ∀ u ∈ us, u ∈ ts) : RegularAll us :=
  fun u hu ↦ h u (hsub u hu)

/-- An identifier of the lexer is spelled as no mark. -/
theorem Token.Regular.spells_eq_false (h : t.Regular) (hident : t.isIdent = true)
    (hmark : isMark s = true) : t.spells s = false := by
  rw [Bool.eq_false_iff]
  intro hs
  obtain ⟨span, rfl⟩ := h.eq_punct hmark hs
  cases hident

/-- Joined angles can be cut, as two characters make them. -/
theorem Token.Regular.exists_halves (h : t.Regular) (ht : t.isJoined = true) :
    ∃ a b, t.halves? = some (a, b) := by
  rcases isJoined_iff.mp ht with ht | ht
  · obtain ⟨span, rfl⟩ := h.eq_punct (by decide) ht
    exact ⟨_, _, rfl⟩
  · obtain ⟨span, rfl⟩ := h.eq_punct (by decide) ht
    exact ⟨_, _, rfl⟩

/-- What looks like a group has tokens inside, and these are regular. -/
theorem Token.Regular.exists_stream (h : t.Regular) (hd : t.delimiter? = some d) :
    ∃ span stream, t = .group d span stream ∧ RegularAll stream := by
  cases h with
  | leaf => cases hd
  | @group d' span stream hstream =>
    cases hd
    exact ⟨span, stream, rfl, hstream⟩

/-- The halves of a token are as regular as any punctuation. -/
theorem Token.regular_of_halves {a b : Token} (hcut : t.halves? = some (a, b)) :
    a.Regular ∧ b.Regular := by
  obtain ⟨text, span, c, e, -, -, rfl, rfl⟩ := halves?_eq_some_iff.mp hcut
  exact ⟨.leaf nofun, .leaf nofun⟩

/-- What is left is regular, also where it begins with a half. -/
theorem Takes.regularAll {first rest : List Token} (h : Takes ts first rest)
    (hts : RegularAll ts) : RegularAll rest := by
  induction h with
  | nil => exact hts
  | keep _ ih => exact ih (regularAll_cons.mp hts).2
  | cut _ _ _ ih => exact ih (regularAll_cons.mp hts).2
  | half _ hcut =>
    exact regularAll_cons.mpr ⟨(Token.regular_of_halves hcut).2, (regularAll_cons.mp hts).2⟩

/-- Where patterns stand at the front, there is a first token for the first of them. -/
theorem exists_of_startsWith {p : Pattern} {ps : List Pattern}
    (h : startsWith ts (p :: ps) = true) :
    ∃ t us, ts = t :: us ∧ p.holds t = true ∧ startsWith us ps = true := by
  cases ts with
  | nil => cases h
  | cons t us =>
    rw [startsWith_cons, Bool.and_eq_true] at h
    exact ⟨t, us, rfl, h⟩

end

namespace Grammar

/-! ### Calls that have an answer -/

/-- A call with a token to blame where the input ends too early. -/
def Call.HasBlame : Call → Prop
  | more _ read _ => read ≠ []
  | pointer before ts => before ≠ [] ∨ ts ≠ []
  | self angle _ => angle ≠ []
  | afterSelf before read _ | selfEnd before read _ => before ++ read ≠ []
  | _ => True

/-- A call on regular tokens that has a token to blame. -/
structure Call.Sound (c : Call) : Prop where
  input : RegularAll c.input
  ahead : RegularAll c.ahead
  blame : c.HasBlame

section

variable {before read cs ts : List Token}

theorem exists_getLast? (h : ts ≠ []) : ∃ t, ts.getLast? = some t :=
  ⟨_, List.getLast?_eq_some_getLast h⟩

/-- A path has a step for every first token, and for none. The lemmas below say the same of the
other calls, by the cases of the rule. -/
theorem advances_path (hts : RegularAll ts) : ∃ p, Advances (.path ts) p := by
  rcases ts with _ | ⟨t, ts⟩
  · exact ⟨_, .noPath⟩
  by_cases ht : t.isIdent = true
  · exact ⟨_, .plain ht ((hts t List.mem_cons_self).spells_eq_false ht (by decide))⟩
  rw [Bool.not_eq_true] at ht
  by_cases hc : t.spells "::" = true
  · rcases ts with _ | ⟨u, us⟩
    · exact ⟨_, .noIdent ht fun _ ↦ rfl⟩
    cases hu : u.isIdent with
    | true => exact ⟨_, .rooted hc hu⟩
    | false => exact ⟨_, .rootedNoIdent hc ht hu⟩
  · exact ⟨_, .noIdent ht fun h ↦ absurd h hc⟩

/-- An opening angle is followed by a closing one or by a parameter. -/
theorem advances_opening {o : Token} (hcs : Maybe (Token.spells "::") cs)
    (ho : o.spells "<" = true) (hts : RegularAll ts) (hne : ts ≠ []) :
    ∃ p, Advances (.tail before (cs ++ o :: ts)) p := by
  cases hone : startsWith ts [">"] with
  | true =>
    obtain ⟨e, us, rfl, he, -⟩ := exists_of_startsWith hone
    exact ⟨_, .empty hcs ho he⟩
  | false =>
    cases htwo : startsWith ts [">>"] with
    | true =>
      obtain ⟨e, us, rfl, he, -⟩ := exists_of_startsWith htwo
      have hjoined : e.isJoined = true := Token.isJoined_iff.mpr (.inl he)
      obtain ⟨e₁, e₂, hcut⟩ := (hts e List.mem_cons_self).exists_halves hjoined
      exact ⟨_, .emptyFused hcs ho he hcut⟩
    | false => exact ⟨_, .opening hcs ho hne hone htwo⟩

/-- Two opening angles in one are cut, if a parameter can follow. -/
theorem advances_openingFused {o : Token} (hcs : Maybe (Token.spells "::") cs)
    (ho : o.spells "<<" = true) (hregular : o.Regular) (hne : cs = [] ∨ ts ≠ []) :
    ∃ p, Advances (.tail before (cs ++ o :: ts)) p := by
  have hjoined : o.isJoined = true := Token.isJoined_iff.mpr (.inr ho)
  obtain ⟨o₁, o₂, hcut⟩ := hregular.exists_halves hjoined
  exact ⟨_, .openingFused hcs ho hcut hne⟩

/-- What may follow an identifier is tried in the order of the rule, and each pattern that fails is
noted for the step that needs it. -/
theorem advances_tail (hts : RegularAll ts) : ∃ p, Advances (.tail before ts) p := by
  by_cases hone : startsWith ts ["<"] = true
  · obtain ⟨o, us, rfl, ho, -⟩ := exists_of_startsWith hone
    rcases eq_or_ne us [] with rfl | hne
    · exact ⟨_, .openingLast ho⟩
    · exact advances_opening .none ho (regularAll_cons.mp hts).2 hne
  by_cases htwo : startsWith ts ["<<"] = true
  · obtain ⟨o, us, rfl, ho, -⟩ := exists_of_startsWith htwo
    exact advances_openingFused .none ho (regularAll_cons.mp hts).1 (.inl rfl)
  by_cases hparen : startsWith ts [.group .paren] = true
  · obtain ⟨t, us, rfl, ht, -⟩ := exists_of_startsWith hparen
    obtain ⟨span, stream, rfl, -⟩ :=
      (regularAll_cons.mp hts).1.exists_stream (of_decide_eq_true ht)
    exact ⟨_, .fnArgs⟩
  by_cases hturbo : startsWith ts ["::", "<"] = true ∧ ts.length ≠ 2
  · obtain ⟨c, os, rfl, hc, hos⟩ := exists_of_startsWith hturbo.1
    obtain ⟨o, us, rfl, ho, -⟩ := exists_of_startsWith hos
    refine advances_opening (.one hc) ho ?_ (by simpa using hturbo.2)
    exact (regularAll_cons.mp (regularAll_cons.mp hts).2).2
  by_cases hturboFused : startsWith ts ["::", "<<"] = true ∧ ts.length ≠ 2
  · obtain ⟨c, os, rfl, hc, hos⟩ := exists_of_startsWith hturboFused.1
    obtain ⟨o, us, rfl, ho, -⟩ := exists_of_startsWith hos
    refine advances_openingFused (.one hc) ho ?_ (.inr (by simpa using hturboFused.2))
    exact (regularAll_cons.mp (regularAll_cons.mp hts).2).1
  · refine ⟨_, .noArgs ?_ ?_ ?_ ?_ ?_⟩
    · simpa using hone
    · simpa using htwo
    · simpa using hparen
    · exact not_and_not_right.mp hturbo
    · exact not_and_not_right.mp hturboFused

theorem advances_after : ∃ p, Advances (.after before ts) p := by
  by_cases h : startsWith ts ["::"] = true ∧ ts.length ≠ 1
  · obtain ⟨c, us, rfl, hc, -⟩ := exists_of_startsWith h.1
    obtain ⟨t, us, rfl⟩ := List.exists_cons_of_ne_nil (l := us) (by simpa using h.2)
    cases ht : t.isIdent with
    | true => exact ⟨_, .segment hc ht⟩
    | false => exact ⟨_, .segmentNoIdent hc ht⟩
  · exact ⟨_, .pathEnd (not_and_not_right.mp h)⟩

/-- A parameter is followed by a closing angle, with a comma before it or without, or by a comma and
a further parameter. -/
theorem advances_close {ms : List Token} {e : Token} (hms : Maybe (Token.spells ",") ms)
    (he : e.spells ">" = true ∨ e.spells ">>" = true) (hregular : e.Regular) :
    ∃ p, Advances (.more before read (ms ++ e :: ts)) p := by
  rcases he with he | he
  · exact ⟨_, .close hms he⟩
  · have hjoined : e.isJoined = true := Token.isJoined_iff.mpr (.inl he)
    obtain ⟨e₁, e₂, hcut⟩ := hregular.exists_halves hjoined
    exact ⟨_, .closeFused hms he hcut⟩

/-- Behind a parameter the list is closed, goes on, or is at fault. Where nothing follows, the last
token of the parameter is to blame, and there is one. -/
theorem advances_more (hts : RegularAll ts) (hread : read ≠ []) :
    ∃ p, Advances (.more before read ts) p := by
  rcases ts with _ | ⟨t, ts⟩
  · obtain ⟨t, ht⟩ := exists_getLast? hread
    exact ⟨_, .leftOpen ht⟩
  obtain ⟨ht, hts⟩ := regularAll_cons.mp hts
  by_cases hclose : t.spells ">" = true ∨ t.spells ">>" = true
  · exact advances_close .none hclose ht
  by_cases hcomma : t.spells "," = true ∧ ts ≠ []
  · obtain ⟨e, us, rfl⟩ := List.exists_cons_of_ne_nil hcomma.2
    by_cases he : e.spells ">" = true ∨ e.spells ">>" = true
    · exact advances_close (.one hcomma.1) he (regularAll_cons.mp hts).1
    · refine ⟨_, .comma hcomma.1 hcomma.2 ?_ ?_⟩ <;> simp_all
  · refine ⟨_, .noComma ?_ ?_ ?_⟩
    · simp_all
    · simp_all
    · exact not_and_not_right.mp hcomma

/-- A parameter is a type where it is nothing else. -/
theorem advances_param : ∃ p, Advances (.param ts) p := by
  rcases ts with _ | ⟨t, ts⟩
  · exact ⟨_, .noParam⟩
  by_cases hsingle : t.isLifetime = true ∨ t.isLiteral = true ∨ t.delimiter? = some .brace
  · exact ⟨_, .single hsingle⟩
  by_cases hbinding : startsWith (t :: ts) [ident, "="] = true ∧ ts.length ≠ 1
  · obtain ⟨_, es, heq, ht, hes⟩ := exists_of_startsWith hbinding.1
    cases heq
    obtain ⟨e, us, rfl, he, -⟩ := exists_of_startsWith hes
    exact ⟨_, .binding ht he (by simpa using hbinding.2)⟩
  by_cases hnegative : startsWith (t :: ts) ["-", literal] = true
  · obtain ⟨_, ls, heq, ht, hls⟩ := exists_of_startsWith hnegative
    cases heq
    obtain ⟨l, us, rfl, hl, -⟩ := exists_of_startsWith hls
    exact ⟨_, .negative ht hl⟩
  · simp only [not_or] at hsingle
    refine ⟨_, .typeParam ?_ ?_ hsingle.2.2 ?_ ?_⟩
    · simpa using hsingle.1
    · simpa using hsingle.2.1
    · exact not_and_not_right.mp hbinding
    · simpa using hnegative

theorem advances_arrow : ∃ p, Advances (.arrow before ts) p := by
  cases h : startsWith ts ["->"] with
  | true =>
    obtain ⟨a, us, rfl, ha, -⟩ := exists_of_startsWith h
    rcases eq_or_ne us [] with rfl | hne
    · exact ⟨_, .arrowLast ha⟩
    · exact ⟨_, .arrow ha hne⟩
  | false => exact ⟨_, .noArrow h⟩

theorem advances_list {l : Sequence} : ∃ p, Advances (.list l ts) p := by
  rcases eq_or_ne ts [] with rfl | hne
  · exact ⟨_, .listEnd⟩
  · cases l with
    | fnArgs => exact ⟨_, .listType hne⟩
    | typeList => exact ⟨_, .listSummed hne⟩

theorem advances_separator {l : Sequence} : ∃ p, Advances (.separator l read ts) p := by
  rcases ts with _ | ⟨t, ts⟩
  · exact ⟨_, .separatorEnd⟩
  · cases ht : t.spells "," with
    | true => exact ⟨_, .separator ht⟩
    | false => exact ⟨_, .noSeparator ht⟩

/-- What stands between an ampersand and its type: a lifetime and `mut`, where they are there. -/
theorem exists_reference (ts : List Token) : ∃ ls ms us, ts = ls ++ ms ++ us ∧
    Maybe Token.isLifetime ls ∧ Maybe (Token.spells "mut") ms ∧
    (ls = [] → startsWith (ms ++ us) [lifetime] = false) ∧
    (ms = [] → startsWith us ["mut"] = false) := by
  have hmut : ∀ us : List Token, ∃ ms vs, us = ms ++ vs ∧ Maybe (Token.spells "mut") ms ∧
      (ms = [] → startsWith vs ["mut"] = false) := by
    intro us
    cases hm : startsWith us ["mut"] with
    | true =>
      obtain ⟨m, vs, rfl, hm, -⟩ := exists_of_startsWith hm
      exact ⟨[m], vs, rfl, .one hm, nofun⟩
    | false => exact ⟨[], us, rfl, .none, fun _ ↦ hm⟩
  cases hl : startsWith ts [lifetime] with
  | true =>
    obtain ⟨l, us, rfl, hlifetime, -⟩ := exists_of_startsWith hl
    obtain ⟨ms, vs, rfl, hms, hnone⟩ := hmut us
    exact ⟨[l], ms, vs, rfl, .one hlifetime, hms, nofun, hnone⟩
  | false =>
    obtain ⟨ms, vs, rfl, hms, hnone⟩ := hmut ts
    exact ⟨[], ms, vs, rfl, .none, hms, fun _ ↦ hl, hnone⟩

/-- A type that begins with one of the spellings of which a type is told. -/
theorem advances_typeStart {t : Token} {s : String} (hs : s ∈ typeStarts)
    (ht : t.spells s = true) (hregular : t.Regular) : ∃ p, Advances (.type (t :: ts)) p := by
  have hreference : t.spells "&" = true ∨ t.spells "&&" = true →
      ∃ p, Advances (.type (t :: ts)) p := by
    intro ht
    obtain ⟨ls, ms, us, rfl, hls, hms, hnoLifetime, hnoMut⟩ := exists_reference ts
    rcases eq_or_ne us [] with rfl | hne
    · obtain ⟨last, hlast⟩ := exists_getLast? (List.cons_ne_nil t (ls ++ ms))
      rw [List.append_nil]
      exact ⟨_, .referenceLast ht hls hms hlast⟩
    · exact ⟨_, .reference ht hls hms hnoLifetime hnoMut hne⟩
  have hbounded : t.spells "dyn" = true ∨ t.spells "impl" = true →
      ∃ p, Advances (.type (t :: ts)) p := by
    intro ht
    rcases eq_or_ne ts [] with rfl | hne
    · exact ⟨_, .boundedLast ht⟩
    · exact ⟨_, .bounded ht hne⟩
  simp only [typeStarts, List.mem_cons, List.not_mem_nil, or_false] at hs
  rcases hs with rfl | rfl | rfl | rfl | rfl | rfl | rfl | rfl | rfl | rfl | rfl | rfl
  · exact hreference (.inl ht)
  · exact hreference (.inr ht)
  · rcases ts with _ | ⟨m, us⟩
    · exact ⟨_, .pointerOnly ht⟩
    by_cases hm : m.spells "const" = true ∨ m.spells "mut" = true
    · rcases eq_or_ne us [] with rfl | hne
      · exact ⟨_, .pointerLast ht hm⟩
      · exact ⟨_, .pointer ht hm hne⟩
    · rw [not_or, Bool.not_eq_true, Bool.not_eq_true] at hm
      exact ⟨_, .pointerNoMark ht hm.1 hm.2⟩
  · exact ⟨_, .lone (.inl ht)⟩
  · exact ⟨_, .lone (.inr ht)⟩
  · exact ⟨_, .fnPointer (.inl ht)⟩
  · exact ⟨_, .fnPointer (.inr (.inl ht))⟩
  · exact ⟨_, .fnPointer (.inr (.inr ht))⟩
  · exact hbounded (.inl ht)
  · exact hbounded (.inr ht)
  · rcases eq_or_ne ts [] with rfl | hne
    · exact ⟨_, .qualifiedLast ht⟩
    · exact ⟨_, .qualified ht hne⟩
  · have hjoined : t.isJoined = true := Token.isJoined_iff.mpr (.inr ht)
    obtain ⟨o₁, o₂, hcut⟩ := hregular.exists_halves hjoined
    exact ⟨_, .qualifiedFused ht hcut⟩

/-- A type is told by its first token, and a token that begins none is at fault. -/
theorem advances_type (hts : RegularAll ts) : ∃ p, Advances (.type ts) p := by
  rcases ts with _ | ⟨t, ts⟩
  · exact ⟨_, .noType⟩
  obtain ⟨ht, -⟩ := regularAll_cons.mp hts
  by_cases hparen : t.delimiter? = some .paren
  · obtain ⟨span, inner, rfl, -⟩ := ht.exists_stream hparen
    exact ⟨_, .tuple⟩
  by_cases hbracket : t.delimiter? = some .bracket
  · obtain ⟨span, inner, rfl, -⟩ := ht.exists_stream hbracket
    rcases eq_or_ne inner [] with rfl | hne
    · exact ⟨_, .bracketedEmpty⟩
    · exact ⟨_, .bracketed hne⟩
  by_cases hstart : ∃ s ∈ typeStarts, t.spells s = true
  · obtain ⟨s, hs, hspells⟩ := hstart
    exact advances_typeStart hs hspells ht
  have hnone : ∀ s ∈ typeStarts, t.spells s = false := by
    intro s hs
    rw [Bool.eq_false_iff]
    exact fun hspells ↦ hstart ⟨s, hs, hspells⟩
  by_cases hpath : t.spells "::" = true ∨ t.isIdent = true
  · exact ⟨_, .typePath hpath hnone⟩
  · rw [not_or, Bool.not_eq_true, Bool.not_eq_true] at hpath
    exact ⟨_, .noTypeStart hpath.2 hpath.1 hnone hparen hbracket⟩

theorem advances_summands : ∃ p, Advances (.summands before ts) p := by
  cases h : startsWith ts ["+"] with
  | true =>
    obtain ⟨a, us, rfl, ha, -⟩ := exists_of_startsWith h
    rcases eq_or_ne us [] with rfl | hne
    · exact ⟨_, .plusLast ha⟩
    · exact ⟨_, .plus ha hne⟩
  | false => exact ⟨_, .noPlus h⟩

theorem advances_bounds : ∃ p, Advances (.bounds before read ts) p := by
  cases h : startsWith ts ["+"] with
  | true =>
    obtain ⟨a, us, rfl, ha, -⟩ := exists_of_startsWith h
    rcases eq_or_ne us [] with rfl | hne
    · exact ⟨_, .boundPlusLast ha⟩
    · exact ⟨_, .boundPlus ha hne⟩
  | false => exact ⟨_, .boundNoPlus h⟩

theorem advances_bound : ∃ p, Advances (.bound ts) p := by
  rcases ts with _ | ⟨t, ts⟩
  · exact ⟨_, .noBound⟩
  by_cases hsimple : t.isLifetime = true ∨ t.delimiter? = some .paren
  · exact ⟨_, .simpleBound hsimple⟩
  by_cases hq : t.spells "?" = true
  · rcases eq_or_ne ts [] with rfl | hne
    · exact ⟨_, .maybeBoundLast hq⟩
    · exact ⟨_, .maybeBound hq hne⟩
  rw [Bool.not_eq_true] at hq
  by_cases hpath : t.spells "::" = true ∨ t.isIdent = true
  · exact ⟨_, .pathBound hpath hq⟩
  · rw [not_or, Bool.not_eq_true] at hsimple
    rw [not_or, Bool.not_eq_true, Bool.not_eq_true] at hpath
    exact ⟨_, .noBoundStart hsimple.1 hsimple.2 hq hpath.1 hpath.2⟩

theorem advances_arrayEnd {group behind : List Token} :
    ∃ p, Advances (.arrayEnd group behind read ts) p := by
  rcases ts with _ | ⟨t, ts⟩
  · exact ⟨_, .arrayEnd (.inl rfl)⟩
  by_cases h : t.spells ";" = true ∧ ts ≠ []
  · refine ⟨_, .arrayEnd (.inr ⟨?_, ?_⟩)⟩
    · simpa using h.1
    · simpa [List.length_pos_iff] using h.2
  · exact ⟨_, .noArrayEnd (not_and_not_right.mp h)⟩

/-- A function pointer that breaks off is blamed on what was read of it, and something was. -/
theorem advances_pointer (hts : RegularAll ts) (hblame : before ≠ [] ∨ ts ≠ []) :
    ∃ p, Advances (.pointer before ts) p := by
  rcases ts with _ | ⟨t, ts⟩
  · obtain ⟨t, ht⟩ := exists_getLast? (hblame.resolve_right fun h ↦ h rfl)
    exact ⟨_, .pointerEmpty ht⟩
  obtain ⟨-, hts⟩ := regularAll_cons.mp hts
  by_cases hmark : t.spells "unsafe" = true
  · exact ⟨_, .unsafeFn hmark⟩
  by_cases habi : t.spells "extern" = true
  · cases hl : startsWith ts [literal] with
    | true =>
      obtain ⟨l, us, rfl, hl, -⟩ := exists_of_startsWith hl
      exact ⟨_, .externFn habi (.one hl) nofun⟩
    | false => exact ⟨_, .externFn habi .none fun _ ↦ hl⟩
  rw [Bool.not_eq_true] at hmark habi
  by_cases hfn : t.spells "fn" = true ∧ ts ≠ []
  · obtain ⟨u, us, rfl⟩ := List.exists_cons_of_ne_nil hfn.2
    by_cases hparen : u.delimiter? = some .paren
    · obtain ⟨span, inner, rfl, -⟩ := (regularAll_cons.mp hts).1.exists_stream hparen
      exact ⟨_, .fn hfn.1⟩
    · exact ⟨_, .fnNoArgs hfn.1 hparen⟩
  · exact ⟨_, .noFn hmark habi (not_and_not_right.mp hfn)⟩

/-- Behind a self type there is an item, or a token to blame. -/
theorem endsSelf_total (hbefore : before ≠ []) : ∃ p, EndsSelf before ts p := by
  rcases ts with _ | ⟨e, ts⟩
  · obtain ⟨t, ht⟩ := exists_getLast? hbefore
    exact ⟨_, .unclosed ht⟩
  by_cases hitem : startsWith (e :: ts) [">", "::"] = true ∧ ts.length ≠ 1
  · obtain ⟨_, cs, heq, he, hcs⟩ := exists_of_startsWith hitem.1
    cases heq
    obtain ⟨c, us, rfl, hc, -⟩ := exists_of_startsWith hcs
    obtain ⟨t, us, rfl⟩ := List.exists_cons_of_ne_nil (l := us) (by simpa using hitem.2)
    cases ht : t.isIdent with
    | true => exact ⟨_, .item he hc ht⟩
    | false => exact ⟨_, .noIdent he hc ht⟩
  by_cases he : e.spells ">" = true ∨ e.spells ">>" = true
  · obtain ⟨t, ht⟩ := exists_getLast? (List.cons_ne_nil e (ts.take 1))
    exact ⟨_, .noItem he (not_and_not_right.mp hitem) ht⟩
  · rw [not_or, Bool.not_eq_true, Bool.not_eq_true] at he
    exact ⟨_, .noAngle he.1 he.2⟩

theorem advances_afterSelf (hblame : before ++ read ≠ []) :
    ∃ p, Advances (.afterSelf before read ts) p := by
  by_cases h : startsWith ts ["as"] = true ∧ ts.length ≠ 1
  · obtain ⟨a, us, rfl, ha, -⟩ := exists_of_startsWith h.1
    exact ⟨_, .asPath ha (by simpa using h.2)⟩
  · have hend : ∃ p, EndsSelf (before ++ read) ts p := endsSelf_total hblame
    obtain ⟨p, hp⟩ := hend
    exact ⟨p, .noAs (not_and_not_right.mp h) hp⟩

end

/-- A sound call takes a step, and if it faults it blames a token. -/
theorem advances_total {c : Call} (h : c.Sound) : ∃ p, Advances c p := by
  obtain ⟨hinput, -, hblame⟩ := h
  cases c with
  | path => exact advances_path hinput
  | tail => exact advances_tail hinput
  | after => exact advances_after
  | more => exact advances_more hinput hblame
  | param => exact advances_param
  | arrow => exact advances_arrow
  | list => exact advances_list
  | separator => exact advances_separator
  | type => exact advances_type hinput
  | summed => exact ⟨_, .summed⟩
  | summands => exact advances_summands
  | summand => exact ⟨_, .summand⟩
  | bounds => exact advances_bounds
  | bound => exact advances_bound
  | arrayEnd => exact advances_arrayEnd
  | pointer => exact advances_pointer hinput hblame
  | self => exact ⟨_, .self⟩
  | afterSelf => exact advances_afterSelf hblame
  | selfEnd =>
    obtain ⟨p, hp⟩ := endsSelf_total hblame
    exact ⟨p, .selfEnd hp⟩
  | back => exact ⟨_, .back⟩

/-! ### What a step leaves -/

/-- What a call gives back and leaves lets the calls behind it go on. -/
def Call.Leaves (c : Call) (first rest : List Token) : Prop :=
  (c.Looks ∨ c.Conserves first rest) ∧ RegularAll rest

/-- A step of a sound call leads to sound calls. -/
def Plan.Sound : Plan → Prop
  | .fault _ | .done .. => True
  | .go c => c.Sound
  | .part c next => c.Sound ∧ ∀ first rest, c.Leaves first rest → (next first rest).Sound

/-- A call that takes from the tokens it goes on with is sound if these are regular. -/
theorem sound_of_input {c : Call} (h : RegularAll c.input) (hahead : c.ahead = c.input)
    (hblame : c.HasBlame) : c.Sound :=
  ⟨h, hahead ▸ h, hblame⟩

/-- A call that goes on from a sound one is sound, as what is ahead of it was ahead before. -/
theorem Call.Continues.sound {c c' : Call} (h : c.Continues c') (hc : c.Sound)
    (hinput : RegularAll c'.input) (hblame : c'.HasBlame) : c'.Sound := by
  obtain ⟨-, taken, -, htakes, -⟩ := h
  exact ⟨hinput, htakes.regularAll hc.ahead, hblame⟩

/-- What comes behind two opening angles that were cut begins with the second. -/
theorem regularAll_of_cut {o o₁ o₂ : Token} {ts us : List Token}
    (hcut : o.halves? = some (o₁, o₂)) (hts : RegularAll ts) (hsub : ∀ u ∈ us, u ∈ ts) :
    RegularAll (o₂ :: us) :=
  regularAll_cons.mpr ⟨(Token.regular_of_halves hcut).2, hts.of_mem hsub⟩

/-- The tokens of a group that is among regular ones are regular. -/
theorem regularAll_stream {d : Delimiter} {span : Option Span} {inner ts : List Token}
    (hts : RegularAll ts) (hmem : Token.group d span inner ∈ ts) : RegularAll inner := by
  cases hts _ hmem with
  | group h => exact h

/-- What has to take a token gives one back. -/
theorem Call.Leaves.ne_nil {c : Call} {first rest : List Token} (h : c.Leaves first rest)
    (hlooks : ¬ c.Looks) (hc : c.Consumes) : first ≠ [] := by
  obtain ⟨taken, rfl, -, htaken⟩ := h.1.resolve_left hlooks
  simp [htaken hc]

/-- Behind an item a path goes on. -/
theorem sound_endsSelf {c : Call} {before ts : List Token} {p : Plan} (h : EndsSelf before ts p)
    (hc : c.Sound) (hinput : c.input = ts) : p.Sound := by
  cases h with
  | item =>
    have hts := hc.input
    rw [hinput] at hts
    exact sound_of_input (hts.of_mem (by simp +contextual [Call.input])) rfl trivial
  | _ => trivial

/-- A sound call leads to sound calls: they go on with tokens that were there or with halves of
them, and where they need a token to blame they have taken one. -/
theorem sound_of_advances {c : Call} {p : Plan} (hc : c.Sound) (h : Advances c p) : p.Sound := by
  have hts := hc.input
  by_cases hlooks : c.Looks
  · cases h with
    | listType | listSummed =>
      exact ⟨sound_of_input hts rfl trivial, fun _ _ hl ↦ sound_of_input hl.2 rfl trivial⟩
    | separator =>
      exact sound_of_input (hts.of_mem (by simp +contextual [Call.input])) rfl trivial
    | listEnd | separatorEnd | noSeparator => trivial
    | _ => cases hlooks
  have hnext := conserves_of_advances h hlooks
  cases h with
  | rooted | plain | binding | arrow | reference | pointer | bounded | plus | boundPlus
  | maybeBound =>
    exact ⟨sound_of_input (hts.of_mem (by simp +contextual [Call.input])) rfl trivial,
      fun _ _ hl ↦ (hnext _ _ hl.1).sound hc hl.2 trivial⟩
  | typeParam | typePath | summed | pathBound =>
    exact ⟨sound_of_input hts rfl trivial, fun _ _ hl ↦ (hnext _ _ hl.1).sound hc hl.2 trivial⟩
  | empty | noArgs | segment | close | summand =>
    exact hnext.sound hc (hts.of_mem (by simp +contextual [Call.input])) trivial
  | opening | comma =>
    exact ⟨sound_of_input (hts.of_mem (by simp +contextual [Call.input])) rfl trivial,
      fun _ _ hl ↦ (hnext _ _ hl.1).sound hc hl.2 (hl.ne_nil id trivial)⟩
  | @openingFused _ _ ts _ _ o₂ _ _ hcut =>
    have hinput : RegularAll (o₂ :: ts) :=
      regularAll_of_cut hcut hts (by simp +contextual [Call.input])
    exact ⟨sound_of_input hinput rfl trivial, fun _ _ hl ↦
      (hnext _ _ hl.1).sound hc hl.2 (hl.ne_nil id trivial)⟩
  | fnArgs | tuple =>
    exact ⟨sound_of_input (regularAll_stream hts List.mem_cons_self) rfl trivial, fun _ _ hl ↦
      (hnext _ _ hl.1).sound hc (hts.of_mem (by simp +contextual [Call.input])) trivial⟩
  | fn =>
    have hmem := (regularAll_cons.mp hts).2
    exact ⟨sound_of_input (regularAll_stream hmem List.mem_cons_self) rfl trivial, fun _ _ hl ↦
      (hnext _ _ hl.1).sound hc (hts.of_mem (by simp +contextual [Call.input])) trivial⟩
  | bracketed =>
    exact ⟨sound_of_input (regularAll_stream hts List.mem_cons_self) rfl trivial,
      fun _ _ hl ↦ (hnext _ _ hl.1).sound hc hl.2 trivial⟩
  | fnPointer =>
    exact ⟨sound_of_input hts rfl (.inr (List.cons_ne_nil _ _)),
      fun _ _ hl ↦ (hnext _ _ hl.1).sound hc hl.2 trivial⟩
  | @qualified _ ts =>
    have hinput : RegularAll ts := hts.of_mem (by simp +contextual [Call.input])
    exact ⟨sound_of_input hinput rfl (List.cons_ne_nil _ _), fun _ _ hl ↦
      (hnext _ _ hl.1).sound hc hl.2 trivial⟩
  | @qualifiedFused _ _ o₂ ts _ hcut =>
    have hinput : RegularAll (o₂ :: ts) :=
      regularAll_of_cut hcut hts (by simp +contextual [Call.input])
    exact ⟨sound_of_input hinput rfl (List.cons_ne_nil _ _), fun _ _ hl ↦
      (hnext _ _ hl.1).sound hc hl.2 trivial⟩
  | unsafeFn | externFn =>
    exact hnext.sound hc (hts.of_mem (by simp +contextual [Call.input])) (.inl (by simp))
  | self =>
    refine ⟨sound_of_input hts rfl trivial, fun _ _ hl ↦ (hnext _ _ hl.1).sound hc hl.2 ?_⟩
    exact List.append_ne_nil_of_left_ne_nil hc.blame _
  | asPath =>
    exact ⟨sound_of_input (hts.of_mem (by simp +contextual [Call.input])) rfl trivial,
      fun _ _ hl ↦ (hnext _ _ hl.1).sound hc hl.2 (by simp [Call.HasBlame])⟩
  | noAs _ hend | selfEnd hend => exact sound_endsSelf hend hc rfl
  | listEnd | listType | listSummed | separatorEnd | separator | noSeparator =>
    exact absurd trivial hlooks
  | _ => trivial

/-! ### All calls -/

/-- What a sound call gives back and leaves is what calls behind it may go on with. -/
theorem Reads.leaves {c : Call} {ds : List Nat} {first rest : List Token} (hc : c.Sound)
    (h : Reads c ds (.ok (first, rest))) : c.Leaves first rest := by
  by_cases hlooks : c.Looks
  · refine ⟨.inl hlooks, ?_⟩
    rw [h.rest_eq_nil hlooks rfl]
    exact List.forall_mem_nil _
  · have hconserves := h.conserves hlooks rfl
    obtain ⟨taken, -, htakes, -⟩ := id hconserves
    exact ⟨.inr hconserves, htakes.regularAll hc.ahead⟩

/-- A sound call comes to a result or to a fault. The induction is on what the call costs. -/
theorem exists_reads {c : Call} (hc : c.Sound) : ∃ ds r, Reads c ds r := by
  induction hn : c.cost using Nat.strongRecOn generalizing c with
  | ind n ih =>
    subst hn
    obtain ⟨p, hp⟩ := advances_total hc
    have hsound := sound_of_advances hc hp
    have haffords := affords_of_advances hp
    cases p with
    | fault f => exact ⟨_, _, .fault hp⟩
    | done first rest => exact ⟨_, _, .done hp⟩
    | go c' =>
      obtain ⟨ds, r, hgo⟩ := ih _ haffords.1 hsound rfl
      exact ⟨_, _, .go hp hgo⟩
    | part c' next =>
      obtain ⟨ds, r, hpart⟩ := ih _ haffords.part_cost_lt hsound.1 rfl
      cases r with
      | error f => exact ⟨_, _, .lost hp hpart⟩
      | ok r =>
        have hnextSound : (next r.1 r.2).Sound := hsound.2 _ _ (hpart.leaves hsound.1)
        have hnextCost : (next r.1 r.2).cost < c.cost :=
          haffords.next_cost_lt hpart.weightAll_rest_le
        obtain ⟨ds', r', hnext⟩ := ih _ hnextCost hnextSound rfl
        exact ⟨_, _, .part hp hpart hnext⟩

end Grammar

end Expander
