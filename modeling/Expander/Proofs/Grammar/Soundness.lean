import Expander.Proofs.Grammar.Language
import Expander.Proofs.Grammar.Totality

/-!
# What is read is in the language

A call that comes to a result has read a sequence of its symbol (`Reads.means`). A call in the midst
of a symbol has read what completes the symbol, whatever of it was read before (`Call.Means`), so a
single step is judged by what its own tokens add (`means_of_advances`).
-/

set_option autoImplicit false

namespace Expander.Grammar

open Token

variable {mutIsPath : Prop}

/-- What it means that a call has read a sequence. -/
def Call.Means (mutIsPath : Prop) : Call → List Token → Prop
  | path _, w => Derives mutIsPath .path w
  | tail .., w => Derives mutIsPath .tail w
  | after .., w => Derives mutIsPath .after w
  | more .., w => ∀ ps, Derives mutIsPath .param ps → ∃ qs e us, ps ++ w = qs ++ e :: us ∧
      Derives mutIsPath .params qs ∧ e.spells ">" = true ∧ Derives mutIsPath .after us
  | param _, w => Derives mutIsPath .param w
  | arrow .., w => Derives mutIsPath .result w
  | list s ts, _ => Derives mutIsPath s.symbol (unfuse ts)
  | separator s _ ts, _ => ∀ w, Derives mutIsPath s.element w →
      Derives mutIsPath s.symbol (w ++ unfuse ts)
  | type _, w => Derives mutIsPath .type w
  | summed _, w => Derives mutIsPath .sum w
  | summands .., w | summand .., w | bounds .., w => Derives mutIsPath .plus w
  | bound _, w => Derives mutIsPath .bound w
  | arrayEnd _ _ _ ts, w => w = [] ∧
      (ts = [] ∨ ∃ m us, ts = m :: us ∧ m.spells ";" = true ∧ us ≠ [])
  | pointer .., w => Derives mutIsPath .function w
  | self .., w => ∀ o, o.spells "<" = true → Derives mutIsPath .type (o :: w)
  | afterSelf .., w => ∀ o ts, o.spells "<" = true → Derives mutIsPath .type ts →
      Derives mutIsPath .type (o :: (ts ++ w))
  | selfEnd .., w => ∀ o ts as, o.spells "<" = true → Derives mutIsPath .type ts →
      Derives mutIsPath .trait as → Derives mutIsPath .type (o :: (ts ++ as ++ w))
  | back .., w => w = []

/-- A call has read a sequence: it gives it back behind what it had, and what it leaves stood behind
it. -/
structure Call.Yields (c : Call) (first rest w : List Token) : Prop where
  first_eq : unfuse first = unfuse c.before ++ w
  ahead_eq : ¬ c.Looks → unfuse c.ahead = w ++ unfuse rest

/-- What a step adds makes a sequence of the call. -/
def Plan.Means (mutIsPath : Prop) (c : Call) : Plan → Prop
  | .fault _ => True
  | .done first _ => ∀ w, unfuse first = unfuse c.before ++ w → c.Means mutIsPath w
  | .go c' => ∀ w w', c'.Means mutIsPath w' → unfuse c'.before ++ w' = unfuse c.before ++ w →
      c.Means mutIsPath w
  | .part c' next => ∀ first rest w', c'.Yields first rest w' → c'.Means mutIsPath w' →
      ∀ w w'', (next first rest).Means mutIsPath w'' →
        unfuse (next first rest).before ++ w'' = unfuse c.before ++ w → c.Means mutIsPath w

/-! ### Tokens that stay -/

section

variable {p : Token → Bool} {ts : List Token}

/-- An optional token that stays as it is when tokens are taken apart. -/
theorem unfuse_maybe (hp : ∀ t, p t = true → t.unfused = [t]) (h : Maybe p ts) :
    unfuse ts = ts := by
  cases h with
  | none => exact unfuse_nil
  | one ht => rw [unfuse_cons, hp _ ht, unfuse_nil, List.append_nil]

/-- So is an optional mark that is no joined one. -/
theorem unfuse_maybe_spells {s : String} (hs : s ∉ fusedSpellings) (h : Maybe (spells s) ts) :
    unfuse ts = ts :=
  unfuse_maybe (fun _ ht ↦ unfused_of_spells ht hs) h

end

/-! ### Ways to go on -/

section

variable {c c' : Call} {front u : List Token}

/-- A call that is at its end has read what it took. -/
theorem means_done (hfront : unfuse front = u) {first rest : List Token}
    (hfirst : first = c.before ++ front) (h : c.Means mutIsPath u) :
    (Plan.done first rest).Means mutIsPath c := by
  intro w hw
  rw [hfirst, unfuse_append, hfront, List.append_cancel_left_eq] at hw
  exact hw ▸ h

/-- A call goes on behind some tokens. -/
theorem means_go (hfront : unfuse front = u) (hbefore : c'.before = c.before ++ front)
    (h : ∀ w, c'.Means mutIsPath w → c.Means mutIsPath (u ++ w)) :
    (Plan.go c').Means mutIsPath c := by
  intro w w' hmeans hw
  rw [hbefore, unfuse_append, hfront, List.append_assoc, List.append_cancel_left_eq] at hw
  exact hw ▸ h w' hmeans

/-- Behind some tokens a part is read, and then more. -/
theorem means_part (hfront : unfuse front = u) {next : List Token → List Token → Call}
    (hpart : c'.before = [])
    (hbefore : ∀ first rest, (next first rest).before = c.before ++ front ++ first)
    (h : ∀ first rest w w', (¬ c'.Looks → unfuse c'.ahead = w ++ unfuse rest) →
      c'.Means mutIsPath w → (next first rest).Means mutIsPath w' →
      c.Means mutIsPath (u ++ (w ++ w'))) :
    (Plan.part c' next).Means mutIsPath c := by
  intro first rest w' hyields hpartMeans w w'' hnext hw
  have hfirst := hyields.first_eq
  rw [hpart, unfuse_nil, List.nil_append] at hfirst
  rw [hbefore, unfuse_append, unfuse_append, hfirst, hfront, List.append_assoc, List.append_assoc,
    List.append_cancel_left_eq] at hw
  exact hw ▸ h first rest w' w'' hyields.ahead_eq hpartMeans hnext

/-- Behind some tokens a part is read, and nothing more. -/
theorem means_back (hfront : unfuse front = u) {r : Return} {before : List Token}
    (hpart : c'.before = []) (hkept : r.kept before = c.before ++ front)
    (h : ∀ rest w, (¬ c'.Looks → unfuse c'.ahead = w ++ unfuse rest) → c'.Means mutIsPath w →
      c.Means mutIsPath (u ++ w)) :
    (Plan.part c' (.back r before)).Means mutIsPath c := by
  refine means_part hfront hpart (fun first rest ↦ ?_) fun first rest w w' hahead hmeans hnext ↦ ?_
  · rw [Call.before, hkept]
  · have hnil : w' = [] := hnext
    rw [hnil, List.append_nil]
    exact h rest w hahead hmeans

/-- A list is looked at inside a group that is one of some tokens in front. -/
theorem means_look (hfront : unfuse front = u) {s : Sequence} {inner : List Token}
    (hbefore : c'.before = c.before ++ front)
    (h : Derives mutIsPath s.symbol (unfuse inner) → ∀ w, c'.Means mutIsPath w →
      c.Means mutIsPath (u ++ w)) :
    (Plan.part (.list s inner) fun _ _ ↦ c').Means mutIsPath c := by
  intro first rest w' _ hmeans w w'' hnext hw
  rw [hbefore, unfuse_append, hfront, List.append_assoc, List.append_cancel_left_eq] at hw
  exact hw ▸ h hmeans w'' hnext

end

/-! ### Steps -/

section

variable {before read ts : List Token} {p : Plan}

/-- The steps of a path read what the grammar says of paths. The same is shown below for the other
calls, one at a time. -/
theorem means_path (h : Advances (.path ts) p) : p.Means mutIsPath (.path ts) := by
  cases h with
  | @rooted d t ts hd ht =>
    have hfront : unfuse [d, t] = [d, t] := by
      simp [unfused_of_spells hd (by decide), unfused_of_isIdent ht]
    refine means_back hfront rfl rfl fun _ w _ hw ↦ ?_
    exact .path (.one hd) ht hw
  | @plain t ts ht =>
    have hfront : unfuse [t] = [t] := by simp [unfused_of_isIdent ht]
    refine means_back hfront rfl rfl fun _ w _ hw ↦ ?_
    exact .path .none ht hw
  | _ => trivial

/-- Behind an opening angle and a parameter stands what closes the angle. -/
theorem derives_angles {cs w w' : List Token} {o : Token} (hcs : Maybe (spells "::") cs)
    (ho : o.spells "<" = true) (hparam : Derives mutIsPath .param w)
    (hmore : (Call.more before read ts).Means mutIsPath w') :
    Derives mutIsPath .tail (cs ++ [o] ++ (w ++ w')) := by
  obtain ⟨qs, e, us, heq, hqs, he, hus⟩ := hmore w hparam
  have h := Derives.angles hcs ho hqs he hus
  rw [heq]
  simpa using h

/-- Where opening angles are cut, the first half is what the grammar asks for, and the second begins
the parameter. -/
theorem means_tail (h : Advances (.tail before ts) p) : p.Means mutIsPath (.tail before ts) := by
  cases h with
  | @empty _ cs ts o e hcs ho he =>
    have hfront : unfuse (cs ++ [o, e]) = cs ++ [o, e] := by
      simp [unfuse_maybe_spells (by decide) hcs, unfused_of_spells ho (by decide),
        unfused_of_spells he (by decide)]
    refine means_go hfront (by simp [Call.before]) fun w hw ↦ ?_
    simpa [Call.Means] using Derives.empty hcs ho he hw
  | @emptyFused _ cs ts o e e₁ e₂ hcs ho he hcut =>
    have hjoined : e.isJoined = true := isJoined_iff.mpr (.inl he)
    have hfront : unfuse (cs ++ [o, e₁]) = cs ++ [o, e₁] := by
      simp [unfuse_maybe_spells (by decide) hcs, unfused_of_spells ho (by decide),
        (unfused_of_isJoined hjoined hcut).2.1]
    refine means_done hfront (by simp [Call.before]) ?_
    exact .empty hcs ho (spells_halves he rfl hcut).1 .pathEnd
  | @opening _ cs ts o hcs ho =>
    have hfront : unfuse (cs ++ [o]) = cs ++ [o] := by
      simp [unfuse_maybe_spells (by decide) hcs, unfused_of_spells ho (by decide)]
    refine means_part hfront rfl (fun _ _ ↦ by simp [Call.before]) ?_
    intro first rest w w' _ hparam hmore
    exact derives_angles hcs ho hparam hmore
  | @openingFused _ cs ts o o₁ o₂ hcs ho hcut =>
    have hjoined : o.isJoined = true := isJoined_iff.mpr (.inr ho)
    have hfront : unfuse (cs ++ [o₁]) = cs ++ [o₁] := by
      simp [unfuse_maybe_spells (by decide) hcs, (unfused_of_isJoined hjoined hcut).2.1]
    refine means_part hfront rfl (fun _ _ ↦ by simp [Call.before]) ?_
    intro first rest w w' _ hparam hmore
    exact derives_angles hcs (spells_halves ho rfl hcut).1 hparam hmore
  | @fnArgs _ ts inner span =>
    have hfront : unfuse [.group .paren span inner] = [.group .paren span (unfuse inner)] := by
      simp
    refine means_look hfront rfl fun htypes w hw ↦ ?_
    exact .called htypes hw
  | noArgs =>
    refine means_go unfuse_nil (by simp [Call.before]) fun w hw ↦ ?_
    exact .plain hw
  | _ => trivial

theorem means_after (h : Advances (.after before ts) p) :
    p.Means mutIsPath (.after before ts) := by
  cases h with
  | @segment _ ts d t hd ht =>
    have hfront : unfuse [d, t] = [d, t] := by
      simp [unfused_of_spells hd (by decide), unfused_of_isIdent ht]
    refine means_go hfront rfl fun w hw ↦ ?_
    exact .segment hd ht hw
  | pathEnd =>
    refine means_done unfuse_nil (by simp [Call.before]) ?_
    exact .pathEnd
  | _ => trivial

/-- The closing angle may be the first half of a token: it ends the list as any other. -/
theorem means_more (h : Advances (.more before read ts) p) :
    p.Means mutIsPath (.more before read ts) := by
  cases h with
  | @close _ _ ms ts e hms he =>
    have hfront : unfuse (ms ++ [e]) = ms ++ [e] := by
      simp [unfuse_maybe_spells (by decide) hms, unfused_of_spells he (by decide)]
    refine means_go hfront (by simp [Call.before]) fun w hw ps hps ↦ ?_
    exact ⟨ps ++ ms, e, w, by simp, .lastParam hps hms, he, hw⟩
  | @closeFused _ _ ms ts e e₁ e₂ hms he hcut =>
    have hjoined : e.isJoined = true := isJoined_iff.mpr (.inl he)
    have hfront : unfuse (ms ++ [e₁]) = ms ++ [e₁] := by
      simp [unfuse_maybe_spells (by decide) hms, (unfused_of_isJoined hjoined hcut).2.1]
    refine means_done hfront (by simp [Call.before]) fun ps hps ↦ ?_
    exact ⟨ps ++ ms, e₁, [], by simp, .lastParam hps hms, (spells_halves he rfl hcut).1, .pathEnd⟩
  | @comma _ _ ts m hm =>
    have hfront : unfuse [m] = [m] := by simp [unfused_of_spells hm (by decide)]
    refine means_part hfront rfl (fun _ _ ↦ by simp [Call.before]) ?_
    intro first rest w w' _ hparam hmore ps hps
    obtain ⟨qs, e, us, heq, hqs, he, hus⟩ := hmore w hparam
    rw [heq]
    exact ⟨ps ++ m :: qs, e, us, by simp, .moreParams hps hm hqs, he, hus⟩
  | _ => trivial

theorem means_param (h : Advances (.param ts) p) : p.Means mutIsPath (.param ts) := by
  cases h with
  | @single ts t ht =>
    obtain ⟨u, hfront, hu⟩ : ∃ u, unfuse [t] = [u] ∧
        (u.isLifetime = true ∨ u.isLiteral = true ∨ u.delimiter? = some .brace) := by
      rcases ht with ht | ht | ht
      · exact ⟨t, by simp [unfused_of_isLifetime ht], .inl ht⟩
      · exact ⟨t, by simp [unfused_of_isLiteral ht], .inr (.inl ht)⟩
      · obtain ⟨u, hu, hbrace⟩ := unfused_of_delimiter? ht
        exact ⟨u, by simp [hu], .inr (.inr hbrace)⟩
    refine means_done hfront rfl ?_
    exact .single hu
  | @negative ts m l hm hl =>
    have hfront : unfuse [m, l] = [m, l] := by
      simp [unfused_of_spells hm (by decide), unfused_of_isLiteral hl]
    refine means_done hfront rfl ?_
    exact .negative hm hl
  | @binding ts t e ht he =>
    have hfront : unfuse [t, e] = [t, e] := by
      simp [unfused_of_isIdent ht, unfused_of_spells he (by decide)]
    refine means_back hfront rfl rfl fun _ w _ hw ↦ ?_
    exact .binding ht he hw
  | typeParam =>
    refine means_back unfuse_nil rfl rfl fun _ w _ hw ↦ ?_
    exact .typeParam hw
  | _ => trivial

theorem means_arrow (h : Advances (.arrow before ts) p) :
    p.Means mutIsPath (.arrow before ts) := by
  cases h with
  | @arrow _ ts a ha =>
    have hfront : unfuse [a] = [a] := by simp [unfused_of_spells ha (by decide)]
    refine means_back hfront rfl rfl fun _ w _ hw ↦ ?_
    exact .result ha hw
  | noArrow =>
    refine means_done unfuse_nil (by simp [Call.before]) ?_
    exact .noResult
  | _ => trivial

/-- The last element of a list. -/
theorem derives_last {s : Sequence} {w : List Token} (h : Derives mutIsPath s.element w) :
    Derives mutIsPath s.symbol w := by
  cases s with
  | fnArgs => exact .lastType h
  | typeList => exact .lastSum h

/-- An element with more behind a comma. -/
theorem derives_moreElements {s : Sequence} {w w' : List Token} {m : Token}
    (h : Derives mutIsPath s.element w) (hm : m.spells "," = true)
    (hmore : Derives mutIsPath s.symbol w') : Derives mutIsPath s.symbol (w ++ m :: w') := by
  cases s with
  | fnArgs => exact .moreTypes h hm hmore
  | typeList => exact .moreSums h hm hmore

theorem means_list {s : Sequence} (h : Advances (.list s ts) p) :
    p.Means mutIsPath (.list s ts) := by
  cases h with
  | listEnd =>
    intro w _
    rw [Call.Means, unfuse_nil]
    cases s with
    | fnArgs => exact .noTypes
    | typeList => exact .noSums
  | listType =>
    intro first rest w hyields hmeans _ _ hnext _
    have hts := hyields.ahead_eq id
    rw [Call.Means, show unfuse ts = w ++ unfuse rest from hts]
    exact hnext w hmeans
  | listSummed =>
    intro first rest w hyields hmeans _ _ hnext _
    have hts := hyields.ahead_eq id
    rw [Call.Means, show unfuse ts = w ++ unfuse rest from hts]
    exact hnext w hmeans

theorem means_separator {s : Sequence} (h : Advances (.separator s read ts) p) :
    p.Means mutIsPath (.separator s read ts) := by
  cases h with
  | separatorEnd =>
    intro _ _ w hw
    rw [unfuse_nil, List.append_nil]
    exact derives_last hw
  | @separator _ _ ts m hm =>
    intro _ _ hmeans _ w hw
    rw [unfuse_cons, unfused_of_spells hm (by decide)]
    exact derives_moreElements hw hm hmeans
  | _ => trivial

/-! ### Steps of types -/

/-- What is not at the front of a sequence is not at the front of what is read of it. -/
theorem startsWith_taken {s : String} {w rest : List Token} (hs : s ∉ halfSpellings)
    (hts : unfuse ts = w ++ unfuse rest) (h : startsWith ts [s] = false) :
    startsWith w [s] = false := by
  cases w with
  | nil => rfl
  | cons x w =>
    rw [startsWith_cons, startsWith_nil, Bool.and_true, holds_spelling, Bool.eq_false_iff]
    intro hx
    obtain ⟨us, rfl, -⟩ := exists_of_unfuse_of_spells hts hx hs
    rw [startsWith_cons, startsWith_nil, Bool.and_true, holds_spelling, hx] at h
    cases h

/-- What begins a reference is taken apart into one ampersand or two. -/
theorem derives_reference {a : Token} {ls ms w : List Token}
    (ha : a.spells "&" = true ∨ a.spells "&&" = true) (hregular : a.Regular)
    (hls : Maybe isLifetime ls) (hms : Maybe (spells "mut") ms)
    (hmut : ms = [] → mutIsPath ∨ startsWith w ["mut"] = false)
    (hw : Derives mutIsPath .type w) :
    Derives mutIsPath .type (a.unfused ++ (ls ++ ms ++ w)) := by
  rcases ha with ha | ha
  · rw [unfused_of_spells ha (by decide)]
    exact .reference ha hls hms hmut hw
  · obtain ⟨span, rfl⟩ := hregular.eq_punct (by decide) ha
    obtain ⟨x, y, hcut⟩ : ∃ x y, halves? (.leaf .punct "&&" span) = some (x, y) := ⟨_, _, rfl⟩
    have hfused : IsFused (.leaf .punct "&&" span) x y := ⟨hcut, "&&", by decide, ha⟩
    obtain ⟨hx, hy⟩ := spells_halves ha rfl hcut
    have hinner := Derives.reference hy hls hms hmut hw
    have hnoMut : startsWith (y :: (ls ++ ms ++ w)) ["mut"] = false := by
      rw [startsWith_cons, startsWith_nil, Bool.and_true, holds_spelling, spells_eq hy]
      decide
    have houter : Derives mutIsPath .type (x :: ([] ++ [] ++ y :: (ls ++ ms ++ w))) :=
      .reference hx .none .none (fun _ ↦ .inr hnoMut) hinner
    rw [hfused.unfused_eq]
    exact houter

/-- Behind an opening angle stands what makes a qualified path of it. -/
theorem means_qualified {us : List Token} {o : Token} (hself : o.unfused = [o])
    (ho : o.spells "<" = true) :
    (Plan.part (.self [o] us) (.back .typePath [])).Means mutIsPath (.type ts) := by
  intro first rest w hyields hmeans w' w'' hnext hw
  have hnil : w'' = [] := hnext
  have hfirst : unfuse first = [o] ++ w := by
    simpa [Call.before, hself] using hyields.first_eq
  have hall : w' = o :: w := by
    simpa [Call.before, Return.kept, hfirst, hnil] using hw.symm
  rw [hall]
  exact hmeans o ho

/-- The first token of a type says which sequence of the grammar it is. -/
theorem means_type (hts : RegularAll ts) (h : Advances (.type ts) p) :
    p.Means mutIsPath (.type ts) := by
  cases h with
  | @tuple ts inner span =>
    have hfront : unfuse [.group .paren span inner] = [.group .paren span (unfuse inner)] := by
      simp
    refine means_look hfront rfl fun hsums w hw ↦ ?_
    have hnil : w = [] := hw
    rw [hnil]
    exact .tuple hsums
  | @bracketed ts inner span =>
    intro first rest w hyields hmeans w' w'' hnext hw
    obtain ⟨rfl, hrest⟩ := hnext
    have hinner : unfuse inner = w ++ unfuse rest := hyields.ahead_eq id
    have hgroup : w' = [.group .bracket span (w ++ unfuse rest)] := by
      rw [← hinner]
      simpa [Call.before] using hw.symm
    rw [hgroup]
    rcases hrest with rfl | ⟨m, us, rfl, hm, hus⟩
    · rw [unfuse_nil, List.append_nil]
      exact .slice hmeans
    · rw [unfuse_cons, unfused_of_spells hm (by decide)]
      exact .array hmeans hm (mt unfuse_eq_nil_iff.mp hus)
  | @reference a ls ms ts ha hls hms _ hnoMut =>
    have hregular : a.Regular := (regularAll_cons.mp hts).1
    have hmarks : unfuse (ls ++ ms) = ls ++ ms := by
      rw [unfuse_append, unfuse_maybe (fun _ ↦ unfused_of_isLifetime) hls,
        unfuse_maybe_spells (by decide) hms]
    have hfront : unfuse (a :: (ls ++ ms)) = a.unfused ++ (ls ++ ms) := by
      rw [unfuse_cons, hmarks]
    refine means_back hfront rfl rfl fun rest w hahead hw ↦ ?_
    have hmut : ms = [] → mutIsPath ∨ startsWith w ["mut"] = false := fun h ↦
      .inr (startsWith_taken (by decide) (hahead id) (hnoMut h))
    have hall := derives_reference ha hregular hls hms hmut hw
    rwa [← List.append_assoc] at hall
  | @pointer a m ts ha hm =>
    have hfront : unfuse [a, m] = [a, m] := by
      simp [unfused_of_spells ha (by decide), unfused_of_spells_or hm (by decide) (by decide)]
    refine means_back hfront rfl rfl fun _ w _ hw ↦ ?_
    exact .pointer ha hm hw
  | @lone t ts ht =>
    have hfront : unfuse [t] = [t] := by
      simp [unfused_of_spells_or ht (by decide) (by decide)]
    refine means_done hfront rfl ?_
    exact .lone ht
  | fnPointer =>
    refine means_back unfuse_nil rfl rfl fun _ w _ hw ↦ ?_
    exact .fnPointer hw
  | @bounded t ts ht =>
    have hfront : unfuse [t] = [t] := by
      simp [unfused_of_spells_or ht (by decide) (by decide)]
    refine means_part hfront rfl (fun _ _ ↦ rfl) fun first rest w w' _ hw hplus ↦ ?_
    have hall : Derives mutIsPath .type (t :: (w ++ w')) := .bounded ht hw hplus
    exact hall
  | @qualified o ts ho =>
    exact means_qualified (by simp [unfused_of_spells ho (by decide)]) ho
  | @qualifiedFused o o₁ o₂ ts ho hcut =>
    have hjoined : o.isJoined = true := isJoined_iff.mpr (.inr ho)
    exact means_qualified (unfused_of_isJoined hjoined hcut).2.1 (spells_halves ho rfl hcut).1
  | @typePath t ts ht hstart =>
    refine means_back unfuse_nil rfl rfl fun rest w hahead hw ↦ ?_
    refine .typePath hw fun s hs ↦ ?_
    have hword : s ∈ typeStarts ∧ s ∉ halfSpellings := by
      revert s
      decide
    have hfront : startsWith (t :: ts) [.spelling s] = false := by
      rw [startsWith_cons, startsWith_nil, Bool.and_true]
      exact hstart s hword.1
    exact startsWith_taken hword.2 (hahead id) hfront
  | _ => trivial

theorem means_summands (h : Advances (.summands before ts) p) :
    p.Means mutIsPath (.summands before ts) := by
  cases h with
  | @plus _ ts a ha =>
    have hfront : unfuse [a] = [a] := by simp [unfused_of_spells ha (by decide)]
    refine means_part hfront rfl (fun _ _ ↦ by simp [Call.before]) ?_
    intro first rest w w' _ hw hplus
    have hall : Derives mutIsPath .plus (a :: (w ++ w')) := .plus ha hw hplus
    exact hall
  | noPlus =>
    refine means_done unfuse_nil (by simp [Call.before]) ?_
    exact .noPlus
  | _ => trivial

theorem means_bounds (h : Advances (.bounds before read ts) p) :
    p.Means mutIsPath (.bounds before read ts) := by
  cases h with
  | @boundPlus _ _ ts a ha =>
    have hfront : unfuse [a] = [a] := by simp [unfused_of_spells ha (by decide)]
    refine means_part hfront rfl (fun _ _ ↦ by simp [Call.before]) ?_
    intro first rest w w' _ hw hplus
    have hall : Derives mutIsPath .plus (a :: (w ++ w')) := .plus ha hw hplus
    exact hall
  | boundNoPlus =>
    refine means_done unfuse_nil (by simp [Call.before]) ?_
    exact .noPlus
  | _ => trivial

theorem means_bound (h : Advances (.bound ts) p) : p.Means mutIsPath (.bound ts) := by
  cases h with
  | @simpleBound t ts ht =>
    obtain ⟨u, hfront, hu⟩ : ∃ u, unfuse [t] = [u] ∧
        (u.isLifetime = true ∨ u.delimiter? = some .paren) := by
      rcases ht with ht | ht
      · exact ⟨t, by simp [unfused_of_isLifetime ht], .inl ht⟩
      · obtain ⟨u, hu, hparen⟩ := unfused_of_delimiter? ht
        exact ⟨u, by simp [hu], .inr hparen⟩
    refine means_done hfront rfl ?_
    exact .simpleBound hu
  | @maybeBound q ts hq =>
    have hfront : unfuse [q] = [q] := by simp [unfused_of_spells hq (by decide)]
    refine means_back hfront rfl rfl fun _ w _ hw ↦ ?_
    exact .pathBound (.one hq) hw
  | pathBound =>
    refine means_back unfuse_nil rfl rfl fun _ w _ hw ↦ ?_
    exact .pathBound .none hw
  | _ => trivial

theorem means_pointer (h : Advances (.pointer before ts) p) :
    p.Means mutIsPath (.pointer before ts) := by
  cases h with
  | @fn _ ts inner f span hf =>
    have hfront : unfuse [f, .group .paren span inner] =
        [f, .group .paren span (unfuse inner)] := by
      simp [unfused_of_spells hf (by decide)]
    refine means_look hfront rfl fun htypes w hw ↦ ?_
    exact .fn hf htypes hw
  | @unsafeFn _ ts t ht =>
    have hfront : unfuse [t] = [t] := by simp [unfused_of_spells ht (by decide)]
    refine means_go hfront rfl fun w hw ↦ ?_
    exact .unsafeFn ht hw
  | @externFn _ ls ts t ht hls =>
    have hfront : unfuse (t :: ls) = t :: ls := by
      simp [unfused_of_spells ht (by decide), unfuse_maybe (fun _ ↦ unfused_of_isLiteral) hls]
    refine means_go hfront rfl fun w hw ↦ ?_
    exact .externFn ht hls hw
  | _ => trivial

/-- An item that ends a self type reads as its angle, its colons and its name. -/
theorem means_endsSelf {c : Call} {before : List Token} (h : EndsSelf before ts p)
    (hbefore : c.before = before)
    (hc : ∀ e d t us, e.spells ">" = true → d.spells "::" = true → t.isIdent = true →
      Derives mutIsPath .tail us → c.Means mutIsPath (e :: d :: t :: us)) :
    p.Means mutIsPath c := by
  cases h with
  | @item e d t ts he hd ht =>
    have hfront : unfuse [e, d, t] = [e, d, t] := by
      simp [unfused_of_spells he (by decide), unfused_of_spells hd (by decide),
        unfused_of_isIdent ht]
    refine means_go hfront (by rw [hbefore]; rfl) fun w hw ↦ ?_
    exact hc e d t w he hd ht hw
  | _ => trivial

theorem means_afterSelf (h : Advances (.afterSelf before read ts) p) :
    p.Means mutIsPath (.afterSelf before read ts) := by
  cases h with
  | @asPath _ _ ts a ha =>
    have hfront : unfuse [a] = [a] := by simp [unfused_of_spells ha (by decide)]
    refine means_part hfront rfl (fun _ _ ↦ by simp [Call.before]) ?_
    intro first rest w w' _ hw hend o ts ho hts
    have hall := hend o ts (a :: w) ho hts (.trait ha hw)
    simpa using hall
  | noAs _ hend =>
    refine means_endsSelf hend rfl fun e d t us he hd ht hus o ts ho hts ↦ ?_
    have hall := Derives.qualified ho hts .noTrait he hd ht hus
    simpa using hall

theorem means_selfEnd (h : Advances (.selfEnd before read ts) p) :
    p.Means mutIsPath (.selfEnd before read ts) := by
  cases h with
  | selfEnd hend =>
    refine means_endsSelf hend rfl fun e d t us he hd ht hus o ts as ho hts has ↦ ?_
    exact .qualified ho hts has he hd ht hus

/-- What a step adds makes a sequence of the call, whatever step it is. -/
theorem means_of_advances {c : Call} (hc : RegularAll c.input) (h : Advances c p) :
    p.Means mutIsPath c := by
  cases c with
  | path => exact means_path h
  | tail => exact means_tail h
  | after => exact means_after h
  | more => exact means_more h
  | param => exact means_param h
  | arrow => exact means_arrow h
  | list => exact means_list h
  | separator => exact means_separator h
  | type => exact means_type hc h
  | summed =>
    cases h with
    | summed =>
      refine means_part unfuse_nil rfl (fun _ _ ↦ rfl) fun first rest w w' _ hw hplus ↦ ?_
      have hall : Derives mutIsPath .sum (w ++ w') := .sum hw hplus
      exact hall
  | summands => exact means_summands h
  | summand =>
    cases h with
    | summand => exact means_go unfuse_nil (by simp [Call.before]) fun _ hw ↦ hw
  | bounds => exact means_bounds h
  | bound => exact means_bound h
  | arrayEnd group behind element ts =>
    cases h with
    | arrayEnd hend =>
      refine means_done unfuse_nil (by simp [Call.before]) ⟨rfl, ?_⟩
      rcases hend with rfl | ⟨hstart, hlength⟩
      · exact .inl rfl
      · obtain ⟨m, us, rfl, hm, -⟩ := exists_of_startsWith hstart
        refine .inr ⟨m, us, rfl, hm, ?_⟩
        rintro rfl
        simp at hlength
    | noArrayEnd => trivial
  | pointer => exact means_pointer h
  | self angle ts =>
    cases h with
    | self =>
      refine means_part unfuse_nil rfl (fun _ _ ↦ by simp [Call.before]) ?_
      intro first rest w w' _ hw hnext o ho
      exact hnext o w ho hw
  | afterSelf => exact means_afterSelf h
  | selfEnd => exact means_selfEnd h
  | back =>
    cases h with
    | back => exact means_done unfuse_nil (by simp [Call.before]) rfl

end

/-! ### Readings -/

/-- What a call gives back is what it had and what it read, and that stood ahead. -/
theorem Reads.exists_yields {c : Call} {ds : List Nat} {first rest : List Token}
    (h : Reads c ds (.ok (first, rest))) : ∃ w, c.Yields first rest w := by
  by_cases hlooks : c.Looks
  · refine ⟨unfuse first, ?_, fun hnot ↦ absurd hlooks hnot⟩
    have hbefore : c.before = [] := by
      cases c with
      | list | separator => rfl
      | _ => cases hlooks
    rw [hbefore, unfuse_nil, List.nil_append]
  · obtain ⟨taken, hfirst, htakes, -⟩ := h.conserves hlooks rfl
    exact ⟨unfuse taken, by rw [hfirst, unfuse_append], fun _ ↦ htakes.unfuse_eq⟩

/-- A call that comes to a result has read a sequence of its symbol. -/
theorem Reads.means {c : Call} {ds : List Nat} {r : Parsed} {first rest w : List Token}
    (h : Reads c ds r) (hc : c.Sound) (hr : r = .ok (first, rest))
    (hw : unfuse first = unfuse c.before ++ w) : c.Means mutIsPath w := by
  induction h generalizing first rest w with
  | fault | lost => cases hr
  | done h =>
    cases hr
    exact means_of_advances hc.input h w hw
  | go h hgo ih =>
    subst hr
    obtain ⟨w', hyields⟩ := hgo.exists_yields
    have hmeans := ih (sound_of_advances hc h) rfl hyields.first_eq
    exact means_of_advances hc.input h w w' hmeans (hyields.first_eq.symm.trans hw)
  | part h hpart hnext ihpart ihnext =>
    subst hr
    obtain ⟨w', hpartYields⟩ := hpart.exists_yields
    obtain ⟨w'', hnextYields⟩ := hnext.exists_yields
    have hsound := sound_of_advances hc h
    have hpartMeans := ihpart hsound.1 rfl hpartYields.first_eq
    have hnextMeans := ihnext (hsound.2 _ _ (hpart.leaves hsound.1)) rfl hnextYields.first_eq
    exact means_of_advances hc.input h _ _ w' hpartYields hpartMeans w w'' hnextMeans
      (hnextYields.first_eq.symm.trans hw)

end Expander.Grammar
