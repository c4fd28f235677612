import Expander.Proofs.Grammar.Acceptance
import Expander.Proofs.Token.Mirrors

/-!
# Reading is local

What a call gives back does not depend on what it leaves, but for two tokens: with anything behind
what it took that mirrors two tokens of what it left, the call gives back the same and leaves that
(`Reads.repeats`). The second run need not take the same steps. Where an angle was cut, its halves
stand on their own then, and the step that cut it is one that finds an angle, or two of them.

What one step owes to this is `Plan.Repeats`, and that every step pays it is `repeats_of_advances`.
-/

set_option autoImplicit false

namespace Expander

open Token

/-- A token of another spelling is no joined angle. -/
theorem Token.isJoined_of_spells {t : Token} {s : String} (ht : t.spells s = true)
    (hs : s ∉ [">>", "<<"]) : t.isJoined = false := by
  rw [List.mem_cons, List.mem_singleton, not_or] at hs
  simp [isJoined, spells_eq ht, hs.1, hs.2]

theorem Token.Regular.isJoined_of_isIdent {t : Token} (h : t.Regular) (ht : t.isIdent = true) :
    t.isJoined = false := by
  rw [isJoined, h.spells_eq_false ht (by decide), h.spells_eq_false ht (by decide), Bool.or_self]

namespace Grammar

/-- An identifier is never half of a token, nor cut into halves. So it is with lifetimes and
literals. -/
theorem whole_ident : ident.Whole := whole_kind (by decide)

theorem whole_lifetime : lifetime.Whole := whole_kind (by decide)

theorem whole_literal : literal.Whole := whole_kind (by decide)

/-! ### Calls on other tokens -/

/-- A call with other tokens ahead of it. -/
@[simp] def Call.onto : Call → List Token → Call
  | path _, z => path z
  | tail before _, z => tail before z
  | after before _, z => after before z
  | more before read _, z => more before read z
  | param _, z => param z
  | arrow before _, z => arrow before z
  | list s _, z => list s z
  | separator s element _, z => separator s element z
  | type _, z => type z
  | summed _, z => summed z
  | summands before _, z => summands before z
  | summand before read _, z => summand before read z
  | bounds before read _, z => bounds before read z
  | bound _, z => bound z
  | arrayEnd before _ element ts, z => arrayEnd before z element ts
  | pointer before _, z => pointer before z
  | self angle _, z => self angle z
  | afterSelf before read _, z => afterSelf before read z
  | selfEnd before read _, z => selfEnd before read z
  | back r before read _, z => back r before read z

/-- With anything behind what was taken that mirrors two tokens of the rest, a call gives back the
same and leaves that. -/
def Call.Repeats (c : Call) (first rest : List Token) : Prop :=
  ∀ taken z, first = c.before ++ taken → Mirrors 2 rest z →
    ∃ ds, Reads (c.onto (taken ++ z)) ds (.ok (first, z))

/-- What a step leads to may be repeated, and then so may the call. -/
def Plan.Repeats (c : Call) : Plan → Prop
  | .fault _ => True
  | .done first rest => c.Repeats first rest
  | .go c' => ∀ ds first rest, Reads c' ds (.ok (first, rest)) → c'.Repeats first rest →
      c.Repeats first rest
  | .part c' next => ∀ ds first rest ds' first' rest', Reads c' ds (.ok (first, rest)) →
      (c'.Looks ∨ c'.Repeats first rest) → Reads (next first rest) ds' (.ok (first', rest')) →
        (next first rest).Repeats first' rest' → c.Repeats first' rest'

variable {c c' : Call} {next : List Token → List Token → Call} {first rest : List Token}

/-! ### Ways to go on -/

/-- A call at its end gives back the same in front of other tokens that begin alike, as it has
looked no further. -/
theorem repeats_done (taken : List Token) (hfirst : first = c.before ++ taken)
    (h : ∀ z, Mirrors 2 rest z → ∃ ds, Reads (c.onto (taken ++ z)) ds (.ok (first, z))) :
    (Plan.done first rest).Repeats c := by
  rintro taken' z hfirst' hz
  obtain rfl := List.append_cancel_left (hfirst.symm.trans hfirst')
  exact h z hz

/-- Some tokens ahead are taken as they are. -/
theorem repeats_go (front : List Token) (hlooks : ¬ c'.Looks)
    (hbefore : c'.before = c.before ++ front)
    (h : ∀ ds first rest z, Reads c' ds (.ok (first, rest)) → Mirrors 2 c'.ahead z →
      Advances (c.onto (front ++ z)) (.go (c'.onto z))) : (Plan.go c').Repeats c := by
  intro ds first rest hreads hrepeats taken z hfirst hz
  obtain ⟨taken', hfirst', htakes, -⟩ := hreads.conserves hlooks rfl
  obtain rfl : taken = front ++ taken' := by
    rw [hfirst', hbefore, List.append_assoc] at hfirst
    exact (List.append_cancel_left hfirst).symm
  obtain ⟨ds', hreads'⟩ := hrepeats taken' z hfirst' hz
  rw [List.append_assoc]
  exact ⟨_, .go (h ds first rest _ hreads (htakes.mirrors hz)) hreads'⟩

/-- Behind some tokens there is a part. -/
theorem repeats_part (front : List Token) (hlooks : ¬ c'.Looks)
    (hnext : ∀ first rest, ¬ (next first rest).Looks ∧
      (next first rest).before = c.before ++ front ++ first ∧ (next first rest).ahead = rest ∧
      ∀ z, (next first rest).onto z = next first z)
    (h : ∀ z, (c'.Consumes → z ≠ [] ∧ Mirrors 3 c'.ahead z) →
      Advances (c.onto (front ++ c'.before ++ z)) (.part (c'.onto z) next)) :
    (Plan.part c' next).Repeats c := by
  intro ds first rest ds' first' rest' hpart hpartRepeats hreads hrepeats taken z hfirst hz
  obtain ⟨hnextLooks, hbefore, hahead, honto⟩ := hnext first rest
  obtain ⟨taken₁, hfirst₁, htakes₁, hne⟩ := hpart.conserves hlooks rfl
  obtain ⟨taken₂, hfirst₂, htakes₂, -⟩ := hreads.conserves hnextLooks rfl
  obtain rfl : taken = front ++ c'.before ++ (taken₁ ++ taken₂) := by
    rw [hfirst₂, hbefore, hfirst₁] at hfirst
    simpa only [List.append_assoc, List.append_cancel_left_eq, eq_comm] using hfirst
  rw [hahead] at htakes₂
  have hrest := htakes₂.mirrors hz
  obtain ⟨ds₁, hreads₁⟩ := hpartRepeats.resolve_left hlooks taken₁ _ hfirst₁ hrest
  obtain ⟨ds₂, hreads₂⟩ := hrepeats taken₂ z hfirst₂ hz
  rw [honto] at hreads₂
  have hadvances := h (taken₁ ++ (taken₂ ++ z)) fun hc ↦
    ⟨by simp [hne hc], htakes₁.mirrors_succ (hne hc) hrest⟩
  simp only [List.append_assoc] at hadvances ⊢
  exact ⟨_, .part hadvances hreads₁ hreads₂⟩

/-- Behind some tokens two opening angles are cut, and a part takes the second. -/
theorem repeats_cut (front lead : List Token) {o o₁ o₂ : Token} {ts : List Token}
    (hcut : o.halves? = some (o₁, o₂)) (hlooks : ¬ c'.Looks) (hconsumes : c'.Consumes)
    (ho : o.spells "<<" = true) (hahead' : c'.ahead = o₂ :: ts) (hlead : lead ++ c'.before = [o₁])
    (hnext : ∀ first rest, ¬ (next first rest).Looks ∧
      (next first rest).before = c.before ++ front ++ lead ++ first ∧
      (next first rest).ahead = rest ∧ ∀ z, (next first rest).onto z = next first z)
    (h : ∀ u z, u.spells "<" = true →
      Advances (c.onto (front ++ o₁ :: u :: z)) (.part (c'.onto (u :: z)) next)) :
    (Plan.part c' next).Repeats c := by
  refine repeats_part (front ++ lead) hlooks (fun first rest ↦ ?_) fun z hz ↦ ?_
  · simpa only [List.append_assoc] using hnext first rest
  · obtain ⟨hne, hmirrors⟩ := hz hconsumes
    have htwo : o₂.spells "<" = true := (spells_halves ho rfl hcut).2
    obtain ⟨u, us, rfl, hsame, -⟩ := (hahead' ▸ hmirrors).exists_same hne
      (isJoined_of_spells htwo (by decide))
    have hu : u.spells "<" = true := (holds_of_same hsame (.spelling "<")).trans htwo
    rw [List.append_assoc front, hlead, List.append_assoc]
    exact h u us hu

/-- A part reads the tokens of a group, and what follows goes on behind the group. -/
theorem repeats_group (front : List Token)
    (hnext : ∀ first rest, ¬ (next first rest).Looks ∧
      (next first rest).before = c.before ++ front)
    (h : ∀ z, Advances (c.onto (front ++ z))
      (.part c' fun first rest ↦ (next first rest).onto z)) :
    (Plan.part c' next).Repeats c := by
  intro ds first rest ds' first' rest' hpart _ hreads hrepeats taken z hfirst hz
  obtain ⟨hlooks, hbefore⟩ := hnext first rest
  obtain ⟨taken', hfirst', -, -⟩ := hreads.conserves hlooks rfl
  obtain rfl : taken = front ++ taken' := by
    rw [hfirst', hbefore, List.append_assoc] at hfirst
    exact (List.append_cancel_left hfirst).symm
  obtain ⟨ds', hreads'⟩ := hrepeats taken' z hfirst' hz
  rw [List.append_assoc]
  exact ⟨_, .part (h (taken' ++ z)) hpart hreads'⟩

/-! ### Steps -/

section

variable {before read ts z : List Token} {p : Plan}

/-- No path goes on where a mirror of a closing angle stands. -/
theorem advances_mirrored {e : Token} (he : e.spells ">" = true) (hz : Mirrors 2 (e :: ts) z) :
    Advances (.after before z) (.done before z) := by
  have hmirror : startsWith z ["::"] = false :=
    hz.lacks (whole_spelling (by decide)) (startsWith_false_of_spells he (by decide))
  exact .pathEnd fun hstart ↦ by simp [hmirror] at hstart

/-- A path takes its step in front of other tokens as well. So it is shown below for the other
calls. -/
theorem repeats_path (h : Advances (.path ts) p) : p.Repeats (.path ts) := by
  cases h with
  | @rooted d t ts hd ht =>
    exact repeats_part [d, t] id (fun _ _ ↦ ⟨id, rfl, rfl, fun _ ↦ rfl⟩) fun z _ ↦ .rooted hd ht
  | @plain t ts ht hd =>
    exact repeats_part [t] id (fun _ _ ↦ ⟨id, rfl, rfl, fun _ ↦ rfl⟩) fun z _ ↦ .plain ht hd
  | _ => trivial

/-- Where a path was read on behind a double colon, nothing else is read there in a mirror. -/
theorem lacks_mark_of_reads (hts : RegularAll ts) {ds : List Nat} {first rest : List Token}
    (h : Reads (.after before ts) ds (.ok (first, rest))) (hz : Mirrors 2 ts z) {s : String}
    (hs : isMark s = true) : startsWith z ["::", .spelling s] = false := by
  have hcolons : ∀ q ∈ [Pattern.spelling "::"], q.Whole :=
    List.forall_mem_singleton.mpr (whole_spelling (by decide))
  have hends : Mirrors ([Pattern.spelling "::"].length + 1) ts z := hz
  rw [Bool.eq_false_iff]
  intro hstart
  cases h with
  | done h =>
    cases h with
    | pathEnd hend =>
      have hlength := hends.ends hcolons hend (startsWith_of_append hstart)
      have hle := length_le_of_startsWith hstart
      simp [hlength] at hle
  | go h =>
    cases h with
    | @segment _ ts d t hd ht =>
      obtain ⟨u, us, rfl, -, hnext⟩ := hz.exists_same (by rintro rfl; cases hstart)
        (isJoined_of_spells hd (by decide))
      have hregular : t.Regular := (regularAll_cons.mp (regularAll_cons.mp hts).2).1
      obtain ⟨v, vs, rfl, hsame, -⟩ := hnext.exists_same (by rintro rfl; simp at hstart)
        (hregular.isJoined_of_isIdent ht)
      have hv : v.spells s = false :=
        (holds_of_same hsame (.spelling s)).trans (hregular.spells_eq_false ht hs)
      simp [hv] at hstart
  | part h => cases h

/-- Of what may follow an identifier, colons with an angle need the most tokens to be told: two, and
one more behind them. -/
theorem repeats_tail (hts : RegularAll ts) (h : Advances (.tail before ts) p) :
    p.Repeats (.tail before ts) := by
  cases h with
  | @empty _ cs ts o e hcs ho he =>
    refine repeats_go (cs ++ [o, e]) id (by simp [Call.before]) fun _ _ _ z _ _ ↦ ?_
    simpa using Advances.empty hcs ho he
  | @emptyFused _ cs ts o e e₁ e₂ hcs ho he hcut =>
    obtain ⟨hone, htwo⟩ := spells_halves he rfl hcut
    refine repeats_done (cs ++ [o, e₁]) (by simp [Call.before]) fun z hz ↦ ?_
    -- The first half closes the list on its own now, and the mirror of the other ends the path.
    have hreads : Reads (.tail before (cs ++ o :: e₁ :: z)) _
        (.ok (before ++ cs ++ [o, e₁], z)) :=
      .go (.empty hcs ho hone) (.done (advances_mirrored htwo hz))
    exact ⟨_, by simpa using hreads⟩
  | @opening _ cs ts o hcs ho hts hone htwo =>
    refine repeats_part (cs ++ [o]) id (fun _ _ ↦ ⟨id, by simp [Call.before], rfl, fun _ ↦ rfl⟩)
      fun z hz ↦ ?_
    obtain ⟨hne, hmirrors⟩ := hz trivial
    simpa [Call.before] using Advances.opening hcs ho hne (hmirrors.startsWith_angle hone htwo)
      (hmirrors.lacks (whole_spelling (by decide)) htwo)
  | @openingFused _ cs ts o o₁ o₂ hcs ho hcut =>
    obtain ⟨hone, -⟩ := spells_halves ho rfl hcut
    refine repeats_cut cs [o₁] hcut id trivial ho rfl rfl
      (fun _ _ ↦ ⟨id, by simp [Call.before], rfl, fun _ ↦ rfl⟩) fun u z hu ↦ ?_
    exact .opening hcs hone (List.cons_ne_nil _ _) (startsWith_false_of_spells hu (by decide))
      (startsWith_false_of_spells hu (by decide))
  | @fnArgs _ ts inner span =>
    exact repeats_group [.group .paren span inner] (fun _ _ ↦ ⟨id, rfl⟩) fun z ↦ .fnArgs
  | noArgs hone htwo hparen =>
    refine repeats_go [] id (by simp [Call.before]) fun ds first rest z hreads hz ↦ ?_
    -- Behind a double colon that the path went on with stands an identifier, and nothing behind one
    -- that it left.
    have hmark : ∀ s, isMark s = true → startsWith z ["::", .spelling s] = true → z.length = 2 :=
      fun s hs h ↦ by simp [lacks_mark_of_reads hts hreads hz hs] at h
    exact .noArgs (hz.startsWith_angle hone htwo) (hz.lacks (whole_spelling (by decide)) htwo)
      (hz.lacks whole_group hparen) (hmark "<" (by decide)) (hmark "<<" (by decide))
  | openingLast => trivial

theorem repeats_after (h : Advances (.after before ts) p) : p.Repeats (.after before ts) := by
  cases h with
  | @segment _ ts d t hd ht =>
    exact repeats_go [d, t] id rfl fun _ _ _ z _ _ ↦ .segment hd ht
  | pathEnd hend =>
    refine repeats_done [] (by simp [Call.before]) fun z hz ↦ ⟨_, .done (.pathEnd ?_)⟩
    have hends : Mirrors ([Pattern.spelling "::"].length + 1) ts z := hz
    exact hends.ends (List.forall_mem_singleton.mpr (whole_spelling (by decide))) hend
  | segmentNoIdent => trivial

theorem repeats_more (h : Advances (.more before read ts) p) :
    p.Repeats (.more before read ts) := by
  cases h with
  | @close _ _ ms ts e hms he =>
    refine repeats_go (ms ++ [e]) id (by simp [Call.before]) fun _ _ _ z _ _ ↦ ?_
    simpa using Advances.close hms he
  | @closeFused _ _ ms ts e e₁ e₂ hms he hcut =>
    obtain ⟨hone, htwo⟩ := spells_halves he rfl hcut
    refine repeats_done (ms ++ [e₁]) (by simp [Call.before]) fun z hz ↦ ?_
    have hreads : Reads (.more before read (ms ++ e₁ :: z)) _
        (.ok (before ++ read ++ ms ++ [e₁], z)) :=
      .go (.close hms hone) (.done (advances_mirrored htwo hz))
    exact ⟨_, by simpa using hreads⟩
  | @comma _ _ ts m hm hts hone htwo =>
    refine repeats_part [m] id (fun _ _ ↦ ⟨id, by simp [Call.before], rfl, fun _ ↦ rfl⟩)
      fun z hz ↦ ?_
    obtain ⟨hne, hmirrors⟩ := hz trivial
    exact .comma hm hne (hmirrors.startsWith_angle hone htwo)
      (hmirrors.lacks (whole_spelling (by decide)) htwo)
  | _ => trivial

theorem repeats_param (h : Advances (.param ts) p) : p.Repeats (.param ts) := by
  cases h with
  | @single ts t ht =>
    exact repeats_done [t] rfl fun z _ ↦ ⟨_, .done (.single ht)⟩
  | @negative ts m l hm hl =>
    exact repeats_done [m, l] rfl fun z _ ↦ ⟨_, .done (.negative hm hl)⟩
  | @binding ts t e ht he hts =>
    exact repeats_part [t, e] id (fun _ _ ↦ ⟨id, rfl, rfl, fun _ ↦ rfl⟩) fun z hz ↦
      .binding ht he (hz trivial).1
  | @typeParam ts t hlifetime hliteral hbrace hbinding hnegative =>
    refine repeats_part [] id (fun _ _ ↦ ⟨id, rfl, rfl, fun _ ↦ rfl⟩) fun z hz ↦ ?_
    obtain ⟨hne, hmirrors⟩ := hz trivial
    obtain ⟨u, us, rfl⟩ := List.exists_cons_of_ne_nil hne
    have hlacks : ∀ q : Pattern, q.Whole → q.holds t = false → q.holds u = false := by
      intro q hq ht
      have hts : startsWith (t :: ts) [q] = false := by simpa using ht
      simpa using hmirrors.lacks hq hts
    have hsign : Mirrors [Pattern.spelling "-", literal].length (t :: ts) (u :: us) :=
      hmirrors.pred
    have hname : Mirrors ([ident, Pattern.spelling "="].length + 1) (t :: ts) (u :: us) :=
      hmirrors
    refine .typeParam (hlacks lifetime whole_lifetime hlifetime)
      (hlacks literal whole_literal hliteral) ?_ ?_ ?_
    · exact of_decide_eq_false (hlacks (.group .brace) whole_group (decide_eq_false hbrace))
    · refine fun hstart ↦ Nat.succ.inj ?_
      exact hname.ends (by simp [whole_ident, whole_spelling])
        (fun h ↦ congrArg Nat.succ (hbinding h)) hstart
    · exact hsign.startsWith_false (by simp [whole_literal, whole_spelling]) hnegative
  | noParam => trivial

theorem repeats_arrow (h : Advances (.arrow before ts) p) : p.Repeats (.arrow before ts) := by
  cases h with
  | @arrow _ ts a ha hts =>
    exact repeats_part [a] id (fun _ _ ↦ ⟨id, rfl, rfl, fun _ ↦ rfl⟩) fun z hz ↦
      .arrow ha (hz trivial).1
  | noArrow hend =>
    exact repeats_done [] (by simp [Call.before]) fun z hz ↦
      ⟨_, .done (.noArrow (hz.lacks (whole_spelling (by decide)) hend))⟩
  | arrowLast => trivial

/-- What begins a path is mirrored by what reads like it. -/
theorem exists_pathStart {n : Nat} {t : Token} (h : Mirrors (n + 1) (t :: ts) z)
    (hts : RegularAll (t :: ts)) (hne : z ≠ []) (ht : t.spells "::" = true ∨ t.isIdent = true) :
    ∃ u us, z = u :: us ∧ (u.spells "::" = true ∨ u.isIdent = true) ∧
      ∀ s, u.spells s = t.spells s := by
  have hjoined : t.isJoined = false := by
    rcases ht with ht | ht
    · exact isJoined_of_spells ht (by decide)
    · exact (regularAll_cons.mp hts).1.isJoined_of_isIdent ht
  obtain ⟨u, us, rfl, hsame, -⟩ := h.exists_same hne hjoined
  have hspells : ∀ s, u.spells s = t.spells s := fun s ↦ holds_of_same hsame (.spelling s)
  have hident : u.isIdent = t.isIdent := holds_of_same hsame ident
  exact ⟨u, us, rfl, by rwa [hspells, hident], hspells⟩

/-- A type is told by its first token, and a reference takes its marks where they stand. -/
theorem repeats_type (hts : RegularAll ts) (h : Advances (.type ts) p) : p.Repeats (.type ts) := by
  cases h with
  | @tuple ts inner span =>
    exact repeats_group [.group .paren span inner] (fun _ _ ↦ ⟨id, rfl⟩) fun z ↦ .tuple
  | @bracketed ts inner span hinner =>
    exact repeats_group [.group .bracket span inner] (fun _ _ ↦ ⟨id, rfl⟩) fun z ↦
      .bracketed hinner
  | @reference a ls ms ts ha hls hms hnoLifetime hnoMut hts =>
    refine repeats_part (a :: (ls ++ ms)) id (fun _ _ ↦ ⟨id, rfl, rfl, fun _ ↦ rfl⟩) fun z hz ↦ ?_
    obtain ⟨hne, hmirrors⟩ := hz trivial
    have hmarked : Mirrors 3 (ms ++ ts) (ms ++ z) := (takes_append ms ts).mirrors hmirrors
    simpa [Call.before] using Advances.reference ha hls hms
      (fun h ↦ hmarked.lacks whole_lifetime (hnoLifetime h))
      (fun h ↦ hmirrors.lacks (whole_spelling (by decide)) (hnoMut h)) hne
  | @pointer a m ts ha hm hts =>
    exact repeats_part [a, m] id (fun _ _ ↦ ⟨id, rfl, rfl, fun _ ↦ rfl⟩) fun z hz ↦
      .pointer ha hm (hz trivial).1
  | @lone t ts ht => exact repeats_done [t] rfl fun z _ ↦ ⟨_, .done (.lone ht)⟩
  | @fnPointer t ts ht =>
    have hjoined : t.isJoined = false := by
      rcases ht with ht | ht | ht <;> exact isJoined_of_spells ht (by decide)
    refine repeats_part [] id (fun _ _ ↦ ⟨id, rfl, rfl, fun _ ↦ rfl⟩) fun z hz ↦ ?_
    obtain ⟨hne, hmirrors⟩ := hz trivial
    obtain ⟨u, us, rfl, hsame, -⟩ := hmirrors.exists_same hne hjoined
    have hspells : ∀ s, u.spells s = t.spells s := fun s ↦ holds_of_same hsame (.spelling s)
    exact .fnPointer (by simpa only [hspells] using ht)
  | @bounded t ts ht hts =>
    exact repeats_part [t] id (fun _ _ ↦ ⟨id, rfl, rfl, fun _ ↦ rfl⟩) fun z hz ↦
      .bounded ht (hz trivial).1
  | @qualified o ts ho hts =>
    exact repeats_part [] id (fun _ _ ↦ ⟨id, rfl, rfl, fun _ ↦ rfl⟩) fun z hz ↦
      .qualified ho (hz trivial).1
  | @qualifiedFused o o₁ o₂ ts ho hcut =>
    obtain ⟨hone, -⟩ := spells_halves ho rfl hcut
    exact repeats_cut [] [] hcut id trivial ho rfl rfl (fun _ _ ↦ ⟨id, rfl, rfl, fun _ ↦ rfl⟩)
      fun u z _ ↦ .qualified hone (List.cons_ne_nil _ _)
  | @typePath t ts ht hstart =>
    refine repeats_part [] id (fun _ _ ↦ ⟨id, rfl, rfl, fun _ ↦ rfl⟩) fun z hz ↦ ?_
    obtain ⟨hne, hmirrors⟩ := hz trivial
    obtain ⟨u, us, rfl, hu, hspells⟩ := exists_pathStart hmirrors hts hne ht
    exact .typePath hu fun s hs ↦ (hspells s).trans (hstart s hs)
  | _ => trivial

theorem repeats_summands (h : Advances (.summands before ts) p) :
    p.Repeats (.summands before ts) := by
  cases h with
  | @plus _ ts a ha hts =>
    exact repeats_part [a] id (fun _ _ ↦ ⟨id, by simp [Call.before], rfl, fun _ ↦ rfl⟩) fun z hz ↦
      .plus ha (hz trivial).1
  | noPlus hend =>
    exact repeats_done [] (by simp [Call.before]) fun z hz ↦
      ⟨_, .done (.noPlus (hz.lacks (whole_spelling (by decide)) hend))⟩
  | plusLast => trivial

theorem repeats_bounds (h : Advances (.bounds before read ts) p) :
    p.Repeats (.bounds before read ts) := by
  cases h with
  | @boundPlus _ _ ts a ha hts =>
    exact repeats_part [a] id (fun _ _ ↦ ⟨id, by simp [Call.before], rfl, fun _ ↦ rfl⟩) fun z hz ↦
      .boundPlus ha (hz trivial).1
  | boundNoPlus hend =>
    exact repeats_done [] (by simp [Call.before]) fun z hz ↦
      ⟨_, .done (.boundNoPlus (hz.lacks (whole_spelling (by decide)) hend))⟩
  | boundPlusLast => trivial

theorem repeats_bound (hts : RegularAll ts) (h : Advances (.bound ts) p) :
    p.Repeats (.bound ts) := by
  cases h with
  | @simpleBound t ts ht => exact repeats_done [t] rfl fun z _ ↦ ⟨_, .done (.simpleBound ht)⟩
  | @maybeBound q ts hq hts =>
    exact repeats_part [q] id (fun _ _ ↦ ⟨id, rfl, rfl, fun _ ↦ rfl⟩) fun z hz ↦
      .maybeBound hq (hz trivial).1
  | @pathBound t ts ht hq =>
    refine repeats_part [] id (fun _ _ ↦ ⟨id, rfl, rfl, fun _ ↦ rfl⟩) fun z hz ↦ ?_
    obtain ⟨hne, hmirrors⟩ := hz trivial
    obtain ⟨u, us, rfl, hu, hspells⟩ := exists_pathStart hmirrors hts hne ht
    exact .pathBound hu ((hspells "?").trans hq)
  | _ => trivial

theorem repeats_pointer (h : Advances (.pointer before ts) p) : p.Repeats (.pointer before ts) := by
  cases h with
  | @fn _ ts inner f span hf =>
    exact repeats_group [f, .group .paren span inner] (fun _ _ ↦ ⟨id, rfl⟩) fun z ↦ .fn hf
  | @unsafeFn _ ts t ht => exact repeats_go [t] id rfl fun _ _ _ z _ _ ↦ .unsafeFn ht
  | @externFn _ ls ts t ht hls hnone =>
    exact repeats_go (t :: ls) id rfl fun _ _ _ z _ hz ↦
      .externFn ht hls fun h ↦ hz.lacks whole_literal (hnone h)
  | _ => trivial

theorem repeats_endsSelf (h : EndsSelf before ts p) (hbefore : c.before = before)
    (hc : ∀ e z, e.spells ">" = true → ∀ p, EndsSelf before (e :: z) p →
      Advances (c.onto (e :: z)) p) : p.Repeats c := by
  cases h with
  | @item e d t ts he hd ht =>
    exact repeats_go [e, d, t] id (by rw [hbefore]; rfl) fun _ _ _ z _ _ ↦
      hc e (d :: t :: z) he _ (.item he hd ht)
  | _ => trivial

theorem repeats_afterSelf (h : Advances (.afterSelf before read ts) p) :
    p.Repeats (.afterSelf before read ts) := by
  cases h with
  | @asPath _ _ ts a ha hts =>
    exact repeats_part [a] id (fun _ _ ↦ ⟨id, by simp [Call.before], rfl, fun _ ↦ rfl⟩) fun z hz ↦
      .asPath ha (hz trivial).1
  | noAs _ hend =>
    refine repeats_endsSelf hend rfl fun e z he p hp ↦ .noAs (fun hstart ↦ ?_) hp
    simp [spells_eq he] at hstart

end

/-- Whatever step a call takes, it takes it in front of other tokens that begin alike. -/
theorem repeats_of_advances {p : Plan} (hc : RegularAll c.ahead) (hlooks : ¬ c.Looks)
    (h : Advances c p) : p.Repeats c := by
  cases c with
  | path => exact repeats_path h
  | tail => exact repeats_tail hc h
  | after => exact repeats_after h
  | more => exact repeats_more h
  | param => exact repeats_param h
  | arrow => exact repeats_arrow h
  | list | separator => exact absurd trivial hlooks
  | type => exact repeats_type hc h
  | summed =>
    cases h with
    | summed => exact repeats_part [] id (fun _ _ ↦ ⟨id, rfl, rfl, fun _ ↦ rfl⟩) fun z _ ↦ .summed
  | summands => exact repeats_summands h
  | summand =>
    cases h with
    | summand => exact repeats_go [] id (by simp [Call.before]) fun _ _ _ z _ _ ↦ .summand
  | bounds => exact repeats_bounds h
  | bound => exact repeats_bound hc h
  | arrayEnd =>
    cases h with
    | arrayEnd hend =>
      exact repeats_done [] (by simp [Call.before]) fun z _ ↦ ⟨_, .done (.arrayEnd hend)⟩
    | noArrayEnd => trivial
  | pointer => exact repeats_pointer h
  | self =>
    cases h with
    | self =>
      exact repeats_part [] id (fun _ _ ↦ ⟨id, by simp [Call.before], rfl, fun _ ↦ rfl⟩)
        fun z _ ↦ .self
  | afterSelf => exact repeats_afterSelf h
  | selfEnd =>
    cases h with
    | selfEnd hend => exact repeats_endsSelf hend rfl fun e z _ p hp ↦ .selfEnd hp
  | back =>
    cases h with
    | back => exact repeats_done [] (by simp [Call.before]) fun z _ ↦ ⟨_, .done .back⟩

/-! ### Readings -/

/-- With anything behind what it took that mirrors two tokens of what it left, a call gives back the
same and leaves that. -/
theorem Reads.repeats {ds : List Nat} {r : Parsed} (h : Reads c ds r) (hc : c.Sound)
    (hlooks : ¬ c.Looks) (hr : r = .ok (first, rest)) : c.Repeats first rest := by
  induction h generalizing first rest with
  | fault => cases hr
  | done h =>
    cases hr
    exact repeats_of_advances hc.ahead hlooks h
  | @go c c' ds r h hgo ih =>
    subst hr
    have hrepeats := ih (sound_of_advances hc h) (conserves_of_advances h hlooks).1 rfl
    exact repeats_of_advances hc.ahead hlooks h _ _ _ hgo hrepeats
  | @part c c' next _ _ first' rest' _ h hpart hnext ihpart ihnext =>
    subst hr
    obtain ⟨hsound, hsoundNext⟩ := sound_of_advances hc h
    have hleaves := hpart.leaves hsound
    have hnextLooks := (conserves_of_advances h hlooks first' rest' hleaves.1).1
    have hpartRepeats : c'.Looks ∨ c'.Repeats first' rest' := by
      by_cases hlooks' : c'.Looks
      · exact .inl hlooks'
      · exact .inr (ihpart hsound hlooks' rfl)
    exact repeats_of_advances hc.ahead hlooks h _ _ _ _ _ _ hpart hpartRepeats hnext
      (ihnext (hsoundNext _ _ hleaves) hnextLooks rfl)
  | lost => cases hr

end Grammar

/-! ### Entries -/

open Grammar Machine

variable {σ : Type} {file source : String} {ts first rest : List Token}

/-- What a run of an entry comes to that answers to a destination which keeps its outputs, if it
comes to a value. -/
theorem exists_reads_of_ok (hlex : lex file source = .ok ts) {more : List (Callee × Handler σ)}
    {e : Entry} {returnsTo : Destination} {last : Callee}
    (hleads : returnsTo.LeadsTo (Registry.standardAnd more) last)
    (hkeeps : (Registry.standardAnd more).handler last = Destinations.capture) {limits : Limits}
    {w : World σ} {value : Value} (hresult : e.result more limits ts returnsTo w = .ok value) :
    ∃ ds first rest, Reads (e.call ts) ds (.ok (first, rest)) ∧
      value = .outputs (e.outputs first rest) := by
  obtain ⟨ds, r, hreads⟩ := exists_reads_of_lex hlex e
  have hunlimited : Unlimited (e.result more limits ts returnsTo w) := hresult ▸ nofun
  rw [result_of_unlimited hreads hleads (.capture hkeeps) hunlimited] at hresult
  cases r with
  | error f => cases hresult
  | ok parsed =>
    rw [returned_entry] at hresult
    cases hresult
    exact ⟨ds, parsed.1, parsed.2, hreads, rfl⟩

/-- What an entry gave back is given back again, and what stands behind it now is left: nothing, or
anything that begins with the two tokens which were left before, or with the only one and ends where
these end. -/
theorem capture_local (hlex : lex file source = .ok ts) {more : List (Callee × Handler σ)}
    {e : Entry} {returnsTo : Destination} {last : Callee}
    (hleads : returnsTo.LeadsTo (Registry.standardAnd more) last)
    (hkeeps : (Registry.standardAnd more).handler last = Destinations.capture) {limits : Limits}
    {w : World σ}
    (hresult : e.result more limits ts returnsTo w = .ok (.outputs (e.outputs first rest)))
    (behind : List Token)
    (hbehind : behind = [] ∨ sameAll (rest.take 2) (behind.take 2) = true) :
    (∀ limits' w', Unlimited (e.result more limits' (first ++ behind) returnsTo w') →
      e.result more limits' (first ++ behind) returnsTo w' =
        .ok (.outputs (e.outputs first behind))) ∧
    ∃ n : Nat, ∀ limits' : Limits, n ≤ limits'.recursion → n ≤ limits'.steps → ∀ w',
      e.result more limits' (first ++ behind) returnsTo w' =
        .ok (.outputs (e.outputs first behind)) := by
  obtain ⟨ds, hreads⟩ : ∃ ds, Reads (e.call ts) ds (.ok (first, rest)) := by
    obtain ⟨ds, first', rest', hreads, heq⟩ := exists_reads_of_ok hlex hleads hkeeps hresult
    cases heq
    exact ⟨ds, hreads⟩
  have hmirrors : Mirrors 2 rest behind := by
    rcases hbehind with rfl | hsame
    · exact .nil
    · exact mirrors_of_sameAll hsame
  have hregular : RegularAll ts := regular_of_lex hlex
  obtain ⟨ds', hreads'⟩ : ∃ ds', Reads (e.call (first ++ behind)) ds' (.ok (first, behind)) := by
    cases e with
    | path =>
      exact hreads.repeats (sound_of_input hregular rfl trivial) id rfl first behind rfl hmirrors
    | type =>
      exact hreads.repeats (sound_of_input hregular rfl trivial) id rfl first behind rfl hmirrors
  have hall : ∀ limits' w', Unlimited (e.result more limits' (first ++ behind) returnsTo w') →
      e.result more limits' (first ++ behind) returnsTo w' =
        .ok (.outputs (e.outputs first behind)) := by
    intro limits' w' hunlimited
    rw [result_of_unlimited hreads' hleads (.capture hkeeps) hunlimited, returned_entry]
    rfl
  obtain ⟨n, hn⟩ := exists_fits (runDepths ds' (.ok (first, behind)))
  exact ⟨hall, n, fun limits' hrecursion hsteps w' ↦ hall limits' w'
    (unlimited_of_fits hreads' hleads (.capture hkeeps) (hn limits' hrecursion hsteps))⟩

/-- A path that ends with the first half of an angle. -/
def cutPath : List Token := (lex "<input>" "A<B>>::C").toOption.getD []

/-- The run of a path on tokens, for a callee that keeps its outputs. -/
def keptPath (limits : Limits) (ts : List Token) : Except Failure Value :=
  Entry.path.result (σ := Unit) [(⟨"keep", none⟩, Destinations.capture)] limits ts
    (.callee (.callee ⟨"keep", none⟩)) (.initial ())

/-- The same path is read where both halves stand on their own. -/
theorem capture_local_cut : lex "<input>" "A<B>>::C" = .ok cutPath ∧ ∃ first rest limits,
    keptPath ⟨128, 100⟩ cutPath = .ok (.outputs (Entry.path.outputs first rest)) ∧
      sameAll (rest.take 2) (rest.take 2) = true ∧
      keptPath limits (first ++ rest) = .ok (.outputs (Entry.path.outputs first rest)) := by
  have hlex : lex "<input>" "A<B>>::C" = .ok cutPath := rfl
  have hok : (keptPath ⟨128, 100⟩ cutPath).isOk = true := by decide +kernel
  obtain ⟨first, rest, hresult⟩ : ∃ first rest,
      keptPath ⟨128, 100⟩ cutPath = .ok (.outputs (Entry.path.outputs first rest)) := by
    cases hrun : keptPath ⟨128, 100⟩ cutPath with
    | error f => simp [hrun, Except.isOk, Except.toBool] at hok
    | ok value =>
      obtain ⟨-, first, rest, -, rfl⟩ := exists_reads_of_ok hlex (.callee rfl) rfl hrun
      exact ⟨first, rest, rfl⟩
  have hsame := sameAll_self (rest.take 2)
  obtain ⟨-, n, hn⟩ :=
    capture_local hlex (.callee rfl) rfl hresult rest (.inr hsame)
  exact ⟨hlex, first, rest, ⟨n, n⟩, hresult, hsame, hn ⟨n, n⟩ (Int.le_refl n) (Int.le_refl n) _⟩

end Expander
