import Expander.Proofs.Grammar.Viability

/-!
# What stands before a fault

A fault is found early: the tokens before the one that it points at are the beginning of tokens on
which there is none. For a single step this is read off what the step may still find
(`blames_of_advances`). A call that goes on as another or opens a part takes the blame over, since
what can be completed there can be completed here (`Call.Opens.blames`), and so it goes for a whole
reading (`Reads.blames`). A run that is completed succeeds because all of the language is read.

At one place a fault is found late. Two angles in one close a self type and leave an angle that
belongs to nothing, but the token behind them is blamed. So the tokens before a fault can be
completed, or else it stands behind such angles, with which a self type is closed, and the tokens
before these can be (`before_fault_completable`). That the first alone is too much to say is
`fault_behind_doublyClosed`.
-/

set_option autoImplicit false

namespace Expander

namespace Grammar

open Token

/-! ### Blame -/

/-- Why a call may fault at a token. What stands ahead before the token is viable, or all that is
ahead. Or the token stands behind two closing angles in one, and what stands before these is viable
and ends with a self type that is open. Or it is hidden. -/
inductive Blames (c : Call) (t : Token) : Prop
  | behind {p q : List Token} (hahead : c.ahead = p ++ q) (hq : ∀ u ∈ q.head?, u = t)
      (h : Viable c (unfuse p)) : Blames c t
  | doubled {p q : List Token} {e : Token} (hahead : c.ahead = p ++ e :: t :: q)
      (he : e.spells ">>" = true) (h : Viable c (unfuse p)) (hopen : c.SelfOpen (unfuse p)) :
      Blames c t
  | hidden (h : t.HiddenIn c.ahead) : Blames c t

section

variable {c c' : Call} {before read ts : List Token} {t x : Token}

/-- A fault in a call that is opened is one of the call that opens it. -/
theorem Call.Opens.blames (hopens : c.Opens c') (h : Blames c' t) : Blames c t := by
  obtain ⟨u, hpasses, hviable, hheld⟩ := hopens
  cases h with
  | @behind p q hahead hq h =>
    have hc := hviable _ (admits_of_ahead hahead) h
    rw [hahead] at hpasses
    rcases hpasses.split with ⟨front, hfront, hunfuse⟩ | ⟨b, hb, hhidden, -⟩
    · exact .behind hfront hq (hunfuse ▸ hc)
    · exact .hidden (hq b hb ▸ hhidden)
  | @doubled p q e hahead he h hopen =>
    have hadmits := admits_of_ahead hahead
    have hc := hviable _ hadmits h
    have hcOpen := hopen.around hadmits hviable hheld
    rw [hahead] at hpasses
    rcases hpasses.split with ⟨front, hfront, hunfuse⟩ | ⟨b, hb, -, hspells⟩
    · exact .doubled hfront he (hunfuse ▸ hc) (hunfuse ▸ hcOpen)
    · obtain rfl : e = b := Option.some.inj hb
      rw [he] at hspells
      cases hspells
  | hidden h => exact .hidden (hpasses.hidden h)

/-- A fault at the first token ahead, where something else could have stood. -/
theorem blames_first (hahead : c.ahead = t :: ts) (h : Viable c []) : Blames c t :=
  .behind (p := []) hahead (by simp) h

/-- A fault at the second token, where something else could have stood behind the first. -/
theorem blames_second (hahead : c.ahead = x :: t :: ts) (h : Viable c x.unfused) :
    Blames c t :=
  .behind (p := [x]) hahead (by simp) (by simpa using h)

/-- Where the tokens ran out, any token may be blamed. -/
theorem blames_last (h : Viable c (unfuse c.ahead)) : Blames c t :=
  .behind (List.append_nil _).symm (by simp) h

theorem blames_nothing (hahead : c.ahead = []) (h : Viable c []) : Blames c t :=
  blames_last (hahead ▸ unfuse_nil ▸ h)

/-! ### Faults -/

/-- A path faults where a name is missing, and any name will do. So the faults of the other calls
are gone through below, each with what could have stood there. -/
theorem blames_path (h : Advances (.path ts) (.fault (.unexpected t))) : Blames (.path ts) t := by
  cases h with
  | @rootedNoIdent d _ ts hd =>
    obtain ⟨x, hspare, hx, -⟩ := exists_name
    refine blames_second rfl ⟨[x], hspare, ?_⟩
    rw [unfused_of_spells hd (by decide)]
    exact .path (.one hd) hx (.plain .pathEnd)
  | noIdent => exact blames_first rfl viable_path

/-- An angle that breaks off could have been closed at once. -/
theorem blames_tail (h : Advances (.tail before ts) (.fault (.unexpected t))) :
    Blames (.tail before ts) t := by
  cases h with
  | openingLast ho =>
    obtain ⟨e, hspare, he⟩ := exists_spelling (s := ">") (by decide)
    refine blames_last ⟨[e], hspare, ?_⟩
    have hfront : unfuse [t] = [t] := by simp [unfused_of_spells ho (by decide)]
    rw [show unfuse (Call.tail before [t]).ahead = [t] from hfront]
    exact .empty .none ho he .pathEnd

theorem blames_after (h : Advances (.after before ts) (.fault (.unexpected t))) :
    Blames (.after before ts) t := by
  cases h with
  | segmentNoIdent hd =>
    obtain ⟨x, hspare, hx, -⟩ := exists_name
    refine blames_second rfl ⟨[x], hspare, ?_⟩
    rw [unfused_of_spells hd (by decide)]
    exact .segment hd hx (.plain .pathEnd)

/-- Behind a parameter, the list may be closed. -/
theorem viable_more : Viable (.more before read ts) [] := by
  obtain ⟨e, hspare, he⟩ := exists_spelling (s := ">") (by decide)
  exact ⟨[e], hspare, fun ps hps ↦ ⟨ps, e, [], rfl, List.append_nil ps ▸ .lastParam hps .none, he,
    .pathEnd⟩⟩

theorem blames_more (h : Advances (.more before read ts) (.fault (.unexpected t))) :
    Blames (.more before read ts) t := by
  cases h with
  | leftOpen => exact blames_nothing rfl viable_more
  | noComma => exact blames_first rfl viable_more

theorem blames_arrow (h : Advances (.arrow before ts) (.fault (.unexpected t))) :
    Blames (.arrow before ts) t := by
  cases h with
  | arrowLast ha => exact (opens_arrow ha).blames (blames_nothing rfl viable_type)

/-- Behind a star, a pointer goes on with a mark and a type. -/
theorem viable_pointer {a : Token} (ha : a.spells "*" = true) :
    Viable (.type ts) a.unfused := by
  obtain ⟨m, hmark, hm⟩ := exists_spelling (s := "const") (by decide)
  obtain ⟨x, hspare, htype, -⟩ := exists_typeName
  refine ⟨[m, x], by simp_all, ?_⟩
  rw [unfused_of_spells ha (by decide)]
  exact .pointer ha (.inl hm) htype

/-- Where a type is missing, a name will do for one. -/
theorem blames_type (hts : RegularAll ts) (h : Advances (.type ts) (.fault (.unexpected t))) :
    Blames (.type ts) t := by
  cases h with
  | bracketedEmpty | noTypeStart => exact blames_first rfl viable_type
  | @referenceLast a _ ls ms ha hls hms =>
    have hopens : Call.Opens (.type (a :: (ls ++ ms ++ []))) (.type []) :=
      opens_reference ha (regularAll_cons.mp hts).1 hls hms fun _ ↦ rfl
    rw [List.append_nil] at hopens
    exact hopens.blames (blames_nothing rfl viable_type)
  | pointerLast ha hm => exact (opens_pointer ha hm).blames (blames_nothing rfl viable_type)
  | pointerNoMark ha => exact blames_second rfl (viable_pointer ha)
  | pointerOnly ha =>
    have hviable : Viable (.type [t]) t.unfused := viable_pointer ha
    refine blames_last ?_
    simpa [Call.ahead, Call.input] using hviable
  | boundedLast ht => exact (opens_bounded ht).blames (blames_nothing rfl viable_bound)
  | qualifiedLast ho =>
    have hfront : unfuse [t] = [t] := by simp [unfused_of_spells ho (by decide)]
    have hself : Blames (.self [t] []) t := opens_self.blames (blames_nothing rfl viable_type)
    exact (opens_qualified ho (.whole rfl hfront)).blames hself

theorem blames_summands (h : Advances (.summands before ts) (.fault (.unexpected t))) :
    Blames (.summands before ts) t := by
  cases h with
  | plusLast ha =>
    have hopens : Call.Opens (.summands before [t]) (.bound []) := opens_plus ha rfl fun _ ↦ id
    exact hopens.blames (blames_nothing rfl viable_bound)

theorem blames_bounds (h : Advances (.bounds before read ts) (.fault (.unexpected t))) :
    Blames (.bounds before read ts) t := by
  cases h with
  | boundPlusLast ha =>
    have hopens : Call.Opens (.bounds before read [t]) (.bound []) := opens_plus ha rfl fun _ ↦ id
    exact hopens.blames (blames_nothing rfl viable_bound)

theorem blames_bound (h : Advances (.bound ts) (.fault (.unexpected t))) :
    Blames (.bound ts) t := by
  cases h with
  | maybeBoundLast hq => exact (opens_maybeBound hq).blames (blames_nothing rfl viable_path)
  | noBoundStart => exact blames_first rfl viable_bound

/-- Where a function pointer breaks off, the rest of one can follow. -/
theorem blames_pointer (h : Advances (.pointer before ts) (.fault (.unexpected t))) :
    Blames (.pointer before ts) t := by
  obtain ⟨span, hargs⟩ := exists_noArgs
  have hfn : ∀ f : Token, f.spells "fn" = true →
      Derives False .function [f, .group .paren span []] := fun f hf ↦ .fn hf .noTypes .noResult
  have hviable : Viable (.pointer before ts) [] := by
    obtain ⟨f, hspare, hf⟩ := exists_spelling (s := "fn") (by decide)
    exact ⟨[f, .group .paren span []], by simp_all, hfn f hf⟩
  cases h with
  | @fnNoArgs _ ts f _ hf =>
    refine blames_second rfl ⟨[.group .paren span []], hargs, ?_⟩
    rw [unfused_of_spells hf (by decide)]
    exact hfn f hf
  | pointerEmpty => exact blames_nothing rfl hviable
  | noFn => exact blames_first rfl hviable

/-- Where a self type ends, an item completes the path. Only behind two angles in one, none can. -/
theorem blames_endsSelf (h : EndsSelf before ts (.fault (.unexpected t))) (hahead : c.ahead = ts)
    (hopen : c.SelfOpen [])
    (hc : ∀ e d x, e.spells ">" = true → d.spells "::" = true → x.isIdent = true →
      c.Means False [e, d, x]) : Blames c t := by
  obtain ⟨e', d', x, hspare, he', hd', hx⟩ := exists_item
  obtain ⟨he'', hd'', hx'⟩ : Spare [e'] ∧ Spare [d'] ∧ Spare [x] := by simp_all
  have hviable : Viable c [] := ⟨_, hspare, hc e' d' x he' hd' hx⟩
  cases h with
  | @noIdent e d _ ts he hd =>
    refine .behind (p := [e, d]) hahead (by simp) ⟨[x], hx', ?_⟩
    simpa [unfused_of_spells he (by decide), unfused_of_spells hd (by decide)] using
      hc e d x he hd hx
  | @noItem e _ ts he _ ht =>
    cases ts with
    | nil =>
      obtain rfl : e = t := by simpa using ht
      exact blames_first hahead hviable
    | cons y ts =>
      obtain rfl : y = t := by simpa using ht
      rcases he with he | he
      · refine blames_second hahead ⟨[d', x], by simp_all, ?_⟩
        rw [unfused_of_spells he (by decide)]
        exact hc e d' x he hd' hx
      · exact .doubled (p := []) hahead he hviable hopen
  | unclosed => exact blames_nothing hahead hviable
  | noAngle => exact blames_first hahead hviable

/-- Whatever a step faults at is to be blamed for it. -/
theorem blames_of_advances (hc : RegularAll c.input) (hstands : c.Stands)
    (h : Advances c (.fault (.unexpected t))) : Blames c t := by
  cases c with
  | path => exact blames_path h
  | tail => exact blames_tail h
  | after => exact blames_after h
  | more => exact blames_more h
  | param => cases h
  | arrow => exact blames_arrow h
  | list | separator | arrayEnd => cases hstands
  | type => exact blames_type hc h
  | summed | summand | self | back => cases h
  | summands => exact blames_summands h
  | bounds => exact blames_bounds h
  | bound => exact blames_bound h
  | pointer => exact blames_pointer h
  | afterSelf before read ts =>
    cases h with
    | noAs _ hend =>
      refine blames_endsSelf hend rfl (.held .noTrait) fun e d x he hd hx o ts ho hts ↦ ?_
      have hall := Derives.qualified ho hts .noTrait he hd hx (.plain .pathEnd)
      simpa using hall
  | selfEnd before read ts =>
    cases h with
    | selfEnd hend =>
      refine blames_endsSelf hend rfl (.held rfl) fun e d x he hd hx o ts as ho hts has ↦ ?_
      exact .qualified ho hts has he hd hx (.plain .pathEnd)

end

/-! ### Readings -/

section

variable {c c' : Call} {next : List Token → List Token → Call} {ds ds' : List Nat}
  {first rest : List Token} {t : Token}

/-- A call that stands reads what it looks at. -/
theorem Call.Stands.not_looks (h : c.Stands) : ¬ c.Looks := by
  intro hlooks
  cases c with
  | list | separator => exact h
  | _ => exact hlooks

/-- A fault inside a group that is looked into is hidden. -/
theorem Call.LooksInto.blames (h : c.LooksInto c')
    (hreads : Reads c' ds (.error (.unexpected t))) : Blames c t := by
  obtain ⟨d, span, hgroup, hdrawn⟩ := h
  cases hreads.drawn hdrawn with
  | unexpected ht => exact .hidden (.inner hgroup ht)

/-- So is one at what is left inside such a group. -/
theorem Call.LooksInto.blames_rest (h : c.LooksInto c') (hreads : Reads c' ds (.ok (first, rest)))
    (ht : t ∈ rest) : Blames c t := by
  obtain ⟨d, span, hgroup, hdrawn⟩ := h
  exact .hidden (.inner hgroup ((hreads.drawn hdrawn).2 t ht))

/-- The rest of an array faults at a token inside the brackets. -/
theorem mem_of_arrayEnd {group behind element ts : List Token}
    (h : Reads (.arrayEnd group behind element ts) ds (.error (.unexpected t))) : t ∈ ts := by
  cases h with
  | fault h =>
    cases h with
    | noArrayEnd => exact List.mem_cons_self
  | go h | part h | lost h => cases h

/-- A call of a qualified path that goes on behind a part has what the part read in hand: the self
type, or the path of the trait. -/
theorem selfOpen_of_part {w taken x : List Token} (h : Advances c (.part c' next))
    (hw : unfuse first = unfuse c'.before ++ w) (hmeans : c'.Means False w)
    (hbefore : (next first rest).before = c.before ++ taken)
    (hx : (next first rest).HoldsSelf x) : c.SelfOpen (unfuse taken ++ x) := by
  cases h with
  | self =>
    obtain rfl : first = taken := List.append_cancel_left hbefore
    exact .held ⟨unfuse first, x, rfl, hw ▸ hmeans, hx⟩
  | @asPath before type ts a ha =>
    obtain rfl : a :: first = taken := by simpa using hbefore
    obtain rfl : x = [] := hx
    have htrait : unfuse (a :: first) ++ [] = a :: w := by
      simpa [unfused_of_spells ha (by decide)] using hw
    rw [htrait]
    exact .held (.trait ha hmeans)
  | noAs _ hend | selfEnd hend => cases hend
  | _ => cases hx

/-- A call that goes on as another one is within no qualified path, or leaves it. -/
theorem not_holdsSelf_of_go {x : List Token} (h : Advances c (.go c')) : ¬ c'.HoldsSelf x := by
  cases h with
  | noAs _ hend | selfEnd hend =>
    cases hend
    exact id
  | _ => exact id

/-- Where a call goes on behind a part, it stands again ahead of where it stood. Only the rest of an
array is looked at inside the group. -/
theorem blames_of_next (h : Advances c (.part c' next)) (hsound : c.Sound) (hstands : c.Stands)
    (hpart : Reads c' ds (.ok (first, rest)))
    (hnext : Reads (next first rest) ds' (.error (.unexpected t)))
    (ih : (next first rest).Stands → Blames (next first rest) t) : Blames c t := by
  have hlooks := hstands.not_looks
  by_cases hnextStands : (next first rest).Stands
  · have hpartSound := (sound_of_advances hsound h).1
    obtain ⟨w, hyields⟩ := hpart.exists_yields
    have hmeans : c'.Means False w := hpart.means hpartSound rfl hyields.first_eq
    have hconserves := (hpart.leaves hpartSound).1
    have hopens : c.Opens (next first rest) := by
      refine (conserves_of_advances h hlooks first rest hconserves).opens ?_ ?_
      · exact fun w' w'' ↦ means_of_advances hsound.input h first rest w hyields hmeans w' w''
      · exact fun taken x ↦ selfOpen_of_part h hyields.first_eq hmeans
    exact hopens.blames (ih hnextStands)
  · cases h with
    | @bracketed ts inner span hinner =>
      have hinto : Call.LooksInto (.type (.group .bracket span inner :: ts)) (.type inner) :=
        looksInto_of_begins List.mem_cons_self rfl rfl hinner
      exact hinto.blames_rest hpart (mem_of_arrayEnd hnext)
    | listType | listSummed => exact absurd trivial hlooks
    | noAs _ hend | selfEnd hend => cases hend
    | _ => exact absurd trivial hnextStands

/-- The fault of a call that goes on is one of the call that it went on from. -/
theorem blames_of_go (h : Advances c (.go c')) (hsound : c.Sound) (hlooks : ¬ c.Looks)
    (hgo : Blames c' t) : Blames c t :=
  have hopens : c.Opens c' :=
    (conserves_of_advances h hlooks).opens (means_of_advances hsound.input h)
      fun _ _ _ hx ↦ absurd hx (not_holdsSelf_of_go h)
  hopens.blames hgo

/-- A call that stands goes on as one that stands. -/
theorem stands_of_go (h : Advances c (.go c')) (hstands : c.Stands) : c'.Stands := by
  cases h with
  | separator => exact hstands
  | noAs _ hend | selfEnd hend =>
    cases hend
    trivial
  | _ => trivial

/-- A call that faults at a token is to be blamed for it. -/
theorem Reads.blames {r : Parsed} (h : Reads c ds r) (hsound : c.Sound) (hstands : c.Stands)
    (hr : r = .error (.unexpected t)) : Blames c t := by
  induction h with
  | fault h =>
    cases hr
    exact blames_of_advances hsound.input hstands h
  | done => cases hr
  | go h _ ih =>
    have hgo := ih (sound_of_advances hsound h) (stands_of_go h hstands) hr
    exact blames_of_go h hsound hstands.not_looks hgo
  | part h hpart hnext _ ihnext =>
    subst hr
    have hpartSound := sound_of_advances hsound h
    have hnextSound := hpartSound.2 _ _ (hpart.leaves hpartSound.1)
    exact blames_of_next h hsound hstands hpart hnext fun hstands ↦ ihnext hnextSound hstands rfl
  | lost h hpart ih =>
    cases hr
    rcases opens_of_part h hsound.input hstands with ⟨hpartStands, hopens⟩ | hlooks
    · exact hopens.blames (ih (sound_of_advances hsound h).1 hpartStands rfl)
    · exact hlooks.blames hpart

end

end Grammar

open Grammar Machine Token

variable {σ : Type} {more : List (Callee × Handler σ)} {e : Entry} {file source : String}
  {ts p q : List Token} {t : Token}

/-! ### Completed runs -/

/-- Tokens that can be completed: with some tokens of the lexer behind them, a run of the entry ends
with a value, if the limits are high enough. -/
def Entry.Completable (more : List (Callee × Handler σ)) (e : Entry) (ts : List Token) : Prop :=
  ∃ ext, (∀ t ∈ ext, t.IsLexed) ∧ ∃ n : Nat, ∀ limits : Limits,
    n ≤ limits.recursion → n ≤ limits.steps → ∀ returnsTo last final,
      returnsTo.LeadsTo (Registry.standardAnd more) last →
      Finishes (Registry.standardAnd more) last final →
      ∀ w, ∃ value, e.result more limits (ts ++ ext) returnsTo w = .ok value

/-- Tokens that end with the self type of a qualified path, and perhaps its trait, still to be
closed: they stand behind an angle, and where that stands any qualified path may stand. -/
def Entry.SelfOpen (e : Entry) (ts : List Token) : Prop :=
  ∃ front o type trait, ts = front ++ o :: (type ++ trait) ∧ o.spells "<" = true ∧
    Derives False .type type ∧ Derives False .trait trait ∧
    ∀ w, Derives False .type w → startsWith w ["<"] = true →
      ∃ v, Derives False e.symbol (front ++ w ++ v)

/-- No entry begins with an angle in hand, and so a self type that is open has its angle among the
tokens. -/
theorem selfOpen_entry (h : (e.call ts).SelfOpen p) : e.SelfOpen p := by
  cases h with
  | @within front type trait o hfront ho htype htrait =>
    refine ⟨front, o, type, trait, rfl, ho, htype, htrait, fun w hw hangle ↦ ?_⟩
    obtain ⟨v, -, hv⟩ := hfront w hw hangle
    cases e <;> exact ⟨v, hv⟩
  | held h => cases e <;> cases h

theorem Token.IsLexed.regular (h : t.IsLexed) : t.Regular := by
  obtain ⟨file, source, ts, hlex, hmem⟩ := h
  exact regular_of_lex hlex t hmem

/-- On a sequence of its symbol a run of an entry ends with a value. -/
theorem completable_of_derives {ext : List Token} (hext : ∀ t ∈ ext, t.IsLexed)
    (hregular : RegularAll (ts ++ ext)) (h : Derives False e.symbol (unfuse (ts ++ ext))) :
    e.Completable more ts := by
  obtain ⟨ds, first, hreads⟩ := reads_of_derives hregular h
  obtain ⟨n, hn⟩ := exists_fits (runDepths ds (.ok (first, [])))
  refine ⟨ext, hext, n, fun limits hrecursion hsteps returnsTo last final hleads hfinishes w ↦ ?_⟩
  obtain ⟨value, hvalue⟩ := hfinishes.exists_value e first
  refine ⟨value, ?_⟩
  have hfits := hn limits hrecursion hsteps
  rw [Entry.result, (runCall_entry hreads hleads hfinishes limits w).1 hfits, returned_entry]
  exact hvalue

/-- What stands before some index can be completed if more than that is viable. -/
theorem completable_of_viable (hlex : lex file source = .ok ts) (hts : ts = p ++ q) {i : Nat}
    (hi : i ≤ p.length) (h : Viable (e.call ts) (unfuse p)) : e.Completable more (ts.take i) := by
  obtain ⟨v, hv, hmeans⟩ := h
  have hlexed : ∀ t ∈ p, t.IsLexed := fun t ht ↦
    ⟨file, source, ts, hlex, hts ▸ List.mem_append_left q ht⟩
  have hall : ts.take i ++ (p.drop i ++ v) = p ++ v := by
    rw [hts, List.take_append_of_le_length hi, ← List.append_assoc, List.take_append_drop]
  have hext : ∀ t ∈ p.drop i ++ v, t.IsLexed := by
    intro t ht
    rcases List.mem_append.mp ht with ht | ht
    · exact hlexed t (List.mem_of_mem_drop ht)
    · exact (hv t ht).1
  refine completable_of_derives hext ?_ ?_
  · rw [hall, regularAll_append]
    exact ⟨fun t ht ↦ (hlexed t ht).regular, fun t ht ↦ (hv t ht).1.regular⟩
  · rw [hall, unfuse_append, hv.unfuse_eq]
    cases e <;> exact hmeans

/-- A token of a text stands at one index. -/
theorem index_eq_of_lex (hlex : lex file source = .ok ts) (hts : ts = p ++ t :: q) {i : Nat}
    (hat : ts[i]? = some t) : i = p.length := by
  obtain ⟨hi, hget⟩ := List.getElem?_eq_some_iff.mp hat
  have hp : p.length < ts.length := by simp [hts]
  have hpget : ts[p.length] = t := by simp [hts]
  exact (nodup_of_lex hlex).getElem_inj_iff.mp (hget.trans hpget.symm)

/-! ### A self type with no item behind it -/

/-- Where no item follows the angle behind a self type, or the two in one, the next token is blamed,
if there is one. -/
theorem reads_noItem {o x e : Token} (ho : o.spells "<" = true) (hx : x.isIdent = true)
    (hstart : ∀ s ∈ "::" :: typeStarts, x.spells s = false)
    (he : e.spells ">" = true ∨ e.spells ">>" = true)
    (hitem : startsWith (e :: ts) [">", "::"] = false)
    (ht : (e :: ts.take 1).getLast? = some t) :
    ∃ ds, Reads (.type (o :: x :: e :: ts)) ds (.error (.unexpected t)) := by
  have hspells : ∀ s, s ≠ ">" → s ≠ ">>" → e.spells s = false := by
    intro s hone htwo
    rcases he with he | he
    · rw [spells_eq he]
      exact decide_eq_false hone.symm
    · rw [spells_eq he]
      exact decide_eq_false htwo.symm
  have hdelimiter : e.delimiter? = none := he.elim delimiter?_of_spells delimiter?_of_spells
  have hafter : Advances (.after [] (e :: ts)) (.done [] (e :: ts)) :=
    .pathEnd (by simp [hspells])
  have htail : Advances (.tail [] (e :: ts)) (.go (.after [] (e :: ts))) := by
    refine .noArgs ?_ ?_ ?_ ?_ ?_ <;> simp [hspells, hdelimiter]
  have hpath : Advances (.path (x :: e :: ts)) (.part (.tail [] (e :: ts)) (.back .path [x])) :=
    .plain hx (hstart _ List.mem_cons_self)
  have htype : Advances (.type (x :: e :: ts))
      (.part (.path (x :: e :: ts)) (.back .typePath [])) :=
    .typePath (.inr hx) fun s hs ↦ hstart s (List.mem_cons_of_mem _ hs)
  have hself : Advances (.self [o] (x :: e :: ts))
      (.part (.type (x :: e :: ts)) (.afterSelf [o])) := .self
  have hend : Advances (.afterSelf [o] [x] (e :: ts)) (.fault (.unexpected t)) :=
    .noAs (by simp [hspells]) (.noItem he (by simp [hitem]) ht)
  exact ⟨_, .lost (.qualified ho (List.cons_ne_nil _ _)) (.part hself (.part htype (.part hpath
    (.go htail (.done hafter)) (.done .back)) (.done .back)) (.fault hend))⟩

/-- The run of a type on tokens, for a callee that keeps its outputs. -/
def keptType (limits : Limits) (ts : List Token) : Except Failure Value :=
  Entry.type.result (σ := Unit) [(keeping, Destinations.capture)] limits ts
    (.callee (.callee keeping)) (.initial ())

/-- A run on tokens that are read with a fault never ends with a value, and if the limits let it, it
ends with the fault. -/
theorem keptType_of_reads {f : Fault} {ds : List Nat} (h : Reads (.type ts) ds (.error f)) :
    (∀ limits value, keptType limits ts ≠ .ok value) ∧
      ∃ limits, keptType limits ts = .error (.fault f) := by
  have hrun := fun limits ↦ runCall_entry (show Reads (Entry.type.call ts) ds (.error f) from h)
    leadsTo_keeping (.capture rfl) limits (.initial ())
  constructor
  · intro limits value hvalue
    obtain ⟨hfits, hexceeds⟩ := hrun limits
    by_cases hlimits : Fits limits limits.steps.toNat 0 (runDepths ds (.error f))
    · cases (hfits hlimits).symm.trans hvalue
    · obtain ⟨f', -, hresult⟩ := hexceeds hlimits
      cases hresult.symm.trans hvalue
  · obtain ⟨n, hn⟩ := exists_fits (runDepths ds (.error f))
    exact ⟨⟨n, n⟩, (hrun ⟨n, n⟩).1 (hn ⟨n, n⟩ (Int.le_refl n) (Int.le_refl n))⟩

/-- A self type that one angle closes, and then a further angle and a name. -/
def closedApart : List Token := (lex "<input>" "<T> > X").toOption.getD []

/-- A self type that two angles in one close, and a name. -/
def doublyClosed : List Token := (lex "<input>" "<T>> X").toOption.getD []

theorem lex_closedApart : lex "<input>" "<T> > X" = .ok closedApart ∧ ∃ o x e t u,
    closedApart = [o, x, e, t, u] ∧ o.spells "<" = true ∧ x.isIdent = true ∧
      (∀ s ∈ "::" :: typeStarts, x.spells s = false) ∧ e.spells ">" = true ∧
      t.spells ">" = true :=
  ⟨rfl, _, _, _, _, _, rfl, rfl, rfl, by decide, rfl, rfl⟩

theorem lex_doublyClosed : lex "<input>" "<T>> X" = .ok doublyClosed ∧ ∃ o x e t,
    doublyClosed = [o, x, e, t] ∧ o.spells "<" = true ∧ x.isIdent = true ∧
      (∀ s ∈ "::" :: typeStarts, x.spells s = false) ∧ e.spells ">>" = true :=
  ⟨rfl, _, _, _, _, rfl, rfl, rfl, by decide, rfl⟩

/-- The further angle is blamed. -/
theorem blamed_closedApart : ∃ limits t, closedApart[3]? = some t ∧
    keptType limits closedApart = .error (.fault (.unexpected t)) := by
  obtain ⟨-, o, x, e, t, u, heq, ho, hx, hstart, he, ht⟩ := lex_closedApart
  have hitem : startsWith [e, t, u] [">", "::"] = false := by simp [spells_eq ht]
  obtain ⟨ds, hreads⟩ : ∃ ds, Reads (.type [o, x, e, t, u]) ds (.error (.unexpected t)) :=
    reads_noItem ho hx hstart (.inl he) hitem rfl
  rw [heq]
  obtain ⟨limits, hlimits⟩ := (keptType_of_reads hreads).2
  exact ⟨limits, t, rfl, hlimits⟩

/-- The name behind the two angles is blamed. -/
theorem blamed_doublyClosed : ∃ limits t, doublyClosed[3]? = some t ∧
    keptType limits doublyClosed = .error (.fault (.unexpected t)) := by
  obtain ⟨-, o, x, e, t, heq, ho, hx, hstart, he⟩ := lex_doublyClosed
  have hitem : startsWith [e, t] [">", "::"] = false := by simp [spells_eq he]
  obtain ⟨ds, hreads⟩ : ∃ ds, Reads (.type [o, x, e, t]) ds (.error (.unexpected t)) :=
    reads_noItem ho hx hstart (.inr he) hitem rfl
  rw [heq]
  obtain ⟨limits, hlimits⟩ := (keptType_of_reads hreads).2
  exact ⟨limits, t, rfl, hlimits⟩

/-- No tokens behind the two angles make a type of them. -/
theorem keptType_behind_doublyClosed (ext : List Token) (limits : Limits) (value : Value) :
    keptType limits (doublyClosed.take 3 ++ ext) ≠ .ok value := by
  obtain ⟨-, o, x, e, t, heq, ho, hx, hstart, he⟩ := lex_doublyClosed
  have hitem : startsWith (e :: ext) [">", "::"] = false := by simp [spells_eq he]
  have hlast : (e :: ext.take 1).getLast? = some _ :=
    List.getLast?_eq_some_getLast (List.cons_ne_nil e _)
  obtain ⟨ds, hreads⟩ := reads_noItem ho hx hstart (.inr he) hitem hlast
  rw [heq]
  exact (keptType_of_reads hreads).1 limits value

/-! ### What stands before a fault -/

/-- What stands before a fault can be completed. A fault that an entry raises at a token of its own
sequence, for a destination that keeps the outputs, is not raised too late: the tokens before it are
the beginning of tokens on which the entry succeeds. The exception is a token behind two closing
angles in one that stand where a self type is to be closed. There the second angle is too much
already, and then it is the tokens before the two that can be completed. -/
theorem before_fault_completable (hlex : lex file source = .ok ts) {returnsTo : Destination}
    {last : Callee} (hleads : returnsTo.LeadsTo (Registry.standardAnd more) last)
    (hkeeps : (Registry.standardAnd more).handler last = Destinations.capture) {limits : Limits}
    {w : World σ} {i : Nat} (hat : ts[i]? = some t)
    (hfault : e.result more limits ts returnsTo w = .error (.fault (.unexpected t))) :
    e.Completable more (ts.take i) ∨ ∃ j u, i = j + 1 ∧ ts[j]? = some u ∧
      u.spells ">>" = true ∧ e.SelfOpen (unfuse (ts.take j)) ∧
      e.Completable more (ts.take j) := by
  obtain ⟨ds, r, hreads⟩ := exists_reads_of_lex hlex e
  have hunlimited : Unlimited (e.result more limits ts returnsTo w) :=
    fun _ _ _ h ↦ by cases hfault.symm.trans h
  have hresult := result_of_unlimited hreads hleads (.capture hkeeps) hunlimited
  rw [hfault] at hresult
  cases r with
  | ok parsed =>
    rw [returned_entry] at hresult
    cases hresult
  | error f =>
    obtain rfl : f = .unexpected t := by
      cases hresult
      rfl
    have hsound : (e.call ts).Sound := by
      cases e <;> exact sound_of_input (regular_of_lex hlex) rfl trivial
    have hstands : (e.call ts).Stands := by cases e <;> trivial
    have hahead : (e.call ts).ahead = ts := by cases e <;> rfl
    cases hreads.blames hsound hstands rfl with
    | @behind p q hsplit hq h =>
      rw [hahead] at hsplit
      refine .inl (completable_of_viable hlex hsplit ?_ h)
      cases q with
      | nil =>
        obtain ⟨hi, -⟩ := List.getElem?_eq_some_iff.mp hat
        rw [hsplit, List.append_nil] at hi
        exact Nat.le_of_lt hi
      | cons u q =>
        obtain rfl : u = t := hq u rfl
        exact Nat.le_of_eq (index_eq_of_lex hlex hsplit hat)
    | @doubled p q u hsplit hu h hopen =>
      rw [hahead] at hsplit
      have hindex : i = (p ++ [u]).length := index_eq_of_lex hlex (by simpa using hsplit) hat
      have hfront : ts.take p.length = p := by rw [hsplit, List.take_left]
      refine .inr ⟨p.length, u, by simpa using hindex, by simp [hsplit], hu, ?_, ?_⟩
      · rw [hfront]
        exact selfOpen_entry hopen
      · exact completable_of_viable hlex hsplit (Nat.le_refl _) h
    | hidden h =>
      rw [hahead] at h
      exact absurd h (not_hidden_of_mem hlex (List.mem_of_getElem? hat))

/-- With the angles apart, what stands before the fault can be completed. With the two in one, that
is too much, and what stands before them can be, where a self type is open. -/
theorem before_fault_completable_doublyClosed :
    (lex "<input>" "<T> > X" = .ok closedApart ∧
      ∃ limits t, closedApart[3]? = some t ∧
        keptType limits closedApart = .error (.fault (.unexpected t)) ∧
        Entry.type.Completable (σ := Unit) [(keeping, Destinations.capture)]
          (closedApart.take 3)) ∧
    lex "<input>" "<T>> X" = .ok doublyClosed ∧
      ∃ limits t, doublyClosed[3]? = some t ∧
        keptType limits doublyClosed = .error (.fault (.unexpected t)) ∧
        Entry.type.SelfOpen (unfuse (doublyClosed.take 2)) ∧
        Entry.type.Completable (σ := Unit) [(keeping, Destinations.capture)]
          (doublyClosed.take 2) := by
  constructor
  · obtain ⟨hlex, o, x, e, t', u, heq, -, -, -, he, -⟩ := lex_closedApart
    obtain ⟨limits, t, hat, hfault⟩ := blamed_closedApart
    refine ⟨hlex, limits, t, hat, hfault, ?_⟩
    rcases before_fault_completable hlex leadsTo_keeping rfl hat hfault with
      h | ⟨j, v, hj, hv, hspells, -, -⟩
    · exact h
    · obtain rfl : j = 2 := by omega
      obtain rfl : e = v := by simpa [heq] using hv
      rw [spells_eq he] at hspells
      cases hspells
  · have hlex := lex_doublyClosed.1
    obtain ⟨limits, t, hat, hfault⟩ := blamed_doublyClosed
    refine ⟨hlex, limits, t, hat, hfault, ?_⟩
    rcases before_fault_completable hlex leadsTo_keeping rfl hat hfault with
      ⟨ext, -, n, hn⟩ | ⟨j, u, hj, -, -, hopen, h⟩
    · obtain ⟨value, hvalue⟩ := hn ⟨n, n⟩ (Int.le_refl n) (Int.le_refl n) _ _ _ leadsTo_keeping
        (.capture rfl) (.initial ())
      exact absurd hvalue (keptType_behind_doublyClosed ext ⟨n, n⟩ value)
    · obtain rfl : j = 2 := by omega
      exact ⟨hopen, h⟩

/-- A token that is blamed may stand behind tokens that nothing completes. -/
theorem fault_behind_doublyClosed : lex "<input>" "<T>> X" = .ok doublyClosed ∧
    (∃ limits t, doublyClosed[3]? = some t ∧
      keptType limits doublyClosed = .error (.fault (.unexpected t))) ∧
    ∀ ext limits value, keptType limits (doublyClosed.take 3 ++ ext) ≠ .ok value :=
  ⟨lex_doublyClosed.1, blamed_doublyClosed, keptType_behind_doublyClosed⟩

end Expander
