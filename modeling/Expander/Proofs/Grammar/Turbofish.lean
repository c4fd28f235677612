import Expander.Proofs.Grammar.Blame
import Expander.Proofs.Grammar.Lossless

/-!
# A double colon before generic arguments

What belongs to a path already is only put in front of what is read behind it: no step that goes on
with a path looks at it, and no fault points at it (`Reads.behind`). So a list of generic arguments
is read as it is when a double colon stands before it, by as many steps of the same depths, and the
double colon is put in front of what is given back (`Reads.turbofish`). Only the first step is told
by another test of the same rule, and where the list is more than its opening angle that does the
same (`advances_turbofish`).

The identifier in front needs to be nothing but an identifier. One that is spelled like a double
colon begins a path as well, if no identifier stands behind it (`evaluated_ident`).
-/

set_option autoImplicit false

namespace Expander

namespace Grammar

/-! ### Calls that go on with a path -/

/-- A call that goes on with a path. -/
inductive Call.GoesOn : Call → Prop
  | tail {before ts : List Token} : GoesOn (.tail before ts)
  | after {before ts : List Token} : GoesOn (.after before ts)
  | more {before read ts : List Token} : GoesOn (.more before read ts)
  | arrow {before ts : List Token} : GoesOn (.arrow before ts)
  | result {before read ts : List Token} : GoesOn (.back .arrow before read ts)

/-- A call that goes on with a path, with other tokens in front of the path. -/
def Call.behind (front : List Token) : Call → Call
  | tail before ts => tail (front ++ before) ts
  | after before ts => after (front ++ before) ts
  | more before read ts => more (front ++ before) read ts
  | arrow before ts => arrow (front ++ before) ts
  | back r before read ts => back r (front ++ before) read ts
  | c => c

/-- A step that goes on with a path, with other tokens in front of the path. -/
def Plan.behind (front : List Token) : Plan → Plan
  | .fault f => .fault f
  | .done first rest => .done (front ++ first) rest
  | .go c => .go (c.behind front)
  | .part c next => .part c fun first rest ↦ (next first rest).behind front

/-- A step behind which nothing but the path is gone on with. -/
def Plan.GoesOn : Plan → Prop
  | .fault _ | .done .. => True
  | .go c => c.GoesOn
  | .part _ next => ∀ first rest, (next first rest).GoesOn

section

variable {front before ts : List Token} {c : Call} {p : Plan} {ds : List Nat} {r : Parsed}

theorem Call.GoesOn.waiting_eq_nil (h : c.GoesOn) : c.waiting = [] := by
  cases h <;> rfl

/-- A call that goes on with a path has nothing waiting, whatever stands in front of what it
read. -/
theorem Call.GoesOn.waiting_behind (front : List Token) (h : c.GoesOn) :
    (c.behind front).waiting = [] := by
  cases h <;> rfl

/-- A call that goes on with a path does nothing else in its next step. -/
theorem goesOn_of_advances (hc : c.GoesOn) (h : Advances c p) : p.GoesOn := by
  cases hc with
  | tail =>
    cases h with
    | empty | noArgs => exact Call.GoesOn.after
    | opening | openingFused => exact fun _ _ ↦ .more
    | fnArgs => exact fun _ _ ↦ .arrow
    | emptyFused | openingLast => trivial
  | after =>
    cases h with
    | segment => exact Call.GoesOn.tail
    | segmentNoIdent | pathEnd => trivial
  | more =>
    cases h with
    | close => exact Call.GoesOn.after
    | comma => exact fun _ _ ↦ .more
    | closeFused | leftOpen | noComma => trivial
  | arrow =>
    cases h with
    | arrow => exact fun _ _ ↦ .result
    | arrowLast | noArrow => trivial
  | result =>
    cases h with
    | back => trivial

/-- A step that goes on with a path does not look at what belongs to the path. -/
theorem advances_behind (front : List Token) (hc : c.GoesOn) (h : Advances c p) :
    Advances (c.behind front) (p.behind front) := by
  cases hc with
  | tail =>
    cases h with
    | empty hcs ho he =>
      simp only [Plan.behind, Call.behind, ← List.append_assoc]
      exact .empty hcs ho he
    | emptyFused hcs ho he hcut =>
      simp only [Plan.behind, Call.behind, ← List.append_assoc]
      exact .emptyFused hcs ho he hcut
    | opening hcs ho hts hone htwo =>
      simp only [Plan.behind, Call.behind, ← List.append_assoc]
      exact .opening hcs ho hts hone htwo
    | openingFused hcs ho hcut hts =>
      simp only [Plan.behind, Call.behind, ← List.append_assoc]
      exact .openingFused hcs ho hcut hts
    | openingLast ho => exact .openingLast ho
    | fnArgs =>
      simp only [Plan.behind, Call.behind, ← List.append_assoc]
      exact .fnArgs
    | noArgs hone htwo hparen hturbo hturboFused =>
      exact .noArgs hone htwo hparen hturbo hturboFused
  | after =>
    cases h with
    | segment hc ht =>
      simp only [Plan.behind, Call.behind, ← List.append_assoc]
      exact .segment hc ht
    | segmentNoIdent hc ht => exact .segmentNoIdent hc ht
    | pathEnd hend => exact .pathEnd hend
  | more =>
    cases h with
    | close hms he =>
      simp only [Plan.behind, Call.behind, ← List.append_assoc]
      exact .close hms he
    | closeFused hms he hcut =>
      simp only [Plan.behind, Call.behind, ← List.append_assoc]
      exact .closeFused hms he hcut
    | comma hm hts hone htwo =>
      simp only [Plan.behind, Call.behind, ← List.append_assoc]
      exact .comma hm hts hone htwo
    | leftOpen ht => exact .leftOpen ht
    | noComma hone htwo hm => exact .noComma hone htwo hm
  | arrow =>
    cases h with
    | arrow ha hts =>
      simp only [Plan.behind, Call.behind, ← List.append_assoc]
      exact .arrow ha hts
    | arrowLast ha => exact .arrowLast ha
    | noArrow hnone => exact .noArrow hnone
  | result =>
    cases h with
    | back =>
      simp only [Plan.behind, Call.behind, Return.kept, ← List.append_assoc]
      exact .back

/-- With other tokens in front of the path, a call goes on by the same steps, and gives back these
tokens in front of what it gave back. -/
theorem Reads.behind (front : List Token) (h : Reads c ds r) (hc : c.GoesOn) :
    Reads (c.behind front) ds (r.behind front) := by
  induction h with
  | fault h => exact .fault (advances_behind front hc h)
  | done h => exact .done (advances_behind front hc h)
  | go h _ ih => exact .go (advances_behind front hc h) (ih (goesOn_of_advances hc h))
  | @part _ _ _ _ _ first rest _ h hpart _ _ ih =>
    have hnext := goesOn_of_advances hc h first rest
    rw [hc.waiting_eq_nil, ← hc.waiting_behind front]
    exact .part (advances_behind front hc h) hpart (ih hnext)
  | lost h hpart =>
    rw [hc.waiting_eq_nil, ← hc.waiting_behind front]
    exact .lost (advances_behind front hc h) hpart

/-! ### A list with a double colon before it -/

/-- A list that is opened, by an angle or by two in one, with something behind that. -/
inductive OpensList : List Token → Prop
  | opens {o t : Token} {us : List Token} (ho : o.isPunct "<" = true ∨ o.isPunct "<<" = true) :
      OpensList (o :: t :: us)

/-- A list of parameters opens with an angle, which may be half of a token. -/
theorem OpensList.angle (h : OpensList ts) :
    startsWith ts ["<"] = true ∨ startsWith ts ["<<"] = true := by
  obtain ⟨ho⟩ := h
  simpa using ho.imp Token.spells_of_isPunct Token.spells_of_isPunct

/-- So it begins with no identifier. -/
theorem OpensList.not_ident (h : OpensList ts) : startsWith ts [ident] = false := by
  obtain ⟨ho⟩ := h
  simpa using ho.elim Token.isIdent_of_isPunct Token.isIdent_of_isPunct

/-- No double colon stands at the front of a list. -/
theorem OpensList.eq_nil {cs : List Token} (h : OpensList (cs ++ ts))
    (hcs : Maybe (Token.spells "::") cs) : cs = [] := by
  cases hcs with
  | none => rfl
  | one hd =>
    rcases h.angle with ho | ho <;> simp [Token.spells_eq hd] at ho

/-- With a double colon before it, a list is told by another test of the same rule, and what is done
then is the same. -/
theorem advances_turbofish {d : Token} (hd : d.spells "::" = true) (hts : OpensList ts)
    (h : Advances (.tail [] ts) p) : Advances (.tail [] (d :: ts)) (p.behind [d]) := by
  cases h with
  | @empty _ cs ts o e hcs ho he =>
    obtain rfl := hts.eq_nil hcs
    exact @Advances.empty [] [d] ts o e (.one hd) ho he
  | @emptyFused _ cs ts o e e₁ e₂ hcs ho he hcut =>
    obtain rfl := hts.eq_nil hcs
    exact @Advances.emptyFused [] [d] ts o e e₁ e₂ (.one hd) ho he hcut
  | @opening _ cs ts o hcs ho hne hone htwo =>
    obtain rfl := hts.eq_nil hcs
    exact @Advances.opening [] [d] ts o (.one hd) ho hne hone htwo
  | @openingFused _ cs ts o o₁ o₂ hcs ho hcut =>
    obtain rfl := hts.eq_nil hcs
    have hne : ts ≠ [] := by
      rintro rfl
      cases hts
    exact @Advances.openingFused [] [d] ts o o₁ o₂ (.one hd) ho hcut (.inr hne)
  | openingLast => cases hts
  | fnArgs =>
    rcases hts.angle with ho | ho <;> simp [Token.spells] at ho
  | noArgs hone htwo =>
    rcases hts.angle with ho | ho
    · simp [hone] at ho
    · simp [htwo] at ho

/-- A list of generic arguments is read as it is when a double colon stands before it. -/
theorem Reads.turbofish {d : Token} (hd : d.spells "::" = true) (hts : OpensList ts)
    (h : Reads (.tail [] ts) ds r) : Reads (.tail [] (d :: ts)) ds (r.behind [d]) := by
  have hgoes : (Call.tail [] ts).GoesOn := .tail
  cases h with
  | fault h => exact .fault (advances_turbofish hd hts h)
  | done h => exact .done (advances_turbofish hd hts h)
  | go h hgo =>
    exact .go (advances_turbofish hd hts h) (hgo.behind [d] (goesOn_of_advances hgoes h))
  | part h hpart hnext =>
    exact .part (advances_turbofish hd hts h) hpart
      (hnext.behind [d] (goesOn_of_advances hgoes h _ _))
  | lost h hpart => exact .lost (advances_turbofish hd hts h) hpart

end

end Grammar

open Grammar Machine

variable {σ : Type} {file source : String} {ts : List Token} {a d : Token}

/-- Between an identifier and a list of generic arguments that is more than its opening angle, a
double colon changes nothing. With it and without it the same is left and the same path is given
back, but for the double colon behind the identifier, or the same token is at fault: a token of the
list, at any depth, or a half of one. This is so unless a limit is reached, and limits that are high
enough are not. -/
theorem turbofish_alike (hlex : lex file source = .ok ts) (hts : OpensList ts)
    (ha : a.isIdent = true) (hd : d.isPunct "::" = true) (more : List (Callee × Handler σ))
    {returnsTo : Destination} {last : Callee}
    (hleads : returnsTo.LeadsTo (Registry.standardAnd more) last)
    (hkeeps : (Registry.standardAnd more).handler last = Destinations.capture) :
    (∀ limits limits' w w',
      Unlimited (Entry.path.result more limits (a :: ts) returnsTo w) →
      Unlimited (Entry.path.result more limits' (a :: d :: ts) returnsTo w') →
        (∃ args rest,
          Entry.path.result more limits (a :: ts) returnsTo w =
            .ok (.outputs (Entry.path.outputs (a :: args) rest)) ∧
          Entry.path.result more limits' (a :: d :: ts) returnsTo w' =
            .ok (.outputs (Entry.path.outputs (a :: d :: args) rest))) ∨
        ∃ t, t.OriginatesIn ts ∧
          Entry.path.result more limits (a :: ts) returnsTo w = .error (.fault (.unexpected t)) ∧
          Entry.path.result more limits' (a :: d :: ts) returnsTo w' =
            .error (.fault (.unexpected t))) ∧
    ∃ n : Nat, ∀ limits : Limits, n ≤ limits.recursion → n ≤ limits.steps → ∀ w,
      Unlimited (Entry.path.result more limits (a :: ts) returnsTo w) ∧
        Unlimited (Entry.path.result more limits (a :: d :: ts) returnsTo w) := by
  obtain ⟨ds, r, hreads⟩ : ∃ ds r, Reads (.tail [] ts) ds r :=
    exists_reads (sound_of_input (regular_of_lex hlex) rfl trivial)
  have hcolons : startsWith (d :: ts) [ident] = false := by
    simpa using Token.isIdent_of_isPunct hd
  have hplain : (Entry.path.call (a :: ts)).Evaluated (identDepths ds r) (r.behind [a]) :=
    evaluated_ident ha hts.not_ident hreads
  have hturbo : (Entry.path.call (a :: d :: ts)).Evaluated (identDepths ds (r.behind [d]))
      ((r.behind [d]).behind [a]) :=
    evaluated_ident ha hcolons (hreads.turbofish (Token.spells_of_isPunct hd) hts)
  constructor
  · intro limits limits' w w' hlimits hlimits'
    rw [result_of_evaluated hplain hleads (.capture hkeeps) hlimits,
      result_of_evaluated hturbo hleads (.capture hkeeps) hlimits']
    have hdrawn : DrawnParsed ts r :=
      hreads.drawn (drawn_of_input drawnFrom_nil (fun _ ht ↦ .token (.here ht)) rfl trivial)
    cases r with
    | ok parsed => exact .inl ⟨parsed.1, parsed.2, rfl, rfl⟩
    | error f =>
      cases hdrawn with
      | unexpected ht => exact .inr ⟨_, ht, rfl, rfl⟩
  · obtain ⟨n, hn⟩ := exists_fits (runDepths (identDepths ds r) (r.behind [a]))
    obtain ⟨n', hn'⟩ := exists_fits
      (runDepths (identDepths ds (r.behind [d])) ((r.behind [d]).behind [a]))
    refine ⟨max n n', fun limits hrecursion hsteps w ↦ ⟨?_, ?_⟩⟩
    · exact unlimited_of_evaluated hplain hleads (.capture hkeeps)
        (hn limits (by omega) (by omega))
    · exact unlimited_of_evaluated hturbo hleads (.capture hkeeps)
        (hn' limits (by omega) (by omega))

/-- A list that two angles in one open, and that two angles in one close. -/
def joinedList : List Token := (lex "<input>" "<<B as C>::D, E<F>>::G").toOption.getD []

/-- What is kept of a path that an identifier begins. -/
def keptBehind (a : Token) (ts : List Token) : Except Failure Value :=
  Entry.path.result (σ := Unit) [(keeping, Destinations.capture)] ⟨128, 100⟩ (a :: ts)
    (.callee (.callee keeping)) (.initial ())

/-- The list behind an identifier, and with a double colon between them. -/
theorem turbofish_alike_joined : lex "<input>" "<<B as C>::D, E<F>>::G" = .ok joinedList ∧
    OpensList joinedList ∧ ∃ a d args rest, a.isIdent = true ∧ d.isPunct "::" = true ∧
      keptBehind a joinedList = .ok (.outputs (Entry.path.outputs (a :: args) rest)) ∧
      keptBehind a (d :: joinedList) = .ok (.outputs (Entry.path.outputs (a :: d :: args) rest)) := by
  let a : Token := .leaf .ident "A" none
  let d : Token := .leaf .punct "::" none
  have hlex : lex "<input>" "<<B as C>::D, E<F>>::G" = .ok joinedList := rfl
  have hopens : OpensList joinedList := .opens (.inr rfl)
  have hok : (keptBehind a joinedList).isOk = true := by decide +kernel
  have hok' : (keptBehind a (d :: joinedList)).isOk = true := by decide +kernel
  obtain ⟨hends, -⟩ := turbofish_alike (a := a) (d := d) hlex hopens rfl rfl _ leadsTo_keeping rfl
  rcases hends ⟨128, 100⟩ ⟨128, 100⟩ (.initial ()) (.initial ()) (unlimited_of_isOk hok)
    (unlimited_of_isOk hok') with ⟨args, rest, hplain, hturbo⟩ | ⟨t, -, hplain, -⟩
  · exact ⟨hlex, hopens, a, d, args, rest, rfl, rfl, hplain, hturbo⟩
  · have hfails : keptBehind a joinedList = .error (.fault (.unexpected t)) := hplain
    rw [hfails] at hok
    cases hok

end Expander
