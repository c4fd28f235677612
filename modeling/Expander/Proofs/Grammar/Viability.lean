import Expander.Proofs.Grammar.Surface

/-!
# What can be completed

What a call has read so far is viable if some tokens behind it make it a sequence of the call
(`Viable`). A few words are enough for that, since whatever is open can be closed: an angle by
another one, a self type by an item, and where something has to follow, a name may.

A call that goes on as another one, or opens a part, goes on at some of the tokens ahead of it, and
what is viable there is viable here behind the tokens in front (`Call.Opens`). For a call that goes
on, that is what its step adds to a sequence. For a part that is not yet read, what comes behind it
has to be made up, and so each part has a lemma of its own (`opens_of_part`).

What is read may end with the self type of a qualified path, which is still to be closed
(`Call.SelfOpen`). Where its angle stands, any qualified path is viable, and so it is seen from
every call around the path.
-/

set_option autoImplicit false

namespace Expander

/-! ### Words to go on with -/

/-- A token that the lexer makes of some text. -/
def Token.IsLexed (t : Token) : Prop := ∃ file source ts, lex file source = .ok ts ∧ t ∈ ts

namespace Grammar

open Token

/-- Words of the lexer to complete sequences with. -/
def spareWords : List Token := (lex "<input>" "A :: > const fn ()").toOption.getD []

theorem isLexed_of_mem_spareWords {t : Token} (h : t ∈ spareWords) : t.IsLexed :=
  ⟨"<input>", "A :: > const fn ()", spareWords, rfl, h⟩

/-- Tokens of the lexer of which none is joined. -/
def Spare (ts : List Token) : Prop := ∀ t ∈ ts, t.IsLexed ∧ t.unfused = [t]

section

variable {ts us : List Token} {t : Token}

@[simp] theorem spare_nil : Spare [] := List.forall_mem_nil _

@[simp] theorem spare_cons : Spare (t :: ts) ↔ (t.IsLexed ∧ t.unfused = [t]) ∧ Spare ts :=
  List.forall_mem_cons

@[simp] theorem spare_append : Spare (ts ++ us) ↔ Spare ts ∧ Spare us :=
  List.forall_mem_append

/-- Words to go on with stay as they are when tokens are taken apart. -/
theorem Spare.unfuse_eq (h : Spare ts) : unfuse ts = ts := by
  induction ts with
  | nil => exact unfuse_nil
  | cons t ts ih =>
    obtain ⟨⟨-, ht⟩, hts⟩ := spare_cons.mp h
    rw [unfuse_cons, ht, ih hts]
    rfl

/-- A name that is no word of a type and no mark of a reference. -/
theorem exists_name : ∃ t : Token, Spare [t] ∧ t.isIdent = true ∧
    ∀ s ∈ "mut" :: typeWords, t.spells s = false := by
  obtain ⟨t, hmem, hident, hwords⟩ : ∃ t ∈ spareWords, t.isIdent = true ∧
      ∀ s ∈ "mut" :: typeWords, t.spells s = false := by decide +kernel
  exact ⟨t, by simp [isLexed_of_mem_spareWords hmem, unfused_of_isIdent hident], hident, hwords⟩

/-- A word with one of the spellings that something open may need. -/
theorem exists_spelling {s : String} (hs : s ∈ [">", "::", "const", "fn"]) :
    ∃ t : Token, Spare [t] ∧ t.spells s = true := by
  have hall : ∀ s ∈ [">", "::", "const", "fn"],
      s ∉ fusedSpellings ∧ ∃ t ∈ spareWords, t.spells s = true := by decide +kernel
  obtain ⟨hfused, t, hmem, ht⟩ := hall s hs
  exact ⟨t, by simp [isLexed_of_mem_spareWords hmem, unfused_of_spells ht hfused], ht⟩

/-- An empty pair of parentheses ends a function pointer. -/
theorem exists_noArgs : ∃ span, Spare [.group .paren span []] := by
  let span : Span := ⟨"<input>", 1, 17, 16, 18, 1, 19⟩
  have hlast : spareWords.getLast? = some (.group .paren (some span) []) := rfl
  have hlexed := isLexed_of_mem_spareWords (List.mem_of_getLast? hlast)
  exact ⟨some span, by simp [hlexed]⟩

/-- What ends the self type of a qualified path. -/
theorem exists_item : ∃ e c t : Token, Spare [e, c, t] ∧ e.spells ">" = true ∧
    c.spells "::" = true ∧ t.isIdent = true := by
  obtain ⟨e, he, hclose⟩ := exists_spelling (s := ">") (by decide)
  obtain ⟨c, hc, hcolons⟩ := exists_spelling (s := "::") (by decide)
  obtain ⟨t, ht, hident, -⟩ := exists_name
  exact ⟨e, c, t, by simp_all, hclose, hcolons, hident⟩

end

/-! ### Viable sequences -/

/-- What is read of a call is viable if some words behind it make a sequence of the call. -/
def Viable (c : Call) (u : List Token) : Prop := ∃ v, Spare v ∧ c.Means False (u ++ v)

section

variable {ts : List Token} {t : Token}

/-- A name is a path. -/
theorem derives_name (ht : t.isIdent = true) : Derives False .path [t] :=
  .path .none ht (.plain .pathEnd)

/-- A name is a type, if it is no word of another one. -/
theorem derives_typeName (ht : t.isIdent = true) (hwords : ∀ s ∈ typeWords, t.spells s = false) :
    Derives False .type [t] := by
  refine .typePath (derives_name ht) fun s hs ↦ ?_
  rw [startsWith_cons, startsWith_nil, Bool.and_true]
  exact hwords s hs

/-- Where nothing is read of a path yet, a name completes it. -/
theorem viable_path : Viable (.path ts) [] := by
  obtain ⟨t, hspare, ht, -⟩ := exists_name
  exact ⟨[t], hspare, derives_name ht⟩

/-- There is such a name, and it is not read as the mark of a reference. -/
theorem exists_typeName : ∃ t : Token, Spare [t] ∧ Derives False .type [t] ∧
    startsWith [t] ["mut"] = false := by
  obtain ⟨t, hspare, ht, hwords⟩ := exists_name
  refine ⟨t, hspare, ?_, ?_⟩
  · exact derives_typeName ht fun s hs ↦ hwords s (List.mem_cons_of_mem _ hs)
  · rw [startsWith_cons, startsWith_nil, Bool.and_true]
    exact hwords "mut" List.mem_cons_self

/-- Where nothing is read of a type yet, a name completes it. -/
theorem viable_type : Viable (.type ts) [] := by
  obtain ⟨t, hspare, htype, -⟩ := exists_typeName
  exact ⟨[t], hspare, htype⟩

/-- Where nothing is read of a bound yet, a name completes it. -/
theorem viable_bound : Viable (.bound ts) [] := by
  obtain ⟨t, hspare, ht, -⟩ := exists_name
  exact ⟨[t], hspare, .pathBound .none (derives_name ht)⟩

end

/-! ### Self types that are open -/

/-- Behind some tokens of a call any qualified path may stand. -/
def Call.Hosts (c : Call) (front : List Token) : Prop :=
  ∀ w, Derives False .type w → startsWith w ["<"] = true → Viable c (front ++ w)

/-- A call of a qualified path has its opening angle in hand. With some tokens, the self type is at
its end, or the trait behind it. -/
def Call.HoldsSelf : Call → List Token → Prop
  | self .., x => ∃ ts as, x = ts ++ as ∧ Derives False .type ts ∧ Derives False .trait as
  | afterSelf .., x => Derives False .trait x
  | selfEnd .., x => x = []
  | _, _ => False

/-- With some tokens of a call a self type is at its end, or the trait behind it, but not closed: an
angle opens it, and where that stands a qualified path may stand. The call may be one of the path
itself, and have the angle in hand. -/
inductive Call.SelfOpen (c : Call) : List Token → Prop
  | within {front ts as : List Token} {o : Token} (hfront : c.Hosts front)
      (ho : o.spells "<" = true) (hts : Derives False .type ts) (has : Derives False .trait as) :
      SelfOpen c (front ++ o :: (ts ++ as))
  | held {x : List Token} (h : c.HoldsSelf x) : SelfOpen c x

/-- Where a type is to be read, it may be a qualified path. -/
theorem hosts_type {ts : List Token} : Call.Hosts (.type ts) [] := by
  intro w hw _
  refine ⟨[], spare_nil, ?_⟩
  rwa [List.nil_append, List.append_nil]

/-! ### Calls that are opened -/

/-- Tokens that a call may read: they begin with no word with which those ahead do not begin. -/
def Call.Admits (c : Call) (x : List Token) : Prop :=
  ∀ s ∉ halfSpellings, startsWith c.ahead [.spelling s] = false →
    startsWith x [.spelling s] = false

/-- A call opens another one: that stands at some of the tokens ahead, and behind the tokens in
front what is viable there is viable here, and a self type that is open there is open here. -/
def Call.Opens (c c' : Call) : Prop := ∃ u, Passes c.ahead u c'.ahead ∧
  (∀ x, c'.Admits x → Viable c' x → Viable c (u ++ x)) ∧
    ∀ x, c'.HoldsSelf x → c.SelfOpen (u ++ x)

/-- A call looks into a group that is ahead of it. -/
def Call.LooksInto (c c' : Call) : Prop :=
  ∃ d span, .group d span c'.input ∈ c.ahead ∧ c'.Drawn c'.input

/-- A call that takes from the tokens ahead of it all that it reads. -/
def Call.Stands : Call → Prop
  | list .. | separator .. | arrayEnd .. => False
  | _ => True

section

variable {c c' : Call} {before read ts us u ws : List Token}

/-- What stands ahead may be read. -/
theorem admits_of_ahead {p q : List Token} (h : c.ahead = p ++ q) : c.Admits (unfuse p) :=
  fun _ hs hahead ↦ startsWith_taken hs unfuse_append (h ▸ hahead)

/-- A qualified path may be read in place of what follows, be it at the front. -/
theorem Call.Admits.hosted {front w : List Token} (h : c.Admits (front ++ us))
    (hw : startsWith w ["<"] = true) : c.Admits (front ++ w) := by
  intro s hs hahead
  cases front with
  | nil =>
    obtain ⟨o, w, rfl, ho, -⟩ := exists_of_startsWith hw
    exact startsWith_false_of_spells ho fun heq ↦ hs (heq ▸ by decide)
  | cons t front =>
    have hfront := h s hs hahead
    simp only [List.cons_append, startsWith_cons, startsWith_nil] at hfront ⊢
    exact hfront

/-- A self type that is open in a call is open around it. -/
theorem Call.SelfOpen.around {x : List Token} (h : c'.SelfOpen x) (hx : c'.Admits x)
    (hviable : ∀ x, c'.Admits x → Viable c' x → Viable c (u ++ x))
    (hheld : ∀ x, c'.HoldsSelf x → c.SelfOpen (u ++ x)) : c.SelfOpen (u ++ x) := by
  cases h with
  | @within front ts as o hfront ho hts has =>
    rw [← List.append_assoc]
    refine .within (fun w hw hangle ↦ ?_) ho hts has
    rw [List.append_assoc]
    exact hviable _ (hx.hosted hangle) (hfront w hw hangle)
  | held h => exact hheld x h

/-- A call that goes on is opened, by what the step adds to a sequence. -/
theorem Call.Continues.opens (h : c.Continues c')
    (hmeans : ∀ w w', c'.Means False w' → unfuse c'.before ++ w' = unfuse c.before ++ w →
      c.Means False w)
    (hheld : ∀ taken x, c'.before = c.before ++ taken → c'.HoldsSelf x →
      c.SelfOpen (unfuse taken ++ x)) : c.Opens c' := by
  obtain ⟨-, taken, hbefore, htakes, -⟩ := h
  refine ⟨unfuse taken, htakes.passes, ?_, fun x ↦ hheld taken x hbefore⟩
  rintro x - ⟨v, hv, hx⟩
  refine ⟨v, hv, hmeans _ _ hx ?_⟩
  rw [hbefore, unfuse_append]
  simp only [List.append_assoc]

/-- A part is opened behind some tokens if some words behind it make a sequence of it. -/
theorem opens_of_words (hws : Spare ws) (hpasses : Passes c.ahead u c'.ahead)
    (hheld : ∀ x, c'.HoldsSelf x → c.SelfOpen (u ++ x))
    (hmeans : ∀ w, c'.Means False w → c.Means False (u ++ (w ++ ws))) : c.Opens c' := by
  refine ⟨u, hpasses, ?_, hheld⟩
  rintro x - ⟨v, hv, hx⟩
  refine ⟨v ++ ws, spare_append.mpr ⟨hv, hws⟩, ?_⟩
  have hall := hmeans _ hx
  rwa [List.append_assoc, ← List.append_assoc u] at hall

/-- A part is opened behind some tokens if nothing has to follow it. -/
theorem opens_of_means (hpasses : Passes c.ahead u c'.ahead)
    (hheld : ∀ x, c'.HoldsSelf x → c.SelfOpen (u ++ x))
    (hmeans : ∀ w, c'.Means False w → c.Means False (u ++ w)) : c.Opens c' :=
  opens_of_words spare_nil hpasses hheld fun w hw ↦ by rw [List.append_nil]; exact hmeans w hw

/-- A path is completed by what completes its tail. -/
theorem opens_rooted {d t : Token} (hd : d.spells "::" = true) (ht : t.isIdent = true) :
    Call.Opens (.path (d :: t :: ts)) (.tail [] ts) := by
  have hfront : unfuse [d, t] = [d, t] := by
    simp [unfused_of_spells hd (by decide), unfused_of_isIdent ht]
  exact opens_of_means (.whole rfl hfront) (fun _ ↦ False.elim) fun w hw ↦ .path (.one hd) ht hw

theorem opens_plain {t : Token} (ht : t.isIdent = true) :
    Call.Opens (.path (t :: ts)) (.tail [] ts) := by
  have hfront : unfuse [t] = [t] := by simp [unfused_of_isIdent ht]
  exact opens_of_means (.whole rfl hfront) (fun _ ↦ False.elim) fun w hw ↦ .path .none ht hw

/-- A list of parameters is completed by the angle that closes it. -/
theorem opens_param {cs : List Token} {o : Token} (hcs : Maybe (spells "::") cs)
    (ho : o.spells "<" = true) (hpasses : Passes (Call.tail before ts).ahead (cs ++ [o]) us) :
    Call.Opens (.tail before ts) (.param us) := by
  obtain ⟨e, hspare, he⟩ := exists_spelling (s := ">") (by decide)
  refine opens_of_words hspare hpasses (fun _ ↦ False.elim) fun w hw ↦ ?_
  have hall : Derives False .tail (cs ++ o :: ((w ++ []) ++ e :: [])) :=
    .angles hcs ho (.lastParam hw .none) he .pathEnd
  simpa [Call.Means] using hall

/-- A parameter behind a comma is completed by the angle that closes the list. -/
theorem opens_comma {m : Token} (hm : m.spells "," = true) :
    Call.Opens (.more before read (m :: ts)) (.param ts) := by
  obtain ⟨e, hspare, he⟩ := exists_spelling (s := ">") (by decide)
  have hfront : unfuse [m] = [m] := by simp [unfused_of_spells hm (by decide)]
  refine opens_of_words hspare (.whole rfl hfront) (fun _ ↦ False.elim) fun w hw ps hps ↦ ?_
  have hparams : Derives False .params (ps ++ m :: (w ++ [])) :=
    .moreParams hps hm (.lastParam hw .none)
  rw [List.append_nil] at hparams
  exact ⟨ps ++ m :: w, e, [], by simp, hparams, he, .pathEnd⟩

/-- What completes the type behind a reference must not be read as its mark. It is not, unless the
word stood ahead already. -/
theorem opens_reference {a : Token} {ls ms : List Token}
    (ha : a.spells "&" = true ∨ a.spells "&&" = true) (hregular : a.Regular)
    (hls : Maybe isLifetime ls) (hms : Maybe (spells "mut") ms)
    (hnoMut : ms = [] → startsWith ts ["mut"] = false) :
    Call.Opens (.type (a :: (ls ++ ms ++ ts))) (.type ts) := by
  have hfront : unfuse (a :: (ls ++ ms)) = a.unfused ++ (ls ++ ms) := by
    rw [unfuse_cons, unfuse_append, unfuse_maybe (fun _ ↦ unfused_of_isLifetime) hls,
      unfuse_maybe_spells (by decide) hms]
  refine ⟨_, .whole rfl hfront, ?_, fun _ ↦ False.elim⟩
  rintro x hadmits ⟨v, hv, hx⟩
  have hmeans : ∀ w, Derives False .type w → (ms = [] → startsWith w ["mut"] = false) →
      Derives False .type (a.unfused ++ (ls ++ ms) ++ w) := fun w hw hmut ↦ by
    rw [List.append_assoc]
    exact derives_reference ha hregular hls hms (fun h ↦ .inr (hmut h)) hw
  rcases eq_or_ne x [] with rfl | hne
  · obtain ⟨t, hspare, htype, hmut⟩ := exists_typeName
    refine ⟨[t], hspare, ?_⟩
    have hall := hmeans [t] htype fun _ ↦ hmut
    simpa [Call.Means] using hall
  · have hmut : ms = [] → startsWith x ["mut"] = false := fun h ↦
      hadmits "mut" (by decide) (hnoMut h)
    have hall := hmeans _ hx fun h ↦ startsWith_false_left (hmut h) hne
    rw [← List.append_assoc] at hall
    exact ⟨v, hv, hall⟩

/-- What completes a path must not make another type of it. So no word may come to its front. -/
theorem opens_typePath {t : Token} (hstart : ∀ s ∈ typeStarts, t.spells s = false) :
    Call.Opens (.type (t :: ts)) (.path (t :: ts)) := by
  refine ⟨[], .whole rfl unfuse_nil, ?_, fun _ ↦ False.elim⟩
  rintro x hadmits ⟨v, hv, hx⟩
  rcases eq_or_ne x [] with rfl | hne
  · exact viable_type
  refine ⟨v, hv, .typePath hx fun s hs ↦ ?_⟩
  have hword : s ∈ typeStarts ∧ s ∉ halfSpellings := by
    revert s
    decide
  refine startsWith_false_left (hadmits s hword.2 ?_) hne
  simp only [Call.ahead, Call.input, startsWith_cons, startsWith_nil, Bool.and_true]
  exact hstart s hword.1

/-- A qualified path is completed behind its self type by an item. -/
theorem opens_self : Call.Opens (.self before ts) (.type ts) := by
  obtain ⟨e, c, t, hspare, he, hc, ht⟩ := exists_item
  refine opens_of_words hspare (.whole rfl unfuse_nil) (fun _ ↦ False.elim) fun w hw o ho ↦ ?_
  have hall := Derives.qualified ho hw .noTrait he hc ht (.plain .pathEnd)
  simpa using hall

/-- A qualified path is completed behind its trait by an item. -/
theorem opens_asPath {a : Token} (ha : a.spells "as" = true) :
    Call.Opens (.afterSelf before read (a :: ts)) (.path ts) := by
  obtain ⟨e, c, t, hspare, he, hc, ht⟩ := exists_item
  have hfront : unfuse [a] = [a] := by simp [unfused_of_spells ha (by decide)]
  refine opens_of_words hspare (.whole rfl hfront) (fun _ ↦ False.elim) fun w hw o ts ho hts ↦ ?_
  have hall := Derives.qualified ho hts (.trait ha hw) he hc ht (.plain .pathEnd)
  simpa using hall

theorem opens_arrow {a : Token} (ha : a.spells "->" = true) :
    Call.Opens (.arrow before (a :: ts)) (.type ts) := by
  have hfront : unfuse [a] = [a] := by simp [unfused_of_spells ha (by decide)]
  exact opens_of_means (.whole rfl hfront) (fun _ ↦ False.elim) fun w hw ↦ .result ha hw

theorem opens_pointer {a m : Token} (ha : a.spells "*" = true)
    (hm : m.spells "const" = true ∨ m.spells "mut" = true) :
    Call.Opens (.type (a :: m :: ts)) (.type ts) := by
  have hfront : unfuse [a, m] = [a, m] := by
    simp [unfused_of_spells ha (by decide), unfused_of_spells_or hm (by decide) (by decide)]
  exact opens_of_means (.whole rfl hfront) (fun _ ↦ False.elim) fun w hw ↦ .pointer ha hm hw

theorem opens_bounded {t : Token} (ht : t.spells "dyn" = true ∨ t.spells "impl" = true) :
    Call.Opens (.type (t :: ts)) (.bound ts) := by
  have hfront : unfuse [t] = [t] := by
    simp [unfused_of_spells_or ht (by decide) (by decide)]
  refine opens_of_means (.whole rfl hfront) (fun _ ↦ False.elim) fun w hw ↦ ?_
  have hall : Derives False .type (t :: (w ++ [])) := .bounded ht hw .noPlus
  rwa [List.append_nil] at hall

/-- Behind an opening angle, which may be half of a token, a qualified path is opened. -/
theorem opens_qualified {o : Token} (ho : o.spells "<" = true) (hpasses : Passes ts [o] us) :
    Call.Opens (.type ts) (.self [o] us) := by
  refine opens_of_means hpasses ?_ fun w hw ↦ hw o ho
  rintro x ⟨type, trait, rfl, htype, htrait⟩
  have hopen : Call.SelfOpen (.type ts) ([] ++ o :: (type ++ trait)) :=
    .within hosts_type ho htype htrait
  exact hopen

/-- A plus is completed by the bound behind it, in a sum and behind another bound. -/
theorem opens_plus {a : Token} (ha : a.spells "+" = true) (hahead : c.ahead = a :: ts)
    (hc : ∀ w, Derives False .plus w → c.Means False w) : c.Opens (.bound ts) := by
  have hfront : unfuse [a] = [a] := by simp [unfused_of_spells ha (by decide)]
  refine opens_of_means (.whole hahead hfront) (fun _ ↦ False.elim) fun w hw ↦ ?_
  have hall : Derives False .plus (a :: (w ++ [])) := .plus ha hw .noPlus
  rw [List.append_nil] at hall
  exact hc _ hall

theorem opens_maybeBound {q : Token} (hq : q.spells "?" = true) :
    Call.Opens (.bound (q :: ts)) (.path ts) := by
  have hfront : unfuse [q] = [q] := by simp [unfused_of_spells hq (by decide)]
  exact opens_of_means (.whole rfl hfront) (fun _ ↦ False.elim) fun w hw ↦ .pathBound (.one hq) hw

/-- A list that is looked at, or a type, begins anew between the brackets of a group. -/
theorem looksInto_of_begins {d : Delimiter} {span : Option Span}
    (hgroup : .group d span c'.input ∈ c.ahead) (hbefore : c'.before = [])
    (hahead : c'.ahead = c'.input) (hbegins : c'.Begins) : c.LooksInto c' := by
  have hsource : DrawnFrom c'.input c'.input := fun _ ht ↦ .token (.here ht)
  exact ⟨d, span, hgroup, drawn_of_input (hbefore ▸ drawnFrom_nil) hsource hahead hbegins⟩

/-- A part is opened, or stands in a group that is looked into. -/
theorem opens_of_part {next : List Token → List Token → Call} (h : Advances c (.part c' next))
    (hc : RegularAll c.input) (hstands : c.Stands) :
    c'.Stands ∧ c.Opens c' ∨ c.LooksInto c' := by
  cases h with
  | rooted hd ht => exact .inl ⟨trivial, opens_rooted hd ht⟩
  | plain ht => exact .inl ⟨trivial, opens_plain ht⟩
  | @opening before cs ts o hcs ho =>
    have hfront : unfuse (cs ++ [o]) = cs ++ [o] := by
      simp [unfuse_maybe_spells (by decide) hcs, unfused_of_spells ho (by decide)]
    exact .inl ⟨trivial, opens_param hcs ho (.whole (by simp [Call.ahead, Call.input]) hfront)⟩
  | @openingFused before cs ts o o₁ o₂ hcs ho hcut =>
    have hjoined : o.isJoined = true := isJoined_iff.mpr (.inr ho)
    refine .inl ⟨trivial, opens_param hcs (spells_halves ho rfl hcut).1 (.cut rfl hjoined hcut ?_)⟩
    rw [unfuse_maybe_spells (by decide) hcs]
  | fnArgs => exact .inr (looksInto_of_begins List.mem_cons_self rfl rfl trivial)
  | comma hm => exact .inl ⟨trivial, opens_comma hm⟩
  | @binding ts t e ht he =>
    have hfront : unfuse [t, e] = [t, e] := by
      simp [unfused_of_isIdent ht, unfused_of_spells he (by decide)]
    refine .inl ⟨trivial, opens_of_means (.whole rfl hfront) (fun _ ↦ False.elim) fun w hw ↦ ?_⟩
    exact .binding ht he hw
  | typeParam =>
    refine .inl ⟨trivial, opens_of_means (.whole rfl unfuse_nil) (fun _ ↦ False.elim) fun w hw ↦ ?_⟩
    exact .typeParam hw
  | arrow ha => exact .inl ⟨trivial, opens_arrow ha⟩
  | listType | listSummed => cases hstands
  | tuple => exact .inr (looksInto_of_begins List.mem_cons_self rfl rfl trivial)
  | bracketed hinner => exact .inr (looksInto_of_begins List.mem_cons_self rfl rfl hinner)
  | reference ha hls hms _ hnoMut =>
    exact .inl ⟨trivial, opens_reference ha (regularAll_cons.mp hc).1 hls hms hnoMut⟩
  | pointer ha hm => exact .inl ⟨trivial, opens_pointer ha hm⟩
  | fnPointer =>
    refine .inl ⟨trivial, opens_of_means (.whole rfl unfuse_nil) (fun _ ↦ False.elim) fun w hw ↦ ?_⟩
    exact .fnPointer hw
  | bounded ht => exact .inl ⟨trivial, opens_bounded ht⟩
  | @qualified o ts ho =>
    have hfront : unfuse [o] = [o] := by simp [unfused_of_spells ho (by decide)]
    exact .inl ⟨trivial, opens_qualified ho (.whole rfl hfront)⟩
  | @qualifiedFused o o₁ o₂ ts ho hcut =>
    have hjoined : o.isJoined = true := isJoined_iff.mpr (.inr ho)
    have hpasses : Passes (o :: ts) [o₁] (o₂ :: ts) :=
      .cut (List.nil_append _).symm hjoined hcut rfl
    exact .inl ⟨trivial, opens_qualified (spells_halves ho rfl hcut).1 hpasses⟩
  | typePath _ hstart => exact .inl ⟨trivial, opens_typePath hstart⟩
  | summed =>
    refine .inl ⟨trivial, opens_of_means (.whole rfl unfuse_nil) (fun _ ↦ False.elim) fun w hw ↦ ?_⟩
    have hall : Derives False .sum (w ++ []) := .sum hw .noPlus
    rwa [List.append_nil] at hall
  | plus ha | boundPlus ha => exact .inl ⟨trivial, opens_plus ha rfl fun _ hw ↦ hw⟩
  | maybeBound hq => exact .inl ⟨trivial, opens_maybeBound hq⟩
  | pathBound =>
    refine .inl ⟨trivial, opens_of_means (.whole rfl unfuse_nil) (fun _ ↦ False.elim) fun w hw ↦ ?_⟩
    exact .pathBound .none hw
  | fn =>
    have hmem : ∀ {f g : Token} {us : List Token}, g ∈ f :: g :: us := by simp
    exact .inr (looksInto_of_begins hmem rfl rfl trivial)
  | self => exact .inl ⟨trivial, opens_self⟩
  | asPath ha => exact .inl ⟨trivial, opens_asPath ha⟩
  | noAs _ hend => cases hend
  | selfEnd hend => cases hend

end

end Grammar

end Expander
