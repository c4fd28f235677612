import Expander.Proofs.Grammar.Acceptance
import Expander.Proofs.Protocol.Expanding

/-!
# What a fault points at

A rule only hands on what it was given. The tokens that a call has in hand, goes on with or takes
from stand in the input, at some depth, or are halves of joined angles there, and each step keeps
this so (`drawn_of_advances`). The rules that need a token to begin with are never called without
one. So a fault that is found in a call on some tokens points at a token, and that token originates
in the input (`Reads.drawn`).
-/

set_option autoImplicit false

namespace Expander

/-! ### Tokens of a sequence -/

namespace Token

/-- A token of a sequence at any depth, or a half of a joined angle there. -/
inductive OriginatesIn (source : List Token) : Token → Prop
  | token {t : Token} (h : Inside source t) : OriginatesIn source t
  | firstHalf {t a b : Token} (h : Inside source t) (ht : t.isJoined = true)
      (hcut : t.halves? = some (a, b)) : OriginatesIn source a
  | secondHalf {t a b : Token} (h : Inside source t) (ht : t.isJoined = true)
      (hcut : t.halves? = some (a, b)) : OriginatesIn source b

section

variable {source inner : List Token} {t a b : Token} {d : Delimiter} {span : Option Span}

/-- What is between the brackets of a group originates where the group does. -/
theorem OriginatesIn.stream (h : OriginatesIn source (.group d span inner)) (ht : t ∈ inner) :
    OriginatesIn source t := by
  have hnot : ∀ {u a b : Token}, u.halves? = some (a, b) →
      a ≠ .group d span inner ∧ b ≠ .group d span inner := by
    intro u a b hcut
    obtain ⟨text, span, c, e, -, -, rfl, rfl⟩ := halves?_eq_some_iff.mp hcut
    exact ⟨nofun, nofun⟩
  generalize hg : Token.group d span inner = g at h
  cases h with
  | token h =>
    subst hg
    exact .token (h.stream ht)
  | firstHalf _ _ hcut => exact absurd hg.symm (hnot hcut).1
  | secondHalf _ _ hcut => exact absurd hg.symm (hnot hcut).2

/-- The halves of a joined angle originate where the angle does, since no half is cut again. -/
theorem OriginatesIn.halves (h : OriginatesIn source t) (ht : t.isJoined = true)
    (hcut : t.halves? = some (a, b)) : OriginatesIn source a ∧ OriginatesIn source b := by
  cases h with
  | token h => exact ⟨.firstHalf h ht hcut, .secondHalf h ht hcut⟩
  | firstHalf _ _ hcut' =>
    rw [(halves?_of_half hcut').1] at hcut
    cases hcut
  | secondHalf _ _ hcut' =>
    rw [(halves?_of_half hcut').2] at hcut
    cases hcut

end

end Token

namespace Grammar

/-- Tokens that all originate in a sequence. -/
def DrawnFrom (source ts : List Token) : Prop := ∀ t ∈ ts, t.OriginatesIn source

section

variable {source ts us : List Token} {t a b : Token}

@[simp] theorem drawnFrom_nil : DrawnFrom source [] := List.forall_mem_nil _

@[simp] theorem drawnFrom_cons :
    DrawnFrom source (t :: ts) ↔ t.OriginatesIn source ∧ DrawnFrom source ts :=
  List.forall_mem_cons

@[simp] theorem drawnFrom_append :
    DrawnFrom source (ts ++ us) ↔ DrawnFrom source ts ∧ DrawnFrom source us :=
  List.forall_mem_append

/-- The last of some tokens originates where they do. -/
theorem DrawnFrom.last (h : DrawnFrom source ts) (ht : ts.getLast? = some t) :
    t.OriginatesIn source :=
  h t (List.mem_of_getLast? ht)

/-- The halves of a joined angle among some tokens originate where they do. -/
theorem DrawnFrom.cut {s : String} (h : DrawnFrom source ts) (hmem : t ∈ ts)
    (ht : t.spells s = true) (hs : s = ">>" ∨ s = "<<") (hcut : t.halves? = some (a, b)) :
    a.OriginatesIn source ∧ b.OriginatesIn source := by
  refine (h t hmem).halves (Token.isJoined_iff.mpr ?_) hcut
  rcases hs with rfl | rfl
  · exact .inl ht
  · exact .inr ht

/-- The tokens inside a group among some tokens originate where they do. -/
theorem DrawnFrom.inner {d : Delimiter} {span : Option Span} (h : DrawnFrom source ts)
    (hmem : .group d span us ∈ ts) : DrawnFrom source us :=
  fun _ hu ↦ (h _ hmem).stream hu

end

/-- A call that does not need a token to begin with, or has one. -/
def Call.Begins : Call → Prop
  | path ts | param ts | type ts | summed ts | bound ts | self _ ts => ts ≠ []
  | _ => True

/-- All that a call knows of originates in a sequence, and it has what it needs to begin. -/
structure Call.Drawn (source : List Token) (c : Call) : Prop where
  before : DrawnFrom source c.before
  input : DrawnFrom source c.input
  ahead : DrawnFrom source c.ahead
  begins : c.Begins

/-- A fault that points at a token, which originates in a sequence. -/
inductive PointsInto (source : List Token) : Fault → Prop
  | unexpected {t : Token} (h : t.OriginatesIn source) : PointsInto source (.unexpected t)

/-- What a step comes to originates in a sequence. -/
def Plan.Drawn (source : List Token) : Plan → Prop
  | .fault f => PointsInto source f
  | .done first rest => DrawnFrom source first ∧ DrawnFrom source rest
  | .go c => c.Drawn source
  | .part c next => c.Drawn source ∧ ∀ first rest, DrawnFrom source first →
      DrawnFrom source rest → (next first rest).Drawn source

/-! ### Steps -/

section

variable {source before ts : List Token} {c c' : Call} {p : Plan}
  {next : List Token → List Token → Call}

/-- A call that takes from the tokens it goes on with is drawn from where these are. -/
theorem drawn_of_input (hbefore : DrawnFrom source c.before) (hinput : DrawnFrom source c.input)
    (hahead : c.ahead = c.input) (hbegins : c.Begins) : c.Drawn source :=
  ⟨hbefore, hinput, hahead ▸ hinput, hbegins⟩

/-- A call on tokens in hand, and then one that goes on behind what that gives back. -/
theorem drawn_of_part (hpart : DrawnFrom source (c'.before ++ c'.input))
    (hahead : c'.ahead = c'.input) (hbegins : c'.Begins)
    (hnext : ∀ first rest, DrawnFrom source first → DrawnFrom source rest →
      DrawnFrom source ((next first rest).before ++ (next first rest).input) ∧
        (next first rest).ahead = (next first rest).input ∧ (next first rest).Begins) :
    (Plan.part c' next).Drawn source := by
  rw [drawnFrom_append] at hpart
  refine ⟨drawn_of_input hpart.1 hpart.2 hahead hbegins, fun first rest hfirst hrest ↦ ?_⟩
  obtain ⟨htokens, hahead', hbegins'⟩ := hnext first rest hfirst hrest
  rw [drawnFrom_append] at htokens
  exact drawn_of_input htokens.1 htokens.2 hahead' hbegins'

/-- At the end of a self type, what is blamed is one of the two tokens that are looked at, or the
last that was read. -/
theorem drawn_endsSelf (hbefore : DrawnFrom source before) (hts : DrawnFrom source ts)
    (h : EndsSelf before ts p) : p.Drawn source := by
  cases h with
  | @item e d t ts =>
    refine drawn_of_input ?_ ?_ rfl trivial <;> simp_all [Call.before, Call.input]
  | @noItem e t ts _ _ ht =>
    have hmem : t ∈ e :: ts := List.mem_of_mem_take (i := 2) (List.mem_of_getLast? ht)
    exact .unexpected (hts t hmem)
  | unclosed ht => exact .unexpected (hbefore.last ht)
  | noIdent | noAngle => exact .unexpected (hts _ (by simp))

/-- Whatever a call does next is drawn from where its own tokens are. -/
theorem drawn_of_advances (hc : c.Drawn source) (h : Advances c p) : p.Drawn source := by
  obtain ⟨hbefore, hinput, hahead, hbegins⟩ := hc
  cases h with
  -- Nothing is left for a call that needs a token to begin with.
  | noPath | noParam | noType | noBound => exact absurd rfl hbegins
  -- A joined angle is cut.
  | emptyFused _ _ he hcut | closeFused _ he hcut =>
    have hhalves := hinput.cut (by simp [Call.input]) he (.inl rfl) hcut
    constructor <;> simp_all [Call.before, Call.input]
  | openingFused _ ho hcut | qualifiedFused ho hcut =>
    have hhalves := hinput.cut (by simp [Call.input]) ho (.inr rfl) hcut
    refine drawn_of_part ?_ rfl (List.cons_ne_nil _ _) fun _ _ hfirst hrest ↦ ⟨?_, rfl, trivial⟩ <;>
      simp_all [Call.before, Call.input, Return.kept]
  -- A group is looked into.
  | fnArgs | tuple =>
    have hinner := hinput.inner List.mem_cons_self
    refine drawn_of_part ?_ rfl trivial fun _ _ hfirst hrest ↦ ⟨?_, rfl, trivial⟩ <;>
      simp_all [Call.before, Call.input, Return.kept]
  | fn =>
    have hinner := hinput.inner (List.mem_cons_of_mem _ List.mem_cons_self)
    refine drawn_of_part ?_ rfl trivial fun _ _ hfirst hrest ↦ ⟨?_, rfl, trivial⟩ <;>
      simp_all [Call.before, Call.input]
  | bracketed hinside =>
    obtain ⟨hgroup, hbehind⟩ := drawnFrom_cons.mp hinput
    have hinner := hinput.inner List.mem_cons_self
    refine ⟨drawn_of_input drawnFrom_nil hinner rfl hinside, fun first rest hfirst hrest ↦ ?_⟩
    exact ⟨drawnFrom_cons.mpr ⟨hgroup, drawnFrom_nil⟩, hrest, hbehind, trivial⟩
  -- A fault at the last token that was taken, or at a token that is not fit to be taken.
  | leftOpen ht => exact .unexpected ((drawnFrom_append.mp hbefore).2.last ht)
  | pointerEmpty ht => exact .unexpected (hbefore.last ht)
  | referenceLast _ _ _ ht => exact .unexpected (hinput.last ht)
  | rootedNoIdent | noIdent | openingLast | segmentNoIdent | noComma | arrowLast | noSeparator
  | bracketedEmpty | pointerLast | pointerNoMark | pointerOnly | boundedLast | qualifiedLast
  | noTypeStart | plusLast | boundPlusLast | maybeBoundLast | noBoundStart | noArrayEnd | fnNoArgs
  | noFn =>
    exact .unexpected (hinput _ (by simp [Call.input]))
  | noAs _ hend | selfEnd hend => exact drawn_endsSelf hbefore hinput hend
  -- Tokens are handed on as they are.
  | pathEnd | single | negative | noArrow | listEnd | separatorEnd | lone | noPlus | boundNoPlus
  | simpleBound | back =>
    constructor <;> simp_all [Call.before, Call.input]
  | arrayEnd => exact ⟨hbefore, hahead⟩
  | empty | noArgs | segment | close | separator | summand | unsafeFn | externFn =>
    refine drawn_of_input ?_ ?_ rfl trivial <;> simp_all [Call.before, Call.input]
  | summed | self =>
    refine drawn_of_part ?_ rfl hbegins fun _ _ hfirst hrest ↦ ⟨?_, rfl, trivial⟩ <;>
      simp_all [Call.before, Call.input]
  | rooted | plain | opening | comma | binding | typeParam | arrow | listType | listSummed
  | reference | pointer | fnPointer | bounded | qualified | typePath | plus | boundPlus
  | maybeBound | pathBound | asPath =>
    refine drawn_of_part ?_ rfl ?_ fun _ _ hfirst hrest ↦ ⟨?_, rfl, trivial⟩ <;>
      simp_all [Call.before, Call.input, Call.Begins, Return.kept]

/-- What a call comes to originates in a sequence. -/
def DrawnParsed (source : List Token) : Parsed → Prop
  | .ok (first, rest) => DrawnFrom source first ∧ DrawnFrom source rest
  | .error f => PointsInto source f

/-- Whatever a call comes to is drawn from where its own tokens are. -/
theorem Reads.drawn {ds : List Nat} {r : Parsed} (h : Reads c ds r) (hc : c.Drawn source) :
    DrawnParsed source r := by
  induction h with
  | fault h | done h => exact drawn_of_advances hc h
  | go h _ ih => exact ih (drawn_of_advances hc h)
  | part h _ _ ihpart ihnext =>
    obtain ⟨hpart, hnext⟩ := drawn_of_advances hc h
    obtain ⟨hfirst, hrest⟩ := ihpart hpart
    exact ihnext (hnext _ _ hfirst hrest)
  | lost h _ ih => exact ih (drawn_of_advances hc h).1

end

end Grammar

open Grammar Machine

/-! ### Tokens of a text -/

section

variable {file source : String} {ts : List Token} {t : Token}

/-- What originates in a text that was lexed has a place in it. -/
theorem Token.OriginatesIn.isSome_span (h : t.OriginatesIn ts) (hlex : lex file source = .ok ts) :
    t.span.isSome = true := by
  have hspan : ∀ {u : Token}, Token.Inside ts u → u.span.isSome = true := fun hu ↦ by
    cases hu.lexedFrom (lexedFrom_of_lex hlex) <;> rfl
  have hhalf : ∀ {u a b : Token}, Token.Inside ts u → u.halves? = some (a, b) →
      a.span.isSome = true ∧ b.span.isSome = true := by
    intro u a b hu hcut
    have hsome := hspan hu
    obtain ⟨text, span, c, e, rfl, -, rfl, rfl⟩ := Token.halves?_eq_some_iff.mp hcut
    simpa [Token.span] using hsome
  cases h with
  | token h => exact hspan h
  | firstHalf h _ hcut => exact (hhalf h hcut).1
  | secondHalf h _ hcut => exact (hhalf h hcut).2

/-- An entry on some tokens begins with nothing in hand. -/
theorem drawn_entry (e : Entry) (hts : ts ≠ []) : (e.call ts).Drawn ts := by
  have hsource : DrawnFrom ts ts := fun _ ht ↦ .token (.here ht)
  cases e <;> exact drawn_of_input drawnFrom_nil hsource rfl hts

end

/-! ### Expansions of entries -/

section

variable {σ : Type} {more : List (Callee × Handler σ)} {e : Entry} {ts : List Token}
  {returnsTo : Destination} {last : Callee} {final : List Argument → Except Failure Value}
  {limits : Limits} {w : World σ}

/-- On some tokens a run of an entry ends with a value or with a fault that points at one of them,
and on none with the fault that there is none. -/
theorem result_anchored {file source : String} (hlex : lex file source = .ok ts)
    (hleads : returnsTo.LeadsTo (Registry.standardAnd more) last)
    (hfinishes : Finishes (Registry.standardAnd more) last final)
    (hlimits : Unlimited (e.result more limits ts returnsTo w)) :
    (ts = [] ∧ e.result more limits ts returnsTo w = .error (.fault .endOfInput)) ∨
      ts ≠ [] ∧ ((∃ value, e.result more limits ts returnsTo w = .ok value) ∨
        ∃ t, t.OriginatesIn ts ∧
          e.result more limits ts returnsTo w = .error (.fault (.unexpected t))) := by
  rcases eq_or_ne ts [] with rfl | hts
  · have hreads : Reads (e.call []) [0] (.error .endOfInput) := by
      cases e with
      | path => exact .fault .noPath
      | type => exact .fault .noType
    exact .inl ⟨rfl, result_of_unlimited hreads hleads hfinishes hlimits⟩
  refine .inr ⟨hts, ?_⟩
  obtain ⟨ds, r, hreads⟩ := exists_reads_of_lex hlex e
  rw [result_of_unlimited hreads hleads hfinishes hlimits]
  have hdrawn := hreads.drawn (drawn_entry e hts)
  cases r with
  | error f =>
    cases hdrawn with
    | unexpected ht => exact .inr ⟨_, ht, rfl⟩
  | ok parsed =>
    obtain ⟨first, rest⟩ := parsed
    rw [returned_entry]
    cases hfinishes with
    | identity =>
      cases rest with
      | nil => exact .inl ⟨_, rfl⟩
      | cons t rest => exact .inr ⟨t, hdrawn.2 t List.mem_cons_self, rfl⟩
    | debug => exact .inl ⟨_, rfl⟩
    | capture => exact .inl ⟨_, rfl⟩

/-- A run without limits comes to what an expansion without limits makes of it. -/
theorem unlimited_of_expand {file source : String} (hlex : lex file source = .ok ts)
    (h : ∀ bound n callee,
      ((expand (Registry.standardAnd more) (.ok limits) e.name file source returnsTo).outcome w).1 ≠
        .error (.limit bound n callee)) :
    Unlimited (e.result more limits ts returnsTo (opened w e.name file ts)) := by
  intro bound n callee hresult
  refine h bound n callee ?_
  rw [outcome_expand_of_lex hlex]
  exact Expansion.ofRun_eq_error_iff.mpr ⟨hresult, nofun⟩

/-- Limits that a run fits in are not reached by its expansion. -/
theorem expand_unlimited {file source : String} {ds : List Nat} {r : Parsed}
    (hlex : lex file source = .ok ts) (hreads : Reads (e.call ts) ds r)
    (hleads : returnsTo.LeadsTo (Registry.standardAnd more) last)
    (hfinishes : Finishes (Registry.standardAnd more) last final)
    (hlimits : Fits limits limits.steps.toNat 0 (runDepths ds r)) (bound : Bound) (n : Int)
    (callee : String) :
    ((expand (Registry.standardAnd more) (.ok limits) e.name file source returnsTo).outcome w).1 ≠
      .error (.limit bound n callee) := by
  have hunlimited : Unlimited (e.result more limits ts returnsTo (opened w e.name file ts)) :=
    unlimited_of_fits hreads hleads hfinishes hlimits
  rw [outcome_expand_of_lex hlex]
  intro hresult
  exact hunlimited bound n callee (Expansion.ofRun_eq_error_iff.mp hresult).1

end

/-! ### Diagnostics -/

/-- A diagnostic of what the lexer made of a text: it is one of the lexer if and only if the text is
no sequence of tokens, it is without a place if and only if there are no tokens, and else it points
at a token of the sequence, at any depth, or at a half of a joined angle, and quotes it. -/
structure Diagnostic.Anchored (lexed : Except LexError (List Token)) (d : Diagnostic) : Prop where
  lexical : d.code = some lexicalCode ↔ ∃ err, lexed = .error err
  vacant : d.code = some unexpectedEndCode ∧ d.span = none ↔ lexed = .ok []
  token : ∀ ts, lexed = .ok ts → ts ≠ [] → d.code = some unexpectedTokenCode ∧
    ∃ t : Token, t.OriginatesIn ts ∧ d.span = t.span ∧ d.span.isSome = true ∧
      d.message = "no rules expected the token " ++ ticked t.render

/-- The three codes of diagnostics are different. -/
theorem codes_ne : unexpectedTokenCode ≠ lexicalCode ∧ unexpectedEndCode ≠ lexicalCode ∧
    unexpectedTokenCode ≠ unexpectedEndCode := by decide

/-- A diagnostic of the lexer is one of a text that is no sequence of tokens. -/
theorem anchored_lexError (err : LexError) : err.diagnostic.Anchored (.error err) where
  lexical := by simp [LexError.diagnostic]
  vacant := by simp [LexError.diagnostic, codes_ne.2.1.symm]
  token := nofun

/-- The fault that there is no token has no place to point at. -/
theorem anchored_endOfInput : Fault.endOfInput.diagnostic.Anchored (.ok []) where
  lexical := by simp [Fault.diagnostic, codes_ne.2.1]
  vacant := by simp [Fault.diagnostic]
  token := by
    rintro ts heq hts
    cases heq
    exact absurd rfl hts

/-- The fault at a token points at the place of the token, and quotes it. -/
theorem anchored_unexpected {ts : List Token} {t : Token} (ht : t.OriginatesIn ts)
    (hspan : t.span.isSome = true) (hts : ts ≠ []) :
    (Fault.unexpected t).diagnostic.Anchored (.ok ts) where
  lexical := by simp [Fault.diagnostic, codes_ne.1]
  vacant := by simp [Fault.diagnostic, hts, codes_ne.2.2]
  token := by
    rintro ts heq -
    cases heq
    exact ⟨rfl, t, ht, rfl, hspan, rfl⟩

/-- Whatever text an entry is expanded on, it succeeds on some tokens with nothing to report, or it
returns nothing and reports one diagnostic, which is anchored in the text, unless a limit is
reached. Limits that are high enough are not. -/
theorem diagnostics_anchored {σ : Type} (more : List (Callee × Handler σ)) (e : Entry)
    {returnsTo : Destination} {last : Callee} {final : List Argument → Except Failure Value}
    (hleads : returnsTo.LeadsTo (Registry.standardAnd more) last)
    (hfinishes : Finishes (Registry.standardAnd more) last final) (file source : String) :
    (∀ (limits : Limits) (w : World σ), (∀ bound n callee,
      ((expand (Registry.standardAnd more) (.ok limits) e.name file source returnsTo).outcome w).1 ≠
        .error (.limit bound n callee)) → ∃ x,
      ((expand (Registry.standardAnd more) (.ok limits) e.name file source returnsTo).outcome w).1 =
        .ok x ∧
      ((∃ value ts, x.Succeeds value ∧ lex file source = .ok ts ∧ ts ≠ []) ∨
        ∃ d, x.Reports d ∧ d.Anchored (lex file source))) ∧
    ∃ n : Nat, ∀ limits : Limits, n ≤ limits.recursion → n ≤ limits.steps →
      ∀ (w : World σ) bound m callee,
      ((expand (Registry.standardAnd more) (.ok limits) e.name file source returnsTo).outcome w).1 ≠
        .error (.limit bound m callee) := by
  cases hlex : lex file source with
  | error err =>
    constructor
    · intro limits w _
      refine ⟨_, outcome_expand_of_error hlex, .inr ⟨err.diagnostic, ?_, anchored_lexError err⟩⟩
      exact Expansion.reports_failed _ _
    · refine ⟨0, fun limits _ _ w bound m callee ↦ ?_⟩
      rw [outcome_expand_of_error hlex]
      exact nofun
  | ok ts =>
    constructor
    · intro limits w hlimits
      have hunlimited := unlimited_of_expand hlex hlimits
      rw [outcome_expand_of_lex hlex]
      rcases result_anchored hlex hleads hfinishes hunlimited with
        ⟨rfl, hresult⟩ | ⟨hts, ⟨value, hresult⟩ | ⟨t, ht, hresult⟩⟩
      · refine ⟨_, congrArg _ hresult, .inr ⟨_, ?_, anchored_endOfInput⟩⟩
        exact Expansion.reports_failed _ _
      · refine ⟨_, congrArg _ hresult, .inl ⟨value, ts, ?_, rfl, hts⟩⟩
        exact Expansion.succeeds_succeeded value _
      · refine ⟨_, congrArg _ hresult, .inr ⟨_, ?_, anchored_unexpected ht ?_ hts⟩⟩
        · exact Expansion.reports_failed _ _
        · exact ht.isSome_span hlex
    · obtain ⟨ds, r, hreads⟩ := exists_reads_of_lex hlex e
      obtain ⟨n, hn⟩ := exists_fits (runDepths ds r)
      exact ⟨n, fun limits hrecursion hsteps w bound m callee ↦
        expand_unlimited hlex hreads hleads hfinishes (hn limits hrecursion hsteps) bound m callee⟩

/-- A list that is closed twice by one token. -/
def closedTwice : Except Failure Expansion :=
  ((expand (σ := Unit) Registry.standard (.ok ⟨128, 100⟩) Entry.type.name "<input>" "A<B>>"
    .identity).outcome (.initial ())).1

/-- The second half of the token is left, and the diagnostic points at it. -/
theorem diagnostics_anchored_half :
    (∀ bound n callee, closedTwice ≠ .error (.limit bound n callee)) ∧ ∃ x,
      closedTwice = .ok x ∧ x.success = false ∧
        ∃ d, x.Reports d ∧ d.Anchored (lex "<input>" "A<B>>") := by
  have hok : closedTwice.toOption.map Expansion.success = some false := by decide +kernel
  obtain ⟨y, hy, hfailed⟩ : ∃ y, closedTwice = .ok y ∧ y.success = false := by
    cases hresult : closedTwice with
    | error f =>
      rw [hresult] at hok
      cases hok
    | ok y =>
      rw [hresult] at hok
      exact ⟨y, rfl, Option.some.inj hok⟩
  have hlimits : ∀ bound n callee, closedTwice ≠ .error (.limit bound n callee) := hy ▸ nofun
  obtain ⟨x, hx, hends⟩ := (diagnostics_anchored (σ := Unit) [] .type .identity .identity "<input>"
    "A<B>>").1 ⟨128, 100⟩ (.initial ()) hlimits
  obtain rfl : y = x := Except.ok.inj (hy.symm.trans hx)
  refine ⟨hlimits, y, hy, hfailed, hends.resolve_left ?_⟩
  rintro ⟨value, ts, ⟨hsuccess, -⟩, -⟩
  rw [hfailed] at hsuccess
  cases hsuccess

end Expander
