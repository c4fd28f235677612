import Expander.Proofs.Grammar.Reading
import Expander.Proofs.Token.Patterns

/-!
# The rules do what is read

The step of a call is the move that the rule of its nonterminal makes of its arguments
(`carries_of_advances`). So a nonterminal evaluates to what its call reads, by steps of the same
depths (`Reads.evaluates`).
-/

set_option autoImplicit false

namespace Expander.Grammar

/-! ### Moves -/

/-- The move that the rule of a call's nonterminal makes. -/
def Call.move (c : Call) : Except Failure Move := c.owner.rule c.args

/-- The move that makes a call for what resumes `near`. -/
def Call.calledFor (c : Call) (near : Resumption) : Move :=
  match c.waiting with
  | [] => .call c.owner.callee c.args near []
  | r :: rs => .call c.owner.callee c.args r (rs ++ [near])

/-- A resumption that goes on with some calls when another call gives back its outputs. -/
structure Resumes (near : Resumption) (c : Call) (next : List Token → List Token → Call) :
    Prop where
  callee : ∀ first rest, near.callee = (next first rest).owner.callee
  args : ∀ first rest, near.state ++ given c.outputs first rest = (next first rest).args
  waiting : ∀ first rest, (next first rest).waiting = []

/-- A move that carries out the plan of a call. -/
inductive Carries (c : Call) : Plan → Except Failure Move → Prop
  | fault {f : Fault} {m : Except Failure Move} (h : m = .error (.fault f)) : Carries c (.fault f) m
  | done {first rest : List Token} {m : Except Failure Move}
      (h : m = .ok (.giveBack (given c.outputs first rest))) : Carries c (.done first rest) m
  | go {c' : Call} {m : Except Failure Move} (h : m = .ok (.tail c'.owner.callee c'.args))
      (hwaiting : c'.waiting = []) (houtputs : c'.outputs = c.outputs) : Carries c (.go c') m
  | part {c' : Call} {next : List Token → List Token → Call} {m : Except Failure Move}
      (near : Resumption) (h : m = .ok (c'.calledFor near)) (hnear : Resumes near c' next)
      (houtputs : ∀ first rest, (next first rest).outputs = c.outputs) :
      Carries c (.part c' next) m

/-! ### The rules on token sequences -/

@[simp] theorem ok_bind {α β : Type} (a : α) (f : α → Except Failure β) :
    (Except.ok a >>= f) = f a := rfl

@[simp] theorem pure_eq_ok {α : Type} (a : α) : (pure a : Except Failure α) = .ok a := rfl

@[simp] theorem throw_eq_error {α : Type} (f : Failure) :
    (throw f : Except Failure α) = .error f := rfl

@[simp] theorem tokens?_tokens (ts : List Token) : (Value.tokens ts).tokens? = .ok ts := rfl

@[simp] theorem atFirst_cons (t : Token) (ts : List Token) :
    Failure.atFirst (t :: ts) = .fault (.unexpected t) := rfl

/-- A fault at the last of some tokens blames that token. -/
theorem atLast_of_getLast? {ts : List Token} {t : Token} (h : ts.getLast? = some t) :
    Failure.atLast ts = .fault (.unexpected t) := by
  rw [Failure.atLast, h]

section

variable {before read ts : List Token}

/-- The arguments of a call have the names and the shape that the rule asks for, so that its move is
the one for its tokens. The same is shown below for the other calls. -/
theorem move_path : (Call.path ts).move = pathAt ts := rfl

theorem move_tail : (Call.tail before ts).move = afterIdentAt (.tokens before) ts := by
  cases before <;> rfl

theorem move_after : (Call.after before ts).move = afterCloseAngleAt (.tokens before) ts := rfl

theorem move_more :
    (Call.more before read ts).move = inAngleBracketsAt (.tokens before) (.tokens read) ts := rfl

theorem move_param : (Call.param ts).move = genericParamAt ts := rfl

theorem move_arrow : (Call.arrow before ts).move = afterFnArgsAt (.tokens before) ts := rfl

theorem move_bound : (Call.bound ts).move = boundAt ts := rfl

/-- A function pointer is read by one rule, with qualifiers in front or without. -/
theorem move_pointer : (Call.pointer before ts).move = fnPointerAt (.tokens before) ts := rfl

theorem move_summands : (Call.summands before ts).move = afterSummandAt (.tokens before) ts := rfl

theorem move_bounds :
    (Call.bounds before read ts).move = afterBoundAt (.tokens before) (.tokens read) ts := rfl

theorem move_afterSelf : (Call.afterSelf before read ts).move = afterSelfAt before read ts := rfl

theorem move_selfEnd :
    (Call.selfEnd before read ts).move = closeQualifiedSelf (before ++ read) ts := rfl

theorem tokensOrNone?_tokens : (Value.tokens ts).tokensOrNone? = .ok ts := by
  cases ts <;> rfl

/-- The rule of a type may be given nothing in place of tokens, and here it is given some. -/
theorem move_type : (Call.type ts).move = typeAt ts := by
  change (Value.tokens ts).tokensOrNone? >>= typeAt = typeAt ts
  rw [tokensOrNone?_tokens]
  rfl

end

theorem args_tail {before : List Token} (h : before ≠ []) (ts : List Token) :
    (Call.tail before ts).args = [.ofTokens "path" before, .ofTokens "tokens" ts] := by
  cases before with
  | nil => exact absurd rfl h
  | cons => rfl

/-! ### Paths -/

section

variable {before read ts : List Token} {p : Plan}

/-- The steps of a path are the moves of its rule. So it is shown below for the other calls, one
rule at a time. -/
theorem carries_path (h : Advances (.path ts) p) : Carries (.path ts) p (Call.path ts).move := by
  rw [move_path]
  cases h with
  | @rooted c t ts hc ht =>
    refine .part (resuming .path [("prefix", [c, t])]) ?_ ⟨?_, ?_, ?_⟩ ?_
    · simp [pathAt, hc, ht]
      rfl
    all_goals intros; rfl
  | @plain t ts ht hc =>
    refine .part (resuming .path [("prefix", [t])]) ?_ ⟨?_, ?_, ?_⟩ ?_
    · simp [pathAt, hc, ht]
      rfl
    all_goals intros; rfl
  | noPath => exact .fault rfl
  | rootedNoIdent hc hident ht =>
    refine .fault ?_
    simp [pathAt, hc, hident, ht, Failure.atFirst]
  | @noIdent t ts ht hc =>
    refine .fault ?_
    by_cases hcolons : t.spells "::" = true
    · simp [pathAt, hc hcolons, ht, Failure.atFirst]
    · simp [pathAt, hcolons, ht, Failure.atFirst]

/-- A list of generic arguments is opened behind what its path has so far. -/
theorem carries_opening {m : Except Failure Move} {opened : List Token}
    (h : m = openGenericArgs (.tokens before) opened ts) (cs : List Token) :
    Carries (.tail before cs) (.part (.param ts) (.more (before ++ opened))) m := by
  refine .part (resuming .inAngleBrackets [("prefix", before ++ opened)]) ?_ ⟨?_, ?_, ?_⟩ ?_
  · rw [h]
    rfl
  all_goals intros; rfl

/-- Behind an identifier the patterns are tried in turn, each standing for one kind of step. -/
theorem carries_tail (h : Advances (.tail before ts) p) :
    Carries (.tail before ts) p (Call.tail before ts).move := by
  rw [move_tail]
  cases h with
  | @empty _ cs ts o e hcs ho he =>
    refine .go ?_ rfl rfl
    cases hcs with
    | none =>
      simp [afterIdentAt, ho, he]
      rfl
    | one hc =>
      simp [afterIdentAt, isExactly, hc, Token.spells_eq hc, ho, Token.spells_eq ho, he]
      rfl
  | @emptyFused _ cs ts o e e₁ e₂ hcs ho he hcut =>
    refine .done ?_
    cases hcs with
    | none =>
      simp [afterIdentAt, halvesAt, ho, he, Token.spells_eq he, hcut]
      rfl
    | one hc =>
      simp [afterIdentAt, isExactly, halvesAt, hc, Token.spells_eq hc, ho, Token.spells_eq ho, he,
        Token.spells_eq he, hcut]
      rfl
  | @opening _ cs ts o hcs ho hts hone htwo =>
    rw [List.append_assoc]
    refine carries_opening ?_ _
    cases hcs with
    | none => simp [afterIdentAt, isExactly, ho, hone, htwo, hts]
    | one hc =>
      simp [afterIdentAt, isExactly, hc, Token.spells_eq hc, ho, Token.spells_eq ho, hone, htwo,
        List.length_pos_iff.mpr hts]
  | @openingFused _ cs ts o o₁ o₂ hcs ho hcut hts =>
    rw [List.append_assoc]
    refine carries_opening ?_ _
    cases hcs with
    | none => simp [afterIdentAt, isExactly, halvesAt, ho, Token.spells_eq ho, hcut]
    | one hc =>
      have hne : ts ≠ [] := by simpa using hts
      simp [afterIdentAt, isExactly, halvesAt, hc, Token.spells_eq hc, ho, Token.spells_eq ho, hcut,
        List.length_pos_iff.mpr hne]
  | openingLast ho =>
    refine .fault ?_
    simp [afterIdentAt, isExactly, ho]
  | @fnArgs _ ts inner span =>
    refine .part (resuming .afterFnArgs
      [("path", before ++ [.group .paren span inner]), ("tokens", ts)]) ?_ ⟨?_, ?_, ?_⟩ ?_
    · simp [afterIdentAt, isExactly, streamAt, Token.spells, Token.delimiter?, Token.stream?]
      rfl
    all_goals intros; rfl
  | noArgs hone htwo hparen hturbo hturboFused =>
    refine .go ?_ rfl rfl
    have hempty (q : Pattern) : startsWith ts ["::", "<", q] = false :=
      startsWith_concat_of_ends hturbo q
    have hlong : (startsWith ts ["::", "<"] && decide (2 < ts.length)) = false :=
      longer_of_ends hturbo
    have hlongFused : (startsWith ts ["::", "<<"] && decide (2 < ts.length)) = false :=
      longer_of_ends hturboFused
    simp [afterIdentAt, isExactly, startsWith_cons_of_not hone, htwo, hparen, hlong, hlongFused,
      hempty]
    rfl

theorem carries_after (h : Advances (.after before ts) p) :
    Carries (.after before ts) p (Call.after before ts).move := by
  rw [move_after]
  cases h with
  | segment hc ht =>
    refine .go ?_ rfl rfl
    simp [afterCloseAngleAt, hc, ht, args_tail]
    rfl
  | segmentNoIdent hc ht =>
    refine .fault ?_
    simp [afterCloseAngleAt, hc, ht]
  | pathEnd hend =>
    refine .done ?_
    have hshort (q : Pattern) : startsWith ts ["::", q] = false := startsWith_concat_of_ends hend q
    have hlong : (startsWith ts ["::"] && decide (1 < ts.length)) = false := longer_of_ends hend
    simp [afterCloseAngleAt, hshort, hlong]
    rfl

/-- Behind a parameter a comma, an angle and what comes next are looked at together. -/
theorem carries_more (h : Advances (.more before read ts) p) :
    Carries (.more before read ts) p (Call.more before read ts).move := by
  rw [move_more]
  cases h with
  | @close _ _ ms ts e hms he =>
    refine .go ?_ rfl rfl
    cases hms with
    | none =>
      simp [inAngleBracketsAt, he]
      rfl
    | one hm =>
      simp [inAngleBracketsAt, Token.spells_eq hm, he]
      rfl
  | @closeFused _ _ ms ts e e₁ e₂ hms he hcut =>
    refine .done ?_
    cases hms with
    | none =>
      simp [inAngleBracketsAt, halvesAt, Token.spells_eq he, hcut]
      rfl
    | one hm =>
      simp [inAngleBracketsAt, halvesAt, Token.spells_eq hm, Token.spells_eq he, hcut]
      rfl
  | @comma _ _ ts m hm hts hone htwo =>
    refine .part (resuming .inAngleBrackets [("prefix", before ++ read ++ [m])]) ?_ ⟨?_, ?_, ?_⟩ ?_
    · simp [inAngleBracketsAt, Token.spells_eq hm, hone, htwo, List.length_pos_iff.mpr hts]
      rfl
    all_goals intros; rfl
  | leftOpen ht =>
    refine .fault ?_
    simp [inAngleBracketsAt, Value.atLast, atLast_of_getLast? ht]
  | @noComma _ _ ts t hone htwo hm =>
    refine .fault ?_
    by_cases hcomma : t.spells "," = true
    · simp [inAngleBracketsAt, hone, htwo, hm hcomma]
    · simp [inAngleBracketsAt, hone, htwo, hcomma]

theorem carries_param (h : Advances (.param ts) p) :
    Carries (.param ts) p (Call.param ts).move := by
  rw [move_param]
  cases h with
  | @single ts t ht =>
    refine .done ?_
    rcases ht with ht | ht | ht
    · simp [genericParamAt, ht]
      rfl
    · obtain ⟨hident, hlifetime, -⟩ := Token.kind_of_isLiteral (s := "-") ht
      simp [genericParamAt, ht, hident, hlifetime]
      rfl
    · obtain ⟨hident, hlifetime, -⟩ := Token.kind_of_delimiter? (s := "-") ht
      simp [genericParamAt, ht, hident, hlifetime]
      rfl
  | @negative ts m l hm hl =>
    refine .done ?_
    have hbinding : l.spells "=" = false := (Token.kind_of_isLiteral hl).2.2.2
    simp [genericParamAt, hm, hl, hbinding, Token.isLifetime_of_spells hm,
      Token.isLiteral_of_spells hm, Token.delimiter?_of_spells hm]
    rfl
  | @binding ts t e ht he hts =>
    refine .part (resuming .genericParam [("assoc", [t, e])]) ?_ ⟨?_, ?_, ?_⟩ ?_
    · simp [genericParamAt, ht, he, Token.kind_of_isIdent ht, List.length_pos_iff.mpr hts]
      rfl
    all_goals intros; rfl
  | noParam => exact .fault rfl
  | @typeParam ts t hlifetime hliteral hbrace hbinding hnegative =>
    refine .part (resuming .genericParam []) ?_ ⟨?_, ?_, ?_⟩ ?_
    · have hlong : (startsWith (t :: ts) [ident, "="] && decide (2 < (t :: ts).length)) = false :=
        longer_of_ends fun h ↦ congrArg (· + 1) (hbinding h)
      rw [genericParamAt, hlong, hnegative]
      simp [hlifetime, hliteral, hbrace]
      rfl
    all_goals intros; rfl

theorem carries_arrow (h : Advances (.arrow before ts) p) :
    Carries (.arrow before ts) p (Call.arrow before ts).move := by
  rw [move_arrow]
  cases h with
  | @arrow _ ts a ha hts =>
    refine .part (resuming .afterFnArgs [("path", before ++ [a])]) ?_ ⟨?_, ?_, ?_⟩ ?_
    · simp [afterFnArgsAt, ha, hts]
      rfl
    all_goals intros; rfl
  | arrowLast ha =>
    refine .fault ?_
    simp [afterFnArgsAt, ha]
  | noArrow hnone =>
    refine .done ?_
    simp [afterFnArgsAt, hnone]
    rfl

/-! ### Lists that are only looked at -/

/-- A list that is only looked at goes on with its elements, whatever they are. -/
theorem carries_list {s : Sequence} (h : Advances (.list s ts) p) :
    Carries (.list s ts) p (Call.list s ts).move := by
  have hcons : ∀ (list element : Nonterminal), ts ≠ [] →
      validateList list element [.ofTokens "tokens" ts] =
        .ok (calling element [("input", ts)] (resuming list [])) := by
    intro list element hts
    simp [validateList, Argument.ofTokens, tokensOrNone?_tokens, hts]
  cases h with
  | listEnd => cases s <;> exact .done rfl
  | listType hts =>
    refine .part (resuming .fnArgs []) (hcons .fnArgs .type hts) ⟨?_, ?_, ?_⟩ ?_
    all_goals intros; rfl
  | listSummed hts =>
    refine .part (resuming .typeList []) (hcons .typeList .typeWithPlus hts) ⟨?_, ?_, ?_⟩ ?_
    all_goals intros; rfl

theorem carries_separator {s : Sequence} (h : Advances (.separator s read ts) p) :
    Carries (.separator s read ts) p (Call.separator s read ts).move := by
  have hmove : ∃ list element : Nonterminal, s.owner = list ∧
      (Call.separator s read ts).move =
        validateList list element [.ofTokens "type" read, .ofTokens "rest" ts] := by
    cases s
    · exact ⟨_, .type, rfl, rfl⟩
    · exact ⟨_, .typeWithPlus, rfl, rfl⟩
  obtain ⟨list, element, rfl, hmove⟩ := hmove
  rw [hmove]
  cases h with
  | separatorEnd =>
    refine .done ?_
    cases s <;> simp [validateList, Argument.ofTokens, tokensOrNone?_tokens] <;> rfl
  | separator hm =>
    refine .go ?_ rfl rfl
    simp [validateList, Argument.ofTokens, tokensOrNone?_tokens, hm]
    rfl
  | noSeparator ht =>
    refine .fault ?_
    simp [validateList, Argument.ofTokens, tokensOrNone?_tokens, ht]

/-! ### Types -/

/-- The marks of a reference are the ampersand, a lifetime and `mut`, the last two if they are
there. -/
theorem referenceWidth_eq {a : Token} {ls ms : List Token} (hls : Maybe Token.isLifetime ls)
    (hms : Maybe (Token.spells "mut") ms)
    (hnoLifetime : ls = [] → startsWith (ms ++ ts) [lifetime] = false)
    (hnoMut : ms = [] → startsWith ts ["mut"] = false) :
    referenceWidth (a :: (ls ++ ms) ++ ts) = (a :: (ls ++ ms)).length := by
  cases hls with
  | none =>
    cases hms with
    | none =>
      have hlifetime : startsWith ts [lifetime] = false := hnoLifetime rfl
      simp [referenceWidth, hlifetime, hnoMut]
    | one hm => simp [referenceWidth, hm, Token.isLifetime_of_spells hm]
  | one hl =>
    cases hms with
    | none => simp [referenceWidth, hl, hnoMut]
    | one hm => simp [referenceWidth, hl, hm]

/-- A type that begins with an ampersand is a reference, and is nothing without a type behind its
marks. -/
theorem typeAt_reference {a : Token} (ha : a.spells "&" = true ∨ a.spells "&&" = true) :
    typeAt (a :: ts) =
      if (a :: ts).length = referenceWidth (a :: ts) then .error (.atLast (a :: ts))
      else .ok (prefixedType ((a :: ts).take (referenceWidth (a :: ts)))
        ((a :: ts).drop (referenceWidth (a :: ts)))) := by
  have hdelimiter : a.delimiter? = none := by
    rcases ha with ha | ha <;> exact Token.delimiter?_of_spells ha
  simp [typeAt, hdelimiter, ha]

/-- The cases of a type are told apart by its first token. -/
theorem carries_type (h : Advances (.type ts) p) : Carries (.type ts) p (Call.type ts).move := by
  rw [move_type]
  cases h with
  | noType => exact .fault rfl
  | @tuple ts inner span =>
    refine .part (resuming .type [("type", [.group .paren span inner]), ("rest", ts)])
      ?_ ⟨?_, ?_, ?_⟩ ?_
    · simp [typeAt, streamAt, Token.delimiter?, Token.stream?]
      rfl
    all_goals intros; rfl
  | @bracketed ts inner span hinner =>
    obtain ⟨t, inner, rfl⟩ := List.exists_cons_of_ne_nil hinner
    refine .part (resuming .bracketedType [("group", [.group .bracket span (t :: inner)]),
      ("tokens", ts)]) ?_ ⟨?_, ?_, ?_⟩ ?_
    · simp [typeAt, Token.delimiter?, Token.stream?]
      rfl
    all_goals intros; rfl
  | bracketedEmpty =>
    refine .fault ?_
    simp [typeAt, Token.delimiter?, Token.stream?]
  | @reference a ls ms ts ha hls hms hnoLifetime hnoMut hts =>
    refine .part (resuming .type [("prefix", a :: (ls ++ ms))]) ?_ ⟨?_, ?_, ?_⟩ ?_
    · have hlength : (a :: (ls ++ ms) ++ ts).length ≠ (a :: (ls ++ ms)).length := by
        rw [List.length_append, ne_eq, Nat.add_eq_left, List.length_eq_zero_iff]
        exact hts
      rw [typeAt_reference ha, ← List.cons_append, referenceWidth_eq hls hms hnoLifetime hnoMut,
        if_neg hlength, List.take_left, List.drop_left]
      rfl
    all_goals intros; rfl
  | @referenceLast a t ls ms ha hls hms ht =>
    refine .fault ?_
    have hnoLifetime : ls = [] → startsWith (ms ++ []) [lifetime] = false := by
      intro _
      cases hms with
      | none => rfl
      | one hm => simp [Token.isLifetime_of_spells hm]
    have hwidth := referenceWidth_eq (a := a) hls hms hnoLifetime fun _ ↦ rfl
    rw [List.append_nil] at hwidth
    rw [typeAt_reference ha, hwidth, if_pos rfl, atLast_of_getLast? ht]
  | @pointer a m ts ha hm hts =>
    refine .part (resuming .type [("prefix", [a, m])]) ?_ ⟨?_, ?_, ?_⟩ ?_
    · simp [typeAt, Token.spells_eq ha, Token.delimiter?_of_spells ha, hm, hts]
      rfl
    all_goals intros; rfl
  | pointerLast ha hm =>
    refine .fault ?_
    simp [typeAt, Token.spells_eq ha, Token.delimiter?_of_spells ha, hm, Failure.atLast]
  | pointerNoMark ha hconst hmut =>
    refine .fault ?_
    simp [typeAt, Token.spells_eq ha, Token.delimiter?_of_spells ha, hconst, hmut]
  | pointerOnly ha =>
    refine .fault ?_
    simp [typeAt, Token.spells_eq ha, Token.delimiter?_of_spells ha]
  | lone ht =>
    refine .done ?_
    rcases ht with ht | ht <;>
      · simp [typeAt, Token.spells_eq ht, Token.delimiter?_of_spells ht]
        rfl
  | fnPointer ht =>
    refine .part (resuming .type []) ?_ ⟨?_, ?_, ?_⟩ ?_
    · rcases ht with ht | ht | ht <;>
        · simp [typeAt, Token.spells_eq ht, Token.delimiter?_of_spells ht]
          rfl
    all_goals intros; rfl
  | @bounded t ts ht hts =>
    refine .part (resuming .type [("prefix", [t])]) ?_ ⟨?_, ?_, ?_⟩ ?_
    · rcases ht with ht | ht <;>
        · simp [typeAt, Token.spells_eq ht, Token.delimiter?_of_spells ht, hts]
          rfl
    all_goals intros; rfl
  | boundedLast ht =>
    refine .fault ?_
    rcases ht with ht | ht <;>
      simp [typeAt, Token.spells_eq ht, Token.delimiter?_of_spells ht]
  | qualified ho hts =>
    refine .part (resuming .type []) ?_ ⟨?_, ?_, ?_⟩ ?_
    · simp [typeAt, Token.spells_eq ho, Token.delimiter?_of_spells ho, hts]
      rfl
    all_goals intros; rfl
  | qualifiedLast ho =>
    refine .fault ?_
    simp [typeAt, Token.spells_eq ho, Token.delimiter?_of_spells ho]
  | qualifiedFused ho hcut =>
    refine .part (resuming .type []) ?_ ⟨?_, ?_, ?_⟩ ?_
    · simp [typeAt, halvesAt, Token.spells_eq ho, Token.delimiter?_of_spells ho, hcut]
      rfl
    all_goals intros; rfl
  | @typePath t ts ht hstart =>
    have hdelimiter : t.delimiter? = none := by
      rcases ht with ht | ht
      · exact Token.delimiter?_of_spells ht
      · exact (Token.kind_of_isIdent ht).2.2
    simp only [typeStarts, List.forall_mem_cons, List.not_mem_nil, IsEmpty.forall_iff,
      implies_true, and_true] at hstart
    refine .part (resuming .type []) ?_ ⟨?_, ?_, ?_⟩ ?_
    · simp [typeAt, hstart, hdelimiter, ht]
      rfl
    all_goals intros; rfl
  | @noTypeStart t ts ht hc hstart hparen hbracket =>
    simp only [typeStarts, List.forall_mem_cons, List.not_mem_nil, IsEmpty.forall_iff,
      implies_true, and_true] at hstart
    refine .fault ?_
    simp [typeAt, hstart, hparen, hbracket, ht, hc]

/-! ### Sums of bounds -/

theorem carries_summands (h : Advances (.summands before ts) p) :
    Carries (.summands before ts) p (Call.summands before ts).move := by
  rw [move_summands]
  cases h with
  | @plus _ ts a ha hts =>
    refine .part (resuming .typeWithPlus [("prefix", before ++ [a])]) ?_ ⟨?_, ?_, ?_⟩ ?_
    · simp [afterSummandAt, ha, hts]
      rfl
    all_goals intros; rfl
  | plusLast ha =>
    refine .fault ?_
    simp [afterSummandAt, ha]
  | noPlus hnone =>
    refine .done ?_
    simp [afterSummandAt, hnone]
    rfl

theorem carries_bounds (h : Advances (.bounds before read ts) p) :
    Carries (.bounds before read ts) p (Call.bounds before read ts).move := by
  rw [move_bounds]
  cases h with
  | @boundPlus _ _ ts a ha hts =>
    refine .part (resuming .type [("prefix", before ++ read ++ [a])]) ?_ ⟨?_, ?_, ?_⟩ ?_
    · simp [afterBoundAt, ha, hts]
      rfl
    all_goals intros; rfl
  | boundPlusLast ha =>
    refine .fault ?_
    simp [afterBoundAt, ha]
  | boundNoPlus hnone =>
    refine .done ?_
    simp [afterBoundAt, hnone]
    rfl

theorem carries_bound (h : Advances (.bound ts) p) :
    Carries (.bound ts) p (Call.bound ts).move := by
  rw [move_bound]
  cases h with
  | simpleBound ht =>
    refine .done ?_
    simp [boundAt, ht]
    rfl
  | @maybeBound q ts hq hts =>
    refine .part (resuming .bound [("prefix", [q])]) ?_ ⟨?_, ?_, ?_⟩ ?_
    · simp [boundAt, hq, hts, Token.isLifetime_of_spells hq, Token.delimiter?_of_spells hq]
      rfl
    all_goals intros; rfl
  | maybeBoundLast hq =>
    refine .fault ?_
    simp [boundAt, hq, Token.isLifetime_of_spells hq, Token.delimiter?_of_spells hq]
  | @pathBound t ts ht hq =>
    have hkind : t.isLifetime = false ∧ t.delimiter? = none := by
      rcases ht with ht | ht
      · exact ⟨Token.isLifetime_of_spells ht, Token.delimiter?_of_spells ht⟩
      · exact ⟨(Token.kind_of_isIdent ht).1, (Token.kind_of_isIdent ht).2.2⟩
    refine .part (resuming .bound [("prefix", [])]) ?_ ⟨?_, ?_, ?_⟩ ?_
    · simp [boundAt, hkind, hq, ht]
      rfl
    all_goals intros; rfl
  | noBound => exact .fault rfl
  | noBoundStart hlifetime hparen hq hc ht =>
    refine .fault ?_
    simp [boundAt, hlifetime, hparen, hq, hc, ht]

/-! ### Arrays, function pointers and qualified paths -/

theorem carries_arrayEnd {group behind : List Token}
    (h : Advances (.arrayEnd group behind read ts) p) :
    Carries (.arrayEnd group behind read ts) p (Call.arrayEnd group behind read ts).move := by
  have hmove : (Call.arrayEnd group behind read ts).move =
      afterElementAt (.tokens group) (.tokens behind) ts := by
    change (Value.tokens ts).tokensOrNone? >>= afterElementAt _ _ = _
    rw [tokensOrNone?_tokens]
    rfl
  rw [hmove]
  cases h with
  | arrayEnd hend =>
    refine .done ?_
    rcases hend with rfl | ⟨hsemicolon, hlong⟩
    · simp [afterElementAt]
      rfl
    · simp [afterElementAt, hsemicolon, hlong]
      rfl
  | @noArrayEnd _ _ _ ts t hend =>
    refine .fault ?_
    by_cases hsemicolon : t.spells ";" = true
    · simp [afterElementAt, hend hsemicolon]
    · simp [afterElementAt, hsemicolon]

theorem carries_pointer (h : Advances (.pointer before ts) p) :
    Carries (.pointer before ts) p (Call.pointer before ts).move := by
  rw [move_pointer]
  cases h with
  | @fn _ ts inner f span hf =>
    refine .part (resuming .afterFnArgs
      [("path", before ++ [f, .group .paren span inner]), ("tokens", ts)]) ?_ ⟨?_, ?_, ?_⟩ ?_
    · simp [fnPointerAt, streamAt, hf, Token.delimiter?, Token.stream?]
      rfl
    all_goals intros; rfl
  | unsafeFn ht =>
    refine .go ?_ rfl rfl
    simp [fnPointerAt, Token.spells_eq ht]
    rfl
  | @externFn _ ls ts t ht hls hnone =>
    refine .go ?_ rfl rfl
    cases hls with
    | none =>
      have hliteral : startsWith ts [literal] = false := hnone rfl
      simp [fnPointerAt, Token.spells_eq ht, hliteral]
      rfl
    | one hl =>
      simp [fnPointerAt, Token.spells_eq ht, hl]
      rfl
  | fnNoArgs hf ht =>
    refine .fault ?_
    simp [fnPointerAt, Token.spells_eq hf, ht]
  | pointerEmpty ht =>
    refine .fault ?_
    simp [fnPointerAt, Value.atLast, atLast_of_getLast? ht]
  | @noFn _ ts t hmark habi hfn =>
    refine .fault ?_
    by_cases hf : t.spells "fn" = true
    · simp [fnPointerAt, Token.spells_eq hf, hfn hf]
    · simp [fnPointerAt, hmark, habi, hf]

/-- The end of a self type is looked at by one rule, with a trait before it or without. -/
theorem carries_endsSelf {c : Call} (houtputs : c.outputs = ["path", "rest"])
    (h : EndsSelf before ts p) : Carries c p (closeQualifiedSelf before ts) := by
  cases h with
  | item he hc ht =>
    refine .go ?_ rfl houtputs.symm
    simp [closeQualifiedSelf, he, hc, ht, args_tail]
    rfl
  | noIdent he hc ht =>
    refine .fault ?_
    simp [closeQualifiedSelf, he, hc, ht]
  | @noItem e t ts he hitem ht =>
    refine .fault ?_
    have hlonger (q : Pattern) : startsWith (e :: ts) [">", "::", q] = false :=
      startsWith_concat_of_ends (fun h ↦ congrArg (· + 1) (hitem h)) q
    have hlong : (startsWith (e :: ts) [">", "::"] && decide (2 < (e :: ts).length)) = false :=
      longer_of_ends fun h ↦ congrArg (· + 1) (hitem h)
    have hangle : (startsWith (e :: ts) [">"] || startsWith (e :: ts) [">>"]) = true := by
      simpa using he
    rw [closeQualifiedSelf, hlonger, hlong, hangle, List.take_succ_cons]
    simp [atLast_of_getLast? ht]
  | unclosed ht =>
    refine .fault ?_
    simp [closeQualifiedSelf, atLast_of_getLast? ht]
  | noAngle hone htwo =>
    refine .fault ?_
    simp [closeQualifiedSelf, hone, htwo]

theorem carries_afterSelf (h : Advances (.afterSelf before read ts) p) :
    Carries (.afterSelf before read ts) p (Call.afterSelf before read ts).move := by
  rw [move_afterSelf]
  cases h with
  | @asPath _ _ ts a ha hts =>
    refine .part (resuming .qualifiedPath [("prefix", before ++ read ++ [a])]) ?_ ⟨?_, ?_, ?_⟩ ?_
    · simp [afterSelfAt, ha, hts, List.length_pos_iff]
      rfl
    all_goals intros; rfl
  | noAs hnone hend =>
    have hlong : (startsWith ts ["as"] && decide (1 < ts.length)) = false := longer_of_ends hnone
    rw [afterSelfAt, hlong]
    exact carries_endsSelf rfl hend

/-- The step of a call is the move of the rule of its nonterminal. -/
theorem carries_of_advances {c : Call} (h : Advances c p) (hwaiting : c.waiting = []) :
    Carries c p c.move := by
  cases c with
  | path => exact carries_path h
  | tail => exact carries_tail h
  | after => exact carries_after h
  | more => exact carries_more h
  | param => exact carries_param h
  | arrow => exact carries_arrow h
  | list => exact carries_list h
  | separator => exact carries_separator h
  | type => exact carries_type h
  | summed ts =>
    cases h
    refine .part (resuming .typeWithPlus []) rfl ⟨?_, ?_, ?_⟩ ?_
    all_goals intros; rfl
  | summands => exact carries_summands h
  | summand =>
    cases h
    exact .go rfl rfl rfl
  | bounds => exact carries_bounds h
  | bound => exact carries_bound h
  | arrayEnd => exact carries_arrayEnd h
  | pointer => exact carries_pointer h
  | self => cases hwaiting
  | afterSelf => exact carries_afterSelf h
  | selfEnd =>
    cases h with
    | selfEnd hend =>
      rw [move_selfEnd]
      exact carries_endsSelf rfl hend
  | back r =>
    cases h
    cases r <;> exact .done rfl

end

/-! ### Evaluation -/

/-- The nonterminals go by their rules. -/
def Serves (callee : Callee) (rule : Rule) : Prop :=
  ∃ n : Nonterminal, callee = n.callee ∧ rule = n.rule

/-- Each call is served by the rule of a nonterminal. -/
theorem serves_owner (c : Call) : Serves c.owner.callee c.owner.rule := ⟨c.owner, rfl, rfl⟩

/-- No two arguments of a call have one name. -/
theorem nodup_args (c : Call) : (shape c.args).Nodup := by
  have hshape : shape c.args = c.parts.map (·.1) := by
    rw [shape, Call.args, List.map_map]
    rfl
  rw [hshape]
  cases c with
  | tail before => cases before <;> simp [Call.parts]
  | back r => cases r <;> simp [Call.parts, Return.state, Return.part]
  | _ => simp [Call.parts]

/-- Only within a self type does a call have something waiting from the beginning. -/
theorem waiting_eq_nil_or (c : Call) : c.waiting = [] ∨ ∃ angle ts, c = .self angle ts := by
  cases c with
  | self angle ts => exact .inr ⟨angle, ts, rfl⟩
  | _ => exact .inl rfl

theorem outputs_of_waiting {c : Call} (h : c.waiting = []) : c.outputs = c.owner.outputs := by
  cases c with
  | self => cases h
  | _ => rfl

theorem exists_outputs (c : Call) : ∃ n : Nonterminal, c.outputs = n.outputs := by
  rcases waiting_eq_nil_or c with hwaiting | ⟨angle, ts, rfl⟩
  · exact ⟨c.owner, outputs_of_waiting hwaiting⟩
  · exact ⟨.qualifiedPath, rfl⟩

/-- What a call gives back has the names of its outputs. -/
theorem shape_given_outputs (c : Call) (first rest : List Token) :
    shape (given c.outputs first rest) = c.outputs := by
  obtain ⟨n, hn⟩ := exists_outputs c
  rw [hn]
  cases n <;> rfl

/-- The nonterminal of a call evaluates to what the call reads, where what waits for it is resumed
behind it. -/
def Call.Evaluated (c : Call) (ds : List Nat) (r : Parsed) : Prop :=
  ∃ ds₁ ds₂ r₁, ds = ds₁.map (· + c.waiting.length) ++ ds₂ ∧
    Evaluates Serves (.run c.owner.callee c.args) ds₁ r₁ ∧
    Evaluates Serves (.resume c.waiting r₁) ds₂ (c.returned r)

/-- With nothing waiting, a call is evaluated by its rule alone. -/
theorem evaluated_iff {c : Call} (h : c.waiting = []) {ds : List Nat} {r : Parsed} :
    c.Evaluated ds r ↔ Evaluates Serves (.run c.owner.callee c.args) ds (c.returned r) := by
  rw [Call.Evaluated, h]
  constructor
  · rintro ⟨ds₁, ds₂, r₁, rfl, hrun, hrest⟩
    obtain ⟨rfl, heq⟩ := evaluates_resume_nil_iff.mp hrest
    rw [heq]
    simpa using hrun
  · intro hrun
    exact ⟨ds, [], c.returned r, by simp, hrun, evaluates_resume_nil_iff.mpr ⟨rfl, rfl⟩⟩

/-- A nonterminal whose rule calls another one evaluates to what the resumption behind that call
comes to. -/
theorem evaluates_calledFor {c c' : Call} {near : Resumption}
    (hmove : c.move = .ok (c'.calledFor near)) {ds ds' : List Nat} {r₁ : Parsed} {r : Returned}
    (hfree : ∀ n ∈ shape near.state, n ∉ c'.outputs) (h : c'.Evaluated ds r₁)
    (hnear : Evaluates Serves (.resume [near] (c'.returned r₁)) ds' r) :
    Evaluates Serves (.run c.owner.callee c.args) (0 :: (ds.map (· + 1) ++ ds')) r := by
  obtain ⟨ds₁, ds₂, r₂, rfl, hrun, hrest⟩ := h
  have hall := hrest.concat hnear
  rcases waiting_eq_nil_or c' with hwaiting | ⟨angle, ts, rfl⟩
  · have hnames : ∀ names, c'.owner.callee.outputs = some names →
        ∀ n ∈ shape near.state, n ∉ names := by
      rintro names ⟨⟩
      rw [← outputs_of_waiting hwaiting]
      exact hfree
    rw [Call.calledFor, hwaiting] at hmove
    rw [hwaiting] at hall ⊢
    have hcalls := Evaluates.calls (serves_owner c) hmove (nodup_args c') hnames hrun hall
    simpa [Function.comp_def] using hcalls
  · have hnames : ∀ names, Nonterminal.type.callee.outputs = some names →
        ∀ n ∈ shape (resuming .qualifiedPath [("prefix", angle)]).state, n ∉ names := by
      rintro names ⟨⟩ n hn
      have hkey : n = "prefix" := List.mem_singleton.mp hn
      rw [hkey]
      decide
    have hcalls := Evaluates.calls (serves_owner c) hmove (nodup_args _) hnames hrun hall
    simpa [Function.comp_def, Call.waiting, Nat.add_assoc] using hcalls

/-- What resumes a call keeps no name under which outputs come to it. -/
theorem Resumes.free {near : Resumption} {c : Call} {next : List Token → List Token → Call}
    (h : Resumes near c next) : ∀ n ∈ shape near.state, n ∉ c.outputs := by
  intro n hn hmem
  have hnames := nodup_args (next [] [])
  rw [← h.args, shape, List.map_append, List.nodup_append] at hnames
  rw [← shape_given_outputs c [] []] at hmem
  exact hnames.2.2 n hn n hmem rfl

section

variable {c c' : Call} {next : List Token → List Token → Call} {ds ds' : List Nat}

/-- A nonterminal whose rule calls another one evaluates to what comes behind that. -/
theorem evaluated_part {first rest : List Token} {r : Parsed} (hwaiting : c.waiting = [])
    (h : Carries c (.part c' next) c.move) (hpart : c'.Evaluated ds (.ok (first, rest)))
    (hnext : (next first rest).Evaluated ds' r) : c.Evaluated (0 :: (ds.map (· + 1) ++ ds')) r := by
  rw [evaluated_iff hwaiting]
  cases h with
  | part near hmove hnear houtputs =>
    have hrun := (evaluated_iff (hnear.waiting first rest)).mp hnext
    have hreturned : (next first rest).returned r = c.returned r := by
      cases r with
      | error f => rfl
      | ok parsed => simp only [Call.returned, houtputs]
    rw [hreturned, ← hnear.callee, ← hnear.args] at hrun
    have hnames := nodup_args (next first rest)
    rw [← hnear.args] at hnames
    exact evaluates_calledFor hmove hnear.free hpart (evaluates_resume_singleton hnames hrun)

/-- A nonterminal whose rule calls one that faults comes to that fault. -/
theorem evaluated_lost {f : Fault} (hwaiting : c.waiting = [])
    (h : Carries c (.part c' next) c.move) (hpart : c'.Evaluated ds (.error f)) :
    c.Evaluated (0 :: ds.map (· + 1)) (.error f) := by
  rw [evaluated_iff hwaiting]
  cases h with
  | part near hmove hnear houtputs =>
    have hall := evaluates_calledFor hmove hnear.free hpart .lost
    rwa [List.append_nil] at hall

end

/-- What a call reads is what its nonterminal evaluates to. -/
theorem Reads.evaluated {c : Call} {ds : List Nat} {r : Parsed} (h : Reads c ds r) :
    c.Evaluated ds r := by
  induction h with
  | @fault c f h =>
    rcases waiting_eq_nil_or c with hwaiting | ⟨angle, ts, rfl⟩
    · rw [evaluated_iff hwaiting]
      cases carries_of_advances h hwaiting with
      | fault hmove => exact .fails (serves_owner c) hmove
    · cases h
  | @done c first rest h =>
    rcases waiting_eq_nil_or c with hwaiting | ⟨angle, ts, rfl⟩
    · rw [evaluated_iff hwaiting]
      cases carries_of_advances h hwaiting with
      | done hmove => exact .gives (serves_owner c) hmove
    · cases h
  | @go c c' ds r h hgo ih =>
    rcases waiting_eq_nil_or c with hwaiting | ⟨angle, ts, rfl⟩
    · rw [evaluated_iff hwaiting]
      cases carries_of_advances h hwaiting with
      | go hmove hwaiting' houtputs =>
        have hrest := (evaluated_iff hwaiting').mp ih
        have hreturned : c'.returned r = c.returned r := by
          cases r with
          | error f => rfl
          | ok parsed => simp only [Call.returned, houtputs]
        rw [hreturned] at hrest
        exact .tails (serves_owner c) hmove (nodup_args c') hrest
    · cases h
  | @part c c' next ds ds' first rest r h hpart hnext ihpart ihnext =>
    rcases waiting_eq_nil_or c with hwaiting | ⟨angle, ts, rfl⟩
    · rw [hwaiting]
      exact evaluated_part hwaiting (carries_of_advances h hwaiting) ihpart ihnext
    · cases h
      have hrun := (evaluated_iff rfl).mp ihpart
      have hrest := (evaluated_iff rfl).mp ihnext
      exact ⟨ds, ds', _, rfl, hrun,
        evaluates_resume_singleton (nodup_args (.afterSelf angle first rest)) hrest⟩
  | @lost c c' next ds f h hpart ihpart =>
    rcases waiting_eq_nil_or c with hwaiting | ⟨angle, ts, rfl⟩
    · rw [hwaiting]
      exact evaluated_lost hwaiting (carries_of_advances h hwaiting) ihpart
    · cases h
      have hrun := (evaluated_iff rfl).mp ihpart
      exact ⟨ds, [], _, by simp [Call.waiting], hrun, .lost⟩

/-! ### Paths that begin with an identifier -/

/-- The rule takes an identifier, however it is spelled, for the beginning of a path if no
identifier stands behind it. -/
theorem carries_ident {a : Token} {ts : List Token} (ha : a.isIdent = true)
    (hts : startsWith ts [ident] = false) :
    Carries (.path (a :: ts)) (.part (.tail [] ts) (.back .path [a]))
      (Call.path (a :: ts)).move := by
  rw [move_path]
  refine .part (resuming .path [("prefix", [a])]) ?_ ⟨?_, ?_, ?_⟩ ?_
  · simp [pathAt, ha, hts]
    rfl
  all_goals intros; rfl

/-- What a call comes to, with other tokens in front of what is given back. -/
def Parsed.behind (front : List Token) : Parsed → Parsed
  | .ok (first, rest) => .ok (front ++ first, rest)
  | .error f => .error f

/-- The depths of the steps of a path that begins with an identifier. -/
def identDepths (ds : List Nat) : Parsed → List Nat
  | .ok _ => 0 :: (ds.map (· + 1) ++ [0])
  | .error _ => 0 :: ds.map (· + 1)

/-- An identifier begins a path, however it is spelled, if no identifier stands behind it. -/
theorem evaluated_ident {a : Token} {ts : List Token} {ds : List Nat} {r : Parsed}
    (ha : a.isIdent = true) (hts : startsWith ts [ident] = false) (h : Reads (.tail [] ts) ds r) :
    (Call.path (a :: ts)).Evaluated (identDepths ds r) (r.behind [a]) := by
  cases r with
  | error f => exact evaluated_lost rfl (carries_ident ha hts) h.evaluated
  | ok parsed =>
    have hback : Reads (.back .path [a] parsed.1 parsed.2) [0] (.ok ([a] ++ parsed.1, parsed.2)) :=
      .done .back
    exact evaluated_part rfl (carries_ident ha hts) h.evaluated hback.evaluated

end Expander.Grammar
