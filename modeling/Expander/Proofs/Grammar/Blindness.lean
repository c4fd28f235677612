import Expander.Callees.Standard
import Expander.Proofs.Grammar.Rules
import Expander.Proofs.Protocol.Blindness

/-!
# The standard callees are blind

A rule of the grammar asks for kinds and spellings of tokens and for lengths, cuts sequences and
puts them together, and none of this looks at a place; and of a value that holds frames it sees no
more than its type. So the move that it makes of recast arguments is the move that it makes of the
arguments, recast (`Grammar.blind_rule`); and where it fails, it fails with the same failure,
recast. The predicates and the destinations are blind too, so all standard callees are
(`blind_standard`).
-/

set_option autoImplicit false

namespace Expander

open Grammar Recasting

namespace Grammar

variable {R : Recasting}

/-! ### Operations on sequences -/

/-- The parts of a move, recast. -/
def recastParts (R : Recasting) (parts : List (String × List Token)) : List (String × List Token) :=
  parts.map fun part ↦ (part.1, part.2.map R.token)

/-- A recast token is cut into its recast halves. -/
@[simp] theorem halvesAt_map (ts : List Token) (index : Nat) :
    halvesAt (ts.map R.token) index =
      R.result (Prod.map R.token R.token) (halvesAt ts index) := by
  rw [halvesAt, halvesAt, List.getElem?_map]
  cases ts[index]? with
  | none => rfl
  | some t =>
    simp only [Option.map_some, R.halves?_token, text_token]
    cases t.halves? <;> rfl

/-- A recast group has its recast tokens inside. -/
@[simp] theorem streamAt_map (ts : List Token) (index : Nat) :
    streamAt (ts.map R.token) index = R.result (List.map R.token) (streamAt ts index) := by
  rw [streamAt, streamAt, List.getElem?_map]
  cases ts[index]? with
  | none => rfl
  | some t =>
    simp only [Option.map_some, R.stream?_token]
    cases t.stream? <;> rfl

@[simp] theorem recast_resuming (n : Nonterminal) (state : List (String × List Token)) :
    (resuming n state).recast R = resuming n (recastParts R state) := by
  simp [resuming, Resumption.recast, recastParts]

/-- A call of a rule is recast by its arguments and by what waits for it. -/
@[simp] theorem recast_calling (n : Nonterminal) (args : List (String × List Token))
    (near : Resumption) :
    (calling n args near).recast R = calling n (recastParts R args) (near.recast R) := by
  simp [calling, Move.recast, recastParts]

@[simp] theorem recast_continuing (n : Nonterminal) (args : List (String × List Token)) :
    (continuing n args).recast R = continuing n (recastParts R args) := by
  simp [continuing, Move.recast, recastParts]

/-- What a rule returns is recast token by token. -/
@[simp] theorem recast_returning (outputs : List (String × List Token)) :
    (returning outputs).recast R = returning (recastParts R outputs) := by
  simp [returning, Move.recast, recastParts]

/-- A step that goes on with the tokens of a value is recast if it is for whatever tokens. -/
theorem result_tokens? {v : Value} {next next' : List Token → Except Failure Move}
    (h : ∀ ts, R.result (Move.recast R) (next ts) = next' (ts.map R.token)) :
    R.result (Move.recast R) (v.tokens? >>= next) = (v.recast R).tokens? >>= next' := by
  rw [Value.tokens?_recast]
  exact result_bind h

theorem result_tokensOrNone? {v : Value} {next next' : List Token → Except Failure Move}
    (h : ∀ ts, R.result (Move.recast R) (next ts) = next' (ts.map R.token)) :
    R.result (Move.recast R) (v.tokensOrNone? >>= next) =
      (v.recast R).tokensOrNone? >>= next' := by
  rw [Value.tokensOrNone?_recast]
  exact result_bind h

/-! ### Paths -/

/-- The cases of a rule are told apart by patterns, which hold of recast tokens as of the tokens. So
this step, and each of those below, comes to the same move, recast. -/
theorem result_pathAt (ts : List Token) :
    R.result (Move.recast R) (pathAt ts) = pathAt (ts.map R.token) := by
  unfold pathAt
  simp only [startsWith_map, List.length_map, List.isEmpty_map]
  repeat' refine result_ite ?_ ?_
  all_goals simp [recastParts]

theorem result_openGenericArgs (path : Value) (opening rest : List Token) :
    R.result (Move.recast R) (openGenericArgs path opening rest) =
      openGenericArgs (path.recast R) (opening.map R.token) (rest.map R.token) :=
  result_tokens? fun _ ↦ by simp [recastParts]

theorem result_afterIdentAt (path : Value) (ts : List Token) :
    R.result (Move.recast R) (afterIdentAt path ts) =
      afterIdentAt (path.recast R) (ts.map R.token) := by
  unfold afterIdentAt
  simp only [startsWith_map, isExactly_map, List.length_map, Value.tokens?_recast,
    halvesAt_map, streamAt_map]
  repeat' refine result_ite ?_ ?_
  all_goals simp [result_bind_iff, recastParts, result_openGenericArgs]

theorem result_afterCloseAngleAt (path : Value) (ts : List Token) :
    R.result (Move.recast R) (afterCloseAngleAt path ts) =
      afterCloseAngleAt (path.recast R) (ts.map R.token) := by
  unfold afterCloseAngleAt
  simp only [startsWith_map, List.length_map, Value.tokens?_recast]
  repeat' refine result_ite ?_ ?_
  all_goals simp [result_bind_iff, recastParts]

theorem result_inAngleBracketsAt (before param : Value) (rest : List Token) :
    R.result (Move.recast R) (inAngleBracketsAt before param rest) =
      inAngleBracketsAt (before.recast R) (param.recast R) (rest.map R.token) := by
  unfold inAngleBracketsAt
  simp only [startsWith_map, List.length_map, List.isEmpty_map, Value.tokens?_recast,
    halvesAt_map]
  repeat' refine result_ite ?_ ?_
  all_goals simp [result_bind_iff, recastParts]

theorem result_genericParamAt (ts : List Token) :
    R.result (Move.recast R) (genericParamAt ts) = genericParamAt (ts.map R.token) := by
  unfold genericParamAt
  simp only [startsWith_map, List.length_map, List.isEmpty_map]
  repeat' refine result_ite ?_ ?_
  all_goals simp [recastParts]

theorem result_afterFnArgsAt (path : Value) (ts : List Token) :
    R.result (Move.recast R) (afterFnArgsAt path ts) =
      afterFnArgsAt (path.recast R) (ts.map R.token) := by
  unfold afterFnArgsAt
  simp only [startsWith_map, List.length_map, Value.tokens?_recast]
  repeat' refine result_ite ?_ ?_
  all_goals simp [result_bind_iff, recastParts]

/-! ### Types -/

/-- The marks of a reference take as many recast tokens. -/
theorem referenceWidth_map (ts : List Token) :
    referenceWidth (ts.map R.token) = referenceWidth ts := by
  unfold referenceWidth
  simp only [← List.map_drop, startsWith_map]

@[simp] theorem recast_prefixedType (before ts : List Token) :
    (prefixedType before ts).recast R =
      prefixedType (before.map R.token) (ts.map R.token) := by
  simp [prefixedType, recastParts]

@[simp] theorem recast_qualifiedSelf (angle ts : List Token) :
    (qualifiedSelf angle ts).recast R =
      qualifiedSelf (angle.map R.token) (ts.map R.token) := by
  simp [qualifiedSelf, Move.recast, recastParts]

/-- What stands between the first brackets, as it is taken for an element. -/
theorem head_stream_map (ts : List Token) :
    (ts.map R.token).head?.bind Token.stream? =
      (ts.head?.bind Token.stream?).map (List.map R.token) := by
  cases ts <;> simp [R.stream?_token]

theorem result_typeAt (ts : List Token) :
    R.result (Move.recast R) (typeAt ts) = typeAt (ts.map R.token) := by
  unfold typeAt
  simp only [startsWith_map, List.length_map, List.isEmpty_map, halvesAt_map, streamAt_map,
    referenceWidth_map, head_stream_map]
  refine result_ite rfl (result_ite ?_ (result_ite ?_ ?_))
  · simp [result_bind_iff, recastParts]
  · rcases ts.head?.bind Token.stream? with _ | _ | ⟨t, inner⟩ <;> simp [recastParts]
  · repeat' refine result_ite ?_ ?_
    all_goals simp [result_bind_iff, recastParts, apply_ite Failure.atFirst,
      apply_ite (Failure.recast R)]

theorem result_afterBoundAt (before bound : Value) (rest : List Token) :
    R.result (Move.recast R) (afterBoundAt before bound rest) =
      afterBoundAt (before.recast R) (bound.recast R) (rest.map R.token) := by
  unfold afterBoundAt
  simp only [startsWith_map, List.length_map, Value.tokens?_recast]
  repeat' refine result_ite ?_ ?_
  all_goals simp [result_bind_iff, recastParts]

theorem result_afterSummandAt (type : Value) (rest : List Token) :
    R.result (Move.recast R) (afterSummandAt type rest) =
      afterSummandAt (type.recast R) (rest.map R.token) := by
  unfold afterSummandAt
  simp only [startsWith_map, List.length_map, Value.tokens?_recast]
  repeat' refine result_ite ?_ ?_
  all_goals simp [result_bind_iff, recastParts]

theorem result_boundAt (ts : List Token) :
    R.result (Move.recast R) (boundAt ts) = boundAt (ts.map R.token) := by
  unfold boundAt
  simp only [startsWith_map, List.length_map, List.isEmpty_map]
  repeat' refine result_ite ?_ ?_
  all_goals simp [recastParts]

theorem result_afterElementAt (group tokens : Value) (inner : List Token) :
    R.result (Move.recast R) (afterElementAt group tokens inner) =
      afterElementAt (group.recast R) (tokens.recast R) (inner.map R.token) := by
  unfold afterElementAt
  simp only [startsWith_map, List.length_map, List.isEmpty_map, Value.tokens?_recast]
  refine result_ite ?_ ?_
  all_goals simp [result_bind_iff, recastParts]

theorem result_fnPointerAt (before : Value) (ts : List Token) :
    R.result (Move.recast R) (fnPointerAt before ts) =
      fnPointerAt (before.recast R) (ts.map R.token) := by
  unfold fnPointerAt
  simp only [startsWith_map, List.length_map, List.isEmpty_map, Value.tokens?_recast,
    streamAt_map]
  repeat' refine result_ite ?_ ?_
  all_goals simp [result_bind_iff, recastParts]

theorem result_closeQualifiedSelf (before rest : List Token) :
    R.result (Move.recast R) (closeQualifiedSelf before rest) =
      closeQualifiedSelf (before.map R.token) (rest.map R.token) := by
  unfold closeQualifiedSelf
  simp only [startsWith_map, List.length_map, List.isEmpty_map]
  repeat' refine result_ite ?_ ?_
  all_goals simp [recastParts]

theorem result_afterSelfAt (before type rest : List Token) :
    R.result (Move.recast R) (afterSelfAt before type rest) =
      afterSelfAt (before.map R.token) (type.map R.token) (rest.map R.token) := by
  unfold afterSelfAt
  simp only [startsWith_map, List.length_map, ← List.map_append]
  refine result_ite ?_ (result_closeQualifiedSelf _ _)
  simp [recastParts]

/-! ### Rules -/

/-- A rule goes by the names of its arguments, and those stay: whatever shape they have, the same
case fits. So this rule is blind, and each of those below. -/
theorem blind_pathRule : Rule.Blind pathRule := by
  intro R args
  unfold pathRule
  split
  · exact result_tokens? result_pathAt
  · simp [result_bind_iff, recastParts]
  · split
    any_goals exact (unmatched_recast ‹_› ‹_›).elim
    simp

theorem blind_afterIdentRule : Rule.Blind afterIdentRule := by
  intro R args
  unfold afterIdentRule
  split
  · exact result_tokens? (result_afterIdentAt (.tokens []))
  · exact result_tokens? (result_afterIdentAt _)
  · split
    any_goals exact (unmatched_recast ‹_› ‹_›).elim
    simp

theorem blind_afterCloseAngleRule : Rule.Blind afterCloseAngleRule := by
  intro R args
  unfold afterCloseAngleRule
  split
  · exact result_tokens? (result_afterCloseAngleAt _)
  · split
    any_goals exact (unmatched_recast ‹_› ‹_›).elim
    simp

theorem blind_inAngleBracketsRule : Rule.Blind inAngleBracketsRule := by
  intro R args
  unfold inAngleBracketsRule
  split
  · exact result_tokens? (result_inAngleBracketsAt _ _)
  · split
    any_goals exact (unmatched_recast ‹_› ‹_›).elim
    simp

theorem blind_genericParamRule : Rule.Blind genericParamRule := by
  intro R args
  unfold genericParamRule
  split
  · exact result_tokens? result_genericParamAt
  · simp [result_bind_iff, recastParts]
  · simp [result_bind_iff, recastParts]
  · split
    any_goals exact (unmatched_recast ‹_› ‹_›).elim
    simp

theorem blind_validateList (list element : Nonterminal) :
    Rule.Blind (validateList list element) := by
  intro R args
  unfold validateList
  split
  · refine result_tokensOrNone? fun tokens ↦ ?_
    simp only [List.isEmpty_map]
    refine result_ite ?_ ?_
    all_goals simp [recastParts]
  · refine result_tokensOrNone? fun rest ↦ ?_
    simp only [List.isEmpty_map, startsWith_map]
    repeat' refine result_ite ?_ ?_
    all_goals simp [recastParts]
  · split
    any_goals exact (unmatched_recast ‹_› ‹_›).elim
    simp

theorem blind_afterFnArgsRule : Rule.Blind afterFnArgsRule := by
  intro R args
  unfold afterFnArgsRule
  split
  · exact result_tokens? (result_afterFnArgsAt _)
  · simp [result_bind_iff, recastParts]
  · split
    any_goals exact (unmatched_recast ‹_› ‹_›).elim
    simp

theorem blind_typeRule : Rule.Blind typeRule := by
  intro R args
  unfold typeRule
  split
  · exact result_tokensOrNone? result_typeAt
  · simp [result_bind_iff, recastParts]
  · simp [result_bind_iff, recastParts]
  · simp [result_bind_iff, recastParts]
  · exact result_tokens? (result_afterBoundAt _ _)
  · split
    any_goals exact (unmatched_recast ‹_› ‹_›).elim
    simp

theorem blind_typeWithPlusRule : Rule.Blind typeWithPlusRule := by
  intro R args
  unfold typeWithPlusRule
  split
  · simp [result_bind_iff, recastParts]
  · simp [result_bind_iff, recastParts]
  · exact result_tokens? (result_afterSummandAt _)
  · split
    any_goals exact (unmatched_recast ‹_› ‹_›).elim
    simp

theorem blind_boundRule : Rule.Blind boundRule := by
  intro R args
  unfold boundRule
  split
  · exact result_tokens? result_boundAt
  · simp [result_bind_iff, recastParts]
  · split
    any_goals exact (unmatched_recast ‹_› ‹_›).elim
    simp

theorem blind_bracketedTypeRule : Rule.Blind bracketedTypeRule := by
  intro R args
  unfold bracketedTypeRule
  split
  · exact result_tokensOrNone? (result_afterElementAt _ _)
  · split
    any_goals exact (unmatched_recast ‹_› ‹_›).elim
    simp

theorem blind_fnPointerRule : Rule.Blind fnPointerRule := by
  intro R args
  unfold fnPointerRule
  split
  · exact result_tokens? (result_fnPointerAt _)
  · split
    any_goals exact (unmatched_recast ‹_› ‹_›).elim
    simp

theorem blind_qualifiedPathRule : Rule.Blind qualifiedPathRule := by
  intro R args
  unfold qualifiedPathRule
  split
  · exact result_tokens? fun _ ↦ result_tokens? fun _ ↦ result_tokens? (result_afterSelfAt _ _)
  · refine result_tokens? fun _ ↦ result_tokens? fun _ ↦ ?_
    rw [← List.map_append]
    exact result_tokens? (result_closeQualifiedSelf _)
  · split
    any_goals exact (unmatched_recast ‹_› ‹_›).elim
    simp

/-- The rule of a nonterminal is blind, whatever its arguments are. -/
theorem blind_rule (n : Nonterminal) : Rule.Blind n.rule := by
  cases n with
  | path => exact blind_pathRule
  | afterIdent => exact blind_afterIdentRule
  | afterCloseAngle => exact blind_afterCloseAngleRule
  | inAngleBrackets => exact blind_inAngleBracketsRule
  | genericParam => exact blind_genericParamRule
  | fnArgs => exact blind_validateList _ _
  | afterFnArgs => exact blind_afterFnArgsRule
  | type => exact blind_typeRule
  | typeWithPlus => exact blind_typeWithPlusRule
  | bound => exact blind_boundRule
  | typeList => exact blind_validateList _ _
  | bracketedType => exact blind_bracketedTypeRule
  | fnPointer => exact blind_fnPointerRule
  | qualifiedPath => exact blind_qualifiedPathRule

end Grammar

/-! ### Predicates -/

namespace Predicate

variable {R : Recasting}

/-- A predicate tells nothing of a token by its place. -/
theorem test_token (p : Predicate) (t : Token) : p.test (R.token t) = p.test t := by
  cases p with
  | isComma => exact R.isPunct_token "," t
  | isIdent => exact R.holds_token (.kind .ident) t
  | isLifetime => exact R.holds_token (.kind .lifetime) t

theorem map_token_boolean (b : Bool) : (boolean b).map R.token = boolean b := by
  simp [boolean, R.token_unplaced]

theorem result_onlyToken (p : Predicate) (args : List Argument) :
    R.result R.token (p.onlyToken args) = p.onlyToken (args.map (Argument.recast R)) := by
  unfold onlyToken
  split
  · simp only [List.map_cons, List.map_nil, Argument.recast_mk, Value.length?_recast,
      Value.tokens?_recast]
    refine result_bind fun n ↦ result_ite (result_bind fun ts ↦ ?_) rfl
    cases ts <;> rfl
  · split
    · exact (unmatched_recast ‹_› ‹_›).elim
    · rfl

/-- Predicates answer with tokens of their own, which have no place to be recast. -/
theorem blind_rule (p : Predicate) : Rule.Blind p.rule := by
  intro R args
  unfold rule
  rw [← result_onlyToken]
  refine result_bind fun t ↦ ?_
  simp [pure, Except.pure, Move.recast, map_token_boolean, test_token]

end Predicate

/-! ### Destinations -/

namespace Destinations

variable {σ : Type} {R : Recasting}

/-- The destination that gives back tokens gives back recast ones for recast outputs. -/
theorem result_identity (args : List Argument) :
    R.result (Value.recast R) (identity args) = identity (args.map (Argument.recast R)) := by
  rcases args with _ | ⟨⟨n, v⟩, _ | ⟨⟨name, rest⟩, _ | ⟨c, more⟩⟩⟩
  · rfl
  · simp [identity]
  · simp only [identity, List.map_cons, List.map_nil, Argument.recast_mk, Value.isVacant_recast,
      Value.tokens?_recast]
    refine result_ite (result_ite rfl ?_) ?_
    · exact result_bind fun ts ↦ by simp
    · simp [noRules, shape, Failure.recast]
  · simp [identity, noRules, shape, Failure.recast, Function.comp_def]

theorem isBoolean_recast (b : Bool) (v : Value) : isBoolean b (v.recast R) = isBoolean b v := by
  cases v <;> simp [isBoolean]

/-- A branch is chosen by a flag, and a recast flag is the same. -/
theorem result_chosen (args : List Argument) :
    R.result (Value.recast R) (chosen args) = chosen (args.map (Argument.recast R)) := by
  unfold chosen
  split
  · simp only [List.map_cons, List.map_nil, Argument.recast_mk, isBoolean_recast]
    exact result_ite rfl (result_ite rfl rfl)
  · split
    · next hno _ _ _ _ _ heq =>
      -- The third argument may have any name.
      exact (unmatched_recast heq fun _ _ _ h ↦ hno _ _ _ _ h).elim
    · rfl

/-- What is shown is noted, and so leaves the numbers of frames alone. -/
theorem recasts_show (lines : List String) :
    Action.Recasts R id (lines.forM fun line ↦ Action.note (.shown line) : Action σ PUnit)
      (lines.forM fun line ↦ Action.note (.shown line)) := by
  induction lines with
  | nil => exact Action.recasts_pure rfl
  | cons line lines ih => exact (Action.recasts_note _ _).bind fun _ ↦ ih

/-- The text of an argument shows neither places nor the numbers of frames. -/
theorem blind_debug : (debug : Handler σ).Blind := by
  intro R caller args
  have htexts : (args.map (Argument.recast R)).map Argument.text = args.map Argument.text := by
    simp [Function.comp_def]
  unfold debug
  rw [htexts]
  exact (recasts_show _).bind fun _ ↦ Action.recasts_pure (by simp)

end Destinations

/-! ### The registry -/

/-- Neither places nor the numbers of frames make a difference to any of the standard callees. -/
theorem blind_standard {σ : Type} :
    ∀ entry ∈ (Registry.standard (σ := σ)).entries, entry.2.Blind := by
  intro entry h
  rw [Registry.standard, Registry.standardAnd, List.append_nil] at h
  rcases List.mem_append.mp h with h | h
  · rcases List.mem_append.mp h with h | h
    · simp only [Destinations.all, List.mem_cons, List.not_mem_nil, or_false] at h
      rcases h with rfl | rfl | rfl
      · exact blind_lift fun _ ↦ Destinations.result_identity
      · exact blind_lift fun _ ↦ Destinations.result_chosen
      · exact Destinations.blind_debug
    · obtain ⟨p, -, rfl⟩ := List.mem_map.mp h
      exact p.blind_rule.handler
  · obtain ⟨n, -, rfl⟩ := List.mem_map.mp h
    exact (Grammar.blind_rule n).handler

end Expander
