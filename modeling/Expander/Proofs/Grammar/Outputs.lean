import Expander.Proofs.Grammar.Entry
import Expander.Proofs.Protocol.Honesty

/-!
# The rules give back what they declare

Whatever arguments a nonterminal of the grammar or a predicate is run on, its rule returns the
outputs that it declares, or hands its callers on to callees that do (`honest_rule`,
`honest_predicate`). The proof goes along the text of each rule, with one line for each of its
branches. So a frame that one of them answers to is resumed with the declared outputs, or not at all
(`outputs_as_declared`).
-/

set_option autoImplicit false

namespace Expander

open Grammar

/-- The callees that declare their outputs, with their rules. -/
inductive Declares : Callee → Rule → Prop
  | nonterminal (n : Nonterminal) : Declares n.callee n.rule
  | predicate (p : Predicate) : Declares p.callee p.rule

section

variable {outputs : List String}

/-! ### Operations on values -/

/-- A value that is asked for its tokens does not fail by a name, but by its kind. -/
theorem nameless_tokens? (v : Value) : Nameless v.tokens? := by
  cases v with
  | tokens | text => exact nameless_ok _
  | _ => exact nameless_error id

/-- Nor does one that is asked for its length. -/
theorem nameless_length? (v : Value) : Nameless v.length? := by
  cases v with
  | tokens | text => exact nameless_ok _
  | _ => exact nameless_error id

theorem nameless_tokensOrNone? (v : Value) : Nameless v.tokensOrNone? := by
  rw [Value.tokensOrNone?]
  split
  · exact nameless_ok _
  · exact nameless_tokens? v

theorem nameless_halvesAt (ts : List Token) (index : Nat) : Nameless (halvesAt ts index) := by
  rw [halvesAt]
  split
  · exact nameless_error id
  · split
    · exact nameless_ok _
    · exact nameless_error id

theorem nameless_streamAt (ts : List Token) (index : Nat) : Nameless (streamAt ts index) := by
  rw [streamAt]
  split
  · exact nameless_error id
  · split
    · exact nameless_ok _
    · exact nameless_error id

/-- A predicate that is not given one token does not fail by a name. -/
theorem nameless_onlyToken (p : Predicate) (args : List Argument) : Nameless (p.onlyToken args) := by
  unfold Predicate.onlyToken
  split
  · refine nameless_bind (nameless_length? _) fun n ↦ ?_
    split
    · refine nameless_bind (nameless_tokens? _) fun ts ↦ ?_
      cases ts with
      | nil => exact nameless_error id
      | cons => exact nameless_ok _
    · exact nameless_error id
  · exact nameless_error id

/-- A rule that first asks a value for its tokens is honest if it is whatever they are. -/
theorem honest_tokens? {v : Value} {next : List Token → Except Failure Move}
    (h : ∀ ts, Honest Declares outputs (next ts)) : Honest Declares outputs (v.tokens? >>= next) :=
  honest_bind (nameless_tokens? v) h

theorem honest_tokensOrNone? {v : Value} {next : List Token → Except Failure Move}
    (h : ∀ ts, Honest Declares outputs (next ts)) :
    Honest Declares outputs (v.tokensOrNone? >>= next) :=
  honest_bind (nameless_tokensOrNone? v) h

/-- A rule that first cuts a token is honest if it is with whatever halves. -/
theorem honest_halvesAt {ts : List Token} {index : Nat}
    {next : Token × Token → Except Failure Move}
    (h : ∀ halves, Honest Declares outputs (next halves)) :
    Honest Declares outputs (halvesAt ts index >>= next) :=
  honest_bind (nameless_halvesAt ts index) h

/-- A rule that first looks into a group is honest if it is with whatever tokens inside. -/
theorem honest_streamAt {ts : List Token} {index : Nat}
    {next : List Token → Except Failure Move}
    (h : ∀ stream, Honest Declares outputs (next stream)) :
    Honest Declares outputs (streamAt ts index >>= next) :=
  honest_bind (nameless_streamAt ts index) h

/-- A fault is no failure by a name. -/
theorem honest_atFirst (ts : List Token) : Honest Declares outputs (.error (.atFirst ts)) := by
  cases ts <;> exact id

theorem honest_atLast (ts : List Token) : Honest Declares outputs (.error (.atLast ts)) := by
  rw [Failure.atLast]
  split <;> exact id

theorem honest_valueAtLast (v : Value) : Honest Declares outputs (.error v.atLast) := by
  cases v with
  | tokens ts => exact honest_atLast ts
  | text s => exact honest_atLast (s.toList.map fun c ↦ .leaf .character (String.singleton c) none)
  | nothing => exact honest_atLast []
  | outputs | pending => exact id

/-- Nor is the failure of a call that no rule fits. -/
theorem honest_noRules (name : String) (args : List Argument) :
    Honest Declares outputs (.error (noRules name args)) := id

/-! ### Moves -/

/-- Outputs made of tokens have the names that they were given. -/
theorem shape_ofTokens (parts : List (String × List Token)) :
    shape (parts.map fun part ↦ .ofTokens part.1 part.2) = parts.map Prod.fst := by
  simp only [shape, List.map_map]
  rfl

/-- A rule that returns is honest if the names of what it returns are those it declares. -/
theorem honest_returning {parts : List (String × List Token)} (h : parts.map Prod.fst = outputs) :
    Honest Declares outputs (.ok (returning parts)) :=
  (shape_ofTokens parts).trans h

/-- A rule that continues with another one is honest if that declares the same outputs: what it
hands over is not returned. -/
theorem honest_continuing {n : Nonterminal} {parts : List (String × List Token)}
    (hnames : decide (parts.map Prod.fst).Nodup = true) (h : n.outputs = outputs) :
    Honest Declares outputs (.ok (continuing n parts)) := by
  subst h
  refine ⟨?_, .last (.nonterminal n) rfl⟩
  rw [shape_ofTokens]
  exact of_decide_eq_true hnames

/-- A rule that calls another one and waits for it is honest if what it resumes with declares the
same outputs. The state that waits must share no name with what the callee returns, or the machine
would refuse the frame. -/
theorem honest_calling {n m : Nonterminal} {parts state : List (String × List Token)}
    (hnames : decide (parts.map Prod.fst).Nodup = true)
    (hstate : decide (state.map Prod.fst ++ n.outputs).Nodup = true) (h : m.outputs = outputs) :
    Honest Declares outputs (.ok (calling n parts (resuming m state))) := by
  subst h
  refine ⟨?_, .next (.nonterminal n) rfl ?_ (.last (.nonterminal m) rfl)⟩
  · rw [shape_ofTokens]
    exact of_decide_eq_true hnames
  · rw [resuming, shape_ofTokens]
    exact of_decide_eq_true hstate

/-- The self type of a qualified path goes to the path that it becomes, and that to its type. -/
theorem honest_qualifiedSelf (angle ts : List Token) :
    Honest Declares Nonterminal.type.outputs (.ok (qualifiedSelf angle ts)) := by
  have hstate : shape (resuming .qualifiedPath [("prefix", angle)]).state = ["prefix"] := rfl
  refine ⟨List.nodup_singleton _, .next (.nonterminal .type) rfl ?_ ?_⟩
  · rw [hstate]
    decide
  · exact .next (.nonterminal .qualifiedPath) rfl (by decide) (.last (.nonterminal .type) rfl)

/-! ### Paths -/

theorem honest_pathAt (ts : List Token) : Honest Declares Nonterminal.path.outputs (pathAt ts) := by
  unfold pathAt
  repeat' refine honest_ite ?_ ?_
  · exact honest_calling rfl rfl rfl
  · exact honest_calling rfl rfl rfl
  · exact honest_atFirst _
  · exact id
  · exact honest_atFirst _

theorem honest_openGenericArgs (path : Value) (opening rest : List Token) :
    Honest Declares Nonterminal.inAngleBrackets.outputs (openGenericArgs path opening rest) :=
  honest_tokens? fun _ ↦ honest_calling rfl rfl rfl

theorem honest_afterIdentAt (path : Value) (ts : List Token) :
    Honest Declares Nonterminal.afterIdent.outputs (afterIdentAt path ts) := by
  unfold afterIdentAt
  repeat' refine honest_ite ?_ ?_
  · exact honest_tokens? fun _ ↦ honest_continuing rfl rfl
  · exact honest_halvesAt fun _ ↦ honest_tokens? fun _ ↦ honest_returning rfl
  · exact honest_atFirst _
  · exact honest_openGenericArgs _ _ _
  · exact honest_halvesAt fun _ ↦ honest_openGenericArgs _ _ _
  · exact honest_tokens? fun _ ↦ honest_continuing rfl rfl
  · exact honest_halvesAt fun _ ↦ honest_tokens? fun _ ↦ honest_returning rfl
  · exact honest_openGenericArgs _ _ _
  · exact honest_halvesAt fun _ ↦ honest_openGenericArgs _ _ _
  · exact honest_streamAt fun _ ↦ honest_tokens? fun _ ↦ honest_calling rfl rfl rfl
  · exact honest_tokens? fun _ ↦ honest_continuing rfl rfl

theorem honest_afterCloseAngleAt (path : Value) (ts : List Token) :
    Honest Declares Nonterminal.afterCloseAngle.outputs (afterCloseAngleAt path ts) := by
  unfold afterCloseAngleAt
  repeat' refine honest_ite ?_ ?_
  · exact honest_tokens? fun _ ↦ honest_continuing rfl rfl
  · exact honest_atFirst _
  · exact honest_tokens? fun _ ↦ honest_returning rfl

theorem honest_inAngleBracketsAt (before param : Value) (rest : List Token) :
    Honest Declares Nonterminal.inAngleBrackets.outputs (inAngleBracketsAt before param rest) := by
  unfold inAngleBracketsAt
  repeat' refine honest_ite ?_ ?_
  · exact honest_tokens? fun _ ↦ honest_tokens? fun _ ↦ honest_continuing rfl rfl
  · exact honest_halvesAt fun _ ↦ honest_tokens? fun _ ↦ honest_tokens? fun _ ↦ honest_returning rfl
  · exact honest_tokens? fun _ ↦ honest_tokens? fun _ ↦ honest_continuing rfl rfl
  · exact honest_halvesAt fun _ ↦ honest_tokens? fun _ ↦ honest_tokens? fun _ ↦ honest_returning rfl
  · exact honest_tokens? fun _ ↦ honest_tokens? fun _ ↦ honest_calling rfl rfl rfl
  · exact honest_valueAtLast _
  · exact honest_atFirst _

theorem honest_genericParamAt (ts : List Token) :
    Honest Declares Nonterminal.genericParam.outputs (genericParamAt ts) := by
  unfold genericParamAt
  repeat' refine honest_ite ?_ ?_
  · exact honest_returning rfl
  · exact honest_calling rfl rfl rfl
  · exact honest_returning rfl
  · exact honest_returning rfl
  · exact id
  · exact honest_calling rfl rfl rfl

theorem honest_afterFnArgsAt (path : Value) (ts : List Token) :
    Honest Declares Nonterminal.afterFnArgs.outputs (afterFnArgsAt path ts) := by
  unfold afterFnArgsAt
  repeat' refine honest_ite ?_ ?_
  · exact honest_atFirst _
  · exact honest_tokens? fun _ ↦ honest_calling rfl rfl rfl
  · exact honest_tokens? fun _ ↦ honest_returning rfl

/-! ### Types -/

/-- A type behind a prefix is read by a call and returned with the prefix in front. -/
theorem honest_prefixedType (before ts : List Token) :
    Honest Declares Nonterminal.type.outputs (.ok (prefixedType before ts)) :=
  honest_calling rfl rfl rfl

theorem honest_typeAt (ts : List Token) : Honest Declares Nonterminal.type.outputs (typeAt ts) := by
  unfold typeAt
  repeat' refine honest_ite ?_ ?_
  · exact id
  · exact honest_streamAt fun _ ↦ honest_calling rfl rfl rfl
  · split
    · exact honest_calling rfl rfl rfl
    · exact honest_atFirst _
  · exact honest_atLast _
  · exact honest_prefixedType _ _
  · exact honest_atLast _
  · exact honest_prefixedType _ _
  · exact honest_atFirst _
  · exact honest_returning rfl
  · exact honest_calling rfl rfl rfl
  · exact honest_atFirst _
  · exact honest_calling rfl rfl rfl
  · exact honest_atFirst _
  · exact honest_qualifiedSelf _ _
  · exact honest_halvesAt fun _ ↦ honest_qualifiedSelf _ _
  · exact honest_calling rfl rfl rfl
  · exact honest_atFirst _

theorem honest_afterBoundAt (before bound : Value) (rest : List Token) :
    Honest Declares Nonterminal.type.outputs (afterBoundAt before bound rest) := by
  unfold afterBoundAt
  repeat' refine honest_ite ?_ ?_
  · exact honest_atFirst _
  · exact honest_tokens? fun _ ↦ honest_tokens? fun _ ↦ honest_calling rfl rfl rfl
  · exact honest_tokens? fun _ ↦ honest_tokens? fun _ ↦ honest_returning rfl

theorem honest_afterSummandAt (type : Value) (rest : List Token) :
    Honest Declares Nonterminal.typeWithPlus.outputs (afterSummandAt type rest) := by
  unfold afterSummandAt
  repeat' refine honest_ite ?_ ?_
  · exact honest_atFirst _
  · exact honest_tokens? fun _ ↦ honest_calling rfl rfl rfl
  · exact honest_tokens? fun _ ↦ honest_returning rfl

theorem honest_boundAt (ts : List Token) :
    Honest Declares Nonterminal.bound.outputs (boundAt ts) := by
  unfold boundAt
  repeat' refine honest_ite ?_ ?_
  · exact honest_returning rfl
  · exact honest_atFirst _
  · exact honest_calling rfl rfl rfl
  · exact honest_calling rfl rfl rfl
  · exact id
  · exact honest_atFirst _

theorem honest_afterElementAt (group tokens : Value) (inner : List Token) :
    Honest Declares Nonterminal.bracketedType.outputs (afterElementAt group tokens inner) := by
  unfold afterElementAt
  refine honest_ite ?_ (honest_atFirst _)
  exact honest_tokens? fun _ ↦ honest_tokens? fun _ ↦ honest_returning rfl

theorem honest_fnPointerAt (before : Value) (ts : List Token) :
    Honest Declares Nonterminal.fnPointer.outputs (fnPointerAt before ts) := by
  unfold fnPointerAt
  repeat' refine honest_ite ?_ ?_
  · exact honest_streamAt fun _ ↦ honest_tokens? fun _ ↦ honest_calling rfl rfl rfl
  · exact honest_tokens? fun _ ↦ honest_continuing rfl rfl
  · exact honest_tokens? fun _ ↦ honest_continuing rfl rfl
  · exact honest_tokens? fun _ ↦ honest_continuing rfl rfl
  · exact honest_atFirst _
  · exact honest_valueAtLast _
  · exact honest_atFirst _

theorem honest_closeQualifiedSelf (before rest : List Token) :
    Honest Declares Nonterminal.qualifiedPath.outputs (closeQualifiedSelf before rest) := by
  unfold closeQualifiedSelf
  repeat' refine honest_ite ?_ ?_
  · exact honest_continuing rfl rfl
  · exact honest_atFirst _
  · exact honest_atLast _
  · exact honest_atLast _
  · exact honest_atFirst _

theorem honest_afterSelfAt (before type rest : List Token) :
    Honest Declares Nonterminal.qualifiedPath.outputs (afterSelfAt before type rest) := by
  unfold afterSelfAt
  exact honest_ite (honest_calling rfl rfl rfl) (honest_closeQualifiedSelf _ _)

/-! ### Rules -/

/-- A list that is only looked at declares nothing and gives nothing back, whatever its elements
declare. -/
theorem honest_validateList {list element : Nonterminal} (hlist : list.outputs = [])
    (helement : element.outputs.Nodup) (args : List Argument) :
    Honest Declares list.outputs (validateList list element args) := by
  unfold validateList
  split
  · refine honest_tokensOrNone? fun _ ↦ honest_ite ?_ ?_
    · exact honest_returning hlist.symm
    · exact honest_calling rfl (decide_eq_true helement) rfl
  · refine honest_tokensOrNone? fun _ ↦ honest_ite ?_ (honest_ite ?_ (honest_atFirst _))
    · exact honest_returning hlist.symm
    · exact honest_continuing rfl rfl
  · exact honest_noRules _ _

/-- A rule of the grammar fits its arguments to a case and is honest in each. This one and those
below take the cases apart; what they come to is shown above. -/
theorem honest_pathRule (args : List Argument) :
    Honest Declares Nonterminal.path.outputs (pathRule args) := by
  unfold pathRule
  split
  · exact honest_tokens? honest_pathAt
  · exact honest_tokens? fun _ ↦ honest_tokens? fun _ ↦ honest_tokens? fun _ ↦ honest_returning rfl
  · exact honest_noRules _ _

theorem honest_afterIdentRule (args : List Argument) :
    Honest Declares Nonterminal.afterIdent.outputs (afterIdentRule args) := by
  unfold afterIdentRule
  split
  · exact honest_tokens? (honest_afterIdentAt _)
  · exact honest_tokens? (honest_afterIdentAt _)
  · exact honest_noRules _ _

theorem honest_afterCloseAngleRule (args : List Argument) :
    Honest Declares Nonterminal.afterCloseAngle.outputs (afterCloseAngleRule args) := by
  unfold afterCloseAngleRule
  split
  · exact honest_tokens? (honest_afterCloseAngleAt _)
  · exact honest_noRules _ _

theorem honest_inAngleBracketsRule (args : List Argument) :
    Honest Declares Nonterminal.inAngleBrackets.outputs (inAngleBracketsRule args) := by
  unfold inAngleBracketsRule
  split
  · exact honest_tokens? (honest_inAngleBracketsAt _ _)
  · exact honest_noRules _ _

theorem honest_genericParamRule (args : List Argument) :
    Honest Declares Nonterminal.genericParam.outputs (genericParamRule args) := by
  unfold genericParamRule
  split
  · exact honest_tokens? honest_genericParamAt
  · exact honest_tokens? fun _ ↦ honest_tokens? fun _ ↦ honest_tokens? fun _ ↦ honest_returning rfl
  · exact honest_tokens? fun _ ↦ honest_tokens? fun _ ↦ honest_returning rfl
  · exact honest_noRules _ _

theorem honest_afterFnArgsRule (args : List Argument) :
    Honest Declares Nonterminal.afterFnArgs.outputs (afterFnArgsRule args) := by
  unfold afterFnArgsRule
  split
  · exact honest_tokens? (honest_afterFnArgsAt _)
  · exact honest_tokens? fun _ ↦ honest_tokens? fun _ ↦ honest_tokens? fun _ ↦ honest_returning rfl
  · exact honest_noRules _ _

theorem honest_typeRule (args : List Argument) :
    Honest Declares Nonterminal.type.outputs (typeRule args) := by
  unfold typeRule
  split
  · exact honest_tokensOrNone? honest_typeAt
  · exact honest_tokens? fun _ ↦ honest_tokens? fun _ ↦ honest_returning rfl
  · exact honest_tokens? fun _ ↦ honest_tokens? fun _ ↦ honest_returning rfl
  · exact honest_tokens? fun _ ↦ honest_tokens? fun _ ↦ honest_tokens? fun _ ↦ honest_returning rfl
  · exact honest_tokens? (honest_afterBoundAt _ _)
  · exact honest_noRules _ _

theorem honest_typeWithPlusRule (args : List Argument) :
    Honest Declares Nonterminal.typeWithPlus.outputs (typeWithPlusRule args) := by
  unfold typeWithPlusRule
  split
  · exact honest_tokens? fun _ ↦ honest_calling rfl rfl rfl
  · exact honest_tokens? fun _ ↦ honest_tokens? fun _ ↦ honest_tokens? fun _ ↦ honest_continuing rfl rfl
  · exact honest_tokens? (honest_afterSummandAt _)
  · exact honest_noRules _ _

theorem honest_boundRule (args : List Argument) :
    Honest Declares Nonterminal.bound.outputs (boundRule args) := by
  unfold boundRule
  split
  · exact honest_tokens? honest_boundAt
  · exact honest_tokens? fun _ ↦ honest_tokens? fun _ ↦ honest_tokens? fun _ ↦ honest_returning rfl
  · exact honest_noRules _ _

theorem honest_bracketedTypeRule (args : List Argument) :
    Honest Declares Nonterminal.bracketedType.outputs (bracketedTypeRule args) := by
  unfold bracketedTypeRule
  split
  · exact honest_tokensOrNone? (honest_afterElementAt _ _)
  · exact honest_noRules _ _

theorem honest_fnPointerRule (args : List Argument) :
    Honest Declares Nonterminal.fnPointer.outputs (fnPointerRule args) := by
  unfold fnPointerRule
  split
  · exact honest_tokens? (honest_fnPointerAt _)
  · exact honest_noRules _ _

theorem honest_qualifiedPathRule (args : List Argument) :
    Honest Declares Nonterminal.qualifiedPath.outputs (qualifiedPathRule args) := by
  unfold qualifiedPathRule
  split
  · exact honest_tokens? fun _ ↦ honest_tokens? fun _ ↦ honest_tokens? (honest_afterSelfAt _ _)
  · exact honest_tokens? fun _ ↦ honest_tokens? fun _ ↦ honest_tokens? (honest_closeQualifiedSelf _)
  · exact honest_noRules _ _

/-- Every rule is honest about the outputs of its nonterminal, whatever its arguments are. -/
theorem honest_rule (n : Nonterminal) (args : List Argument) :
    Honest Declares n.outputs (n.rule args) := by
  cases n with
  | path => exact honest_pathRule args
  | afterIdent => exact honest_afterIdentRule args
  | afterCloseAngle => exact honest_afterCloseAngleRule args
  | inAngleBrackets => exact honest_inAngleBracketsRule args
  | genericParam => exact honest_genericParamRule args
  | fnArgs => exact honest_validateList rfl (by decide) args
  | afterFnArgs => exact honest_afterFnArgsRule args
  | type => exact honest_typeRule args
  | typeWithPlus => exact honest_typeWithPlusRule args
  | bound => exact honest_boundRule args
  | typeList => exact honest_validateList rfl (by decide) args
  | bracketedType => exact honest_bracketedTypeRule args
  | fnPointer => exact honest_fnPointerRule args
  | qualifiedPath => exact honest_qualifiedPathRule args

/-- A predicate returns its one output, or nothing if the token is another. -/
theorem honest_predicate (p : Predicate) (args : List Argument) :
    Honest Declares [p.output] (p.rule args) :=
  honest_bind (nameless_onlyToken p args) fun _ ↦ rfl

end

/-! ### Runs -/

section

variable {σ : Type}

/-- Each predicate is among the standard callees. -/
theorem Predicate.mem_standardCallees (p : Predicate) :
    (p.callee, p.rule.handler) ∈ standardCallees (σ := σ) := by
  have hall : p ∈ Predicate.all := by cases p <;> decide
  exact List.mem_append_left _ (List.mem_append_right _ (List.mem_map.mpr ⟨p, hall, rfl⟩))

/-- With the standard callees in a registry, its nonterminals and predicates are honest about what
they declare, whatever is added. -/
theorem honestRules (more : List (Callee × Handler σ)) :
    HonestRules Declares (Registry.standardAnd more).handler where
  handler_eq := by
    rintro c rule (n | p)
    · exact handler_of_mem_standardCallees (mem_standardCallees n)
    · exact handler_of_mem_standardCallees p.mem_standardCallees
  honest := by
    rintro c rule names (n | p) hnames args
    · exact Option.some.inj hnames ▸ honest_rule n args
    · exact Option.some.inj hnames ▸ honest_predicate p args

end

/-- A frame that a nonterminal or a predicate answers to, on whatever arguments, is resumed with the
outputs that its callee declares, in order, if it is resumed at all. So if the state of the frame
has no name of these, which is what is checked when the call is made, then up to the return to the
frame no step fails for a name that is used again. -/
theorem outputs_as_declared {σ : Type} (more : List (Callee × Handler σ)) {f : Callee} {rule : Rule}
    (hf : Declares f rule) {names : List String} (hnames : f.outputs = some names)
    {k : Frame} (outer : Chain) (args : List Argument) (taken : Nat) (ledger : Ledger)
    {w : World σ} (hk : k.id < w.nextFrame) {n taken' : Nat} {ledger' : Ledger} {i : Invocation}
    {w' : World σ}
    (hstage : (Machine.Stage.advance (Registry.standardAnd more).handler)^[n]
      (.attempts taken ledger ⟨f, k :: outer, args, none⟩ w) = .attempts taken' ledger' i w')
    (hfired : k.id ∉ ledger'.fired) :
    (∀ g, i.fires = some g → g.id = k.id →
      ∃ outs, i = k.resumed outer outs ∧ shape outs = names) ∧
    (checkDisjoint k.state names f.name = .ok () → (∀ g, i.fires = some g → g.id ≠ k.id) →
      ∀ reused blamed w'',
        (Machine.Stage.attempts taken' ledger' i w').advance (Registry.standardAnd more).handler ≠
          .ended (.error (.breach (.reusedOutputs reused) blamed), w'')) := by
  have hstart : Machine.Waits Declares names k outer [] ⟨f, k :: outer, args, none⟩ w :=
    ⟨rfl, .last hf hnames, List.forall_mem_nil _, nofun, hk⟩
  have hahead : (Machine.Stage.attempts taken' ledger' i w').Ahead Declares names k outer :=
    hstage ▸ (Machine.Stage.Ahead.waits hstart).iterate (honestRules more) n
  constructor
  · intro g hg hid
    cases hahead with
    | waits h => exact absurd hid (h.fires g hg)
    | fires houts => exact ⟨_, rfl, houts⟩
    | fired h => exact absurd h hfired
  · intro hcheck hfires reused blamed w'' hend
    have hfree : ∀ n ∈ shape k.state, n ∉ names := checkDisjoint_eq_ok_iff.mp hcheck
    exact hahead.no_collision (honestRules more) hfree hfired hfires hend trivial

/-- A frame with a name of its own that a path is to be given back to. -/
def keepingFrame : Frame := ⟨7, ⟨"o_capture", none⟩, [.ofTokens "kept" []]⟩

/-- The stage behind some steps of a call of a path, on an identifier, for that frame. -/
def pathStage (n : Nat) : Machine.Stage Unit :=
  (Machine.Stage.advance Registry.standard.handler)^[n]
    (.attempts 0 .empty ⟨Nonterminal.path.callee, [keepingFrame],
      [.ofTokens "input" [.leaf .ident "A" none]], none⟩ ⟨8, [], ()⟩)

/-- The first firing of a frame that waits for a path: it is resumed with the outputs that paths
declare. -/
theorem outputs_as_declared_path :
    checkDisjoint keepingFrame.state Nonterminal.path.outputs Nonterminal.path.name = .ok () ∧
    keepingFrame.id < 8 ∧ ∃ ledger i w, pathStage 4 = .attempts 4 ledger i w ∧
      keepingFrame.id ∉ ledger.fired ∧ i.fires = some keepingFrame ∧
        ∃ outs, i = keepingFrame.resumed [] outs ∧ shape outs = Nonterminal.path.outputs := by
  have hids : keepingFrame.id < 8 := by decide
  obtain ⟨ledger, i, w, hstage, hfired, hfires⟩ : ∃ ledger i w,
      pathStage 4 = .attempts 4 ledger i w ∧ keepingFrame.id ∉ ledger.fired ∧
        i.fires = some keepingFrame := ⟨_, _, _, rfl, by decide, rfl⟩
  have hdeclared := outputs_as_declared (σ := Unit) [] (.nonterminal .path) rfl [] _ 0 .empty hids
    hstage hfired
  exact ⟨rfl, hids, ledger, i, w, hstage, hfired, hfires, hdeclared.1 _ hfires rfl⟩

end Expander
