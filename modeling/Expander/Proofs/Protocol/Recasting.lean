import Expander.Protocol.Rule
import Expander.Proofs.Token.Erasure

/-!
# Recast values

A recasting makes tokens into tokens of one spelling, and gives frames other numbers (`Recasting`).
Two of them are of interest: one takes the places from the tokens (`Recasting.erasing`), the other
leaves the tokens as they are (`Recasting.numbering`). What callees pass to one another is recast
along with the tokens and frames in it (`Value.recast`), and values that can be recast into one
another are the same (`Value.same_of_recast`).

Names, texts and counts are all that the protocol looks at. So what it makes of recast arguments is
what it makes of the arguments, recast (`Recasting.result_callFor`, `Recasting.result_tailCall`,
`Recasting.result_returnTo`), and where it fails, it fails for the same reason.
-/

set_option autoImplicit false

namespace Expander

/-- What makes tokens into others that read alike, and numbers of frames into others. A token that
came from no text is left as it is. -/
structure Recasting where
  token : Token → Token
  number : Nat → Nat
  erase_token : ∀ t, (token t).erase = t.erase
  stream?_token : ∀ t, (token t).stream? = t.stream?.map (List.map token)
  halves?_token : ∀ t, (token t).halves? = t.halves?.map (Prod.map token token)
  token_unplaced : ∀ kind text, token (.leaf kind text none) = .leaf kind text none

namespace Recasting

/-- Takes the places from all tokens, and numbers frames `shift` higher. -/
def erasing (shift : Nat) : Recasting where
  token := Token.erase
  number := (· + shift)
  erase_token := Token.erase_erase
  stream?_token := Token.stream?_erase
  halves?_token := Token.halves?_erase
  token_unplaced _ _ := by rw [Token.erase]

/-- Leaves all tokens as they are, and gives frames the numbers that `ρ` makes of theirs. -/
def numbering (ρ : Nat → Nat) : Recasting where
  token := id
  number := ρ
  erase_token _ := rfl
  stream?_token _ := by simp
  halves?_token _ := by simp
  token_unplaced _ _ := rfl

/-- To number frames anew leaves tokens as they are. -/
@[simp] theorem numbering_token (ρ : Nat → Nat) : (numbering ρ).token = id := rfl

variable (R : Recasting)

/-! ### Tokens -/

/-- A pattern holds of a recast token if and only if it holds of the token. This and the laws of a
recasting are all that rules need to know of it. -/
@[simp] theorem holds_token (p : Pattern) (t : Token) : p.holds (R.token t) = p.holds t := by
  rw [← holds_erase, R.erase_token, holds_erase]

@[simp] theorem text_token (t : Token) : (R.token t).text = t.text := by
  rw [← Token.text_erase, R.erase_token, Token.text_erase]

@[simp] theorem isPunct_token (spelling : String) (t : Token) :
    (R.token t).isPunct spelling = t.isPunct spelling := by
  rw [← Token.isPunct_erase, R.erase_token, Token.isPunct_erase]

@[simp] theorem render_token (t : Token) : (R.token t).render = t.render := by
  rw [← Token.render_erase, R.erase_token, Token.render_erase]

/-- So the same patterns stand at the front. -/
@[simp] theorem startsWith_map (ts : List Token) (ps : List Pattern) :
    startsWith (ts.map R.token) ps = startsWith ts ps := by
  induction ps generalizing ts with
  | nil => simp
  | cons p ps ih =>
    cases ts with
    | nil => rfl
    | cons t ts => simp [ih]

@[simp] theorem isExactly_map (ts : List Token) (ps : List Pattern) :
    isExactly (ts.map R.token) ps = isExactly ts ps := by
  simp [isExactly]

/-- Recast tokens compare to others as the tokens do. -/
@[simp] theorem sameAll_map (ts us : List Token) :
    Token.sameAll (ts.map R.token) us = Token.sameAll ts us := by
  rw [Bool.eq_iff_iff, Token.sameAll_iff_map, Token.sameAll_iff_map, List.map_map]
  simp [Function.comp_def, R.erase_token]

end Recasting

/-! ### Values -/

mutual

/-- A value with its tokens and the numbers of its frames recast. -/
def Value.recast (R : Recasting) : Value → Value
  | .tokens ts => .tokens (ts.map R.token)
  | .text s => .text s
  | .nothing => .nothing
  | .outputs args => .outputs (Argument.recastAll R args)
  | .pending i => .pending (i.recast R)

def Argument.recast (R : Recasting) : Argument → Argument
  | ⟨name, value⟩ => ⟨name, value.recast R⟩

def Argument.recastAll (R : Recasting) : List Argument → List Argument
  | [] => []
  | a :: args => a.recast R :: Argument.recastAll R args

def Frame.recast (R : Recasting) : Frame → Frame
  | ⟨id, callee, state⟩ => ⟨R.number id, callee, Argument.recastAll R state⟩

def Frame.recastAll (R : Recasting) : List Frame → List Frame
  | [] => []
  | f :: chain => f.recast R :: Frame.recastAll R chain

def Frame.recastOption (R : Recasting) : Option Frame → Option Frame
  | none => none
  | some f => some (f.recast R)

def Invocation.recast (R : Recasting) : Invocation → Invocation
  | ⟨callee, caller, args, fires⟩ =>
    ⟨callee, Frame.recastAll R caller, Argument.recastAll R args, Frame.recastOption R fires⟩

end

section

variable {R : Recasting}

/-- To recast all arguments is to recast each. The recursion over values goes through lists of its
own. -/
theorem Argument.recastAll_eq_map (args : List Argument) :
    Argument.recastAll R args = args.map (Argument.recast R) := by
  induction args with
  | nil => rfl
  | cons a args ih => rw [Argument.recastAll, ih, List.map_cons]

/-- To recast a chain is to recast each of its frames. -/
theorem Frame.recastAll_eq_map (chain : Chain) :
    Frame.recastAll R chain = chain.map (Frame.recast R) := by
  induction chain with
  | nil => rfl
  | cons f chain ih => rw [Frame.recastAll, ih, List.map_cons]

theorem Frame.recastOption_eq_map (fires : Option Frame) :
    Frame.recastOption R fires = fires.map (Frame.recast R) := by
  cases fires <;> rfl

@[simp] theorem Value.recast_tokens (ts : List Token) :
    (Value.tokens ts).recast R = .tokens (ts.map R.token) := by
  rw [Value.recast]

@[simp] theorem Value.recast_text (s : String) : (Value.text s).recast R = .text s := by
  rw [Value.recast]

@[simp] theorem Value.recast_nothing : Value.nothing.recast R = .nothing := by
  rw [Value.recast]

@[simp] theorem Value.recast_outputs (args : List Argument) :
    (Value.outputs args).recast R = .outputs (args.map (Argument.recast R)) := by
  rw [Value.recast, Argument.recastAll_eq_map]

@[simp] theorem Value.recast_pending (i : Invocation) :
    (Value.pending i).recast R = .pending (i.recast R) := by
  rw [Value.recast]

@[simp] theorem Argument.recast_mk (name : String) (value : Value) :
    Argument.recast R ⟨name, value⟩ = ⟨name, value.recast R⟩ := by
  rw [Argument.recast]

/-- The name of an argument stays. -/
@[simp] theorem Argument.name_recast (a : Argument) : (a.recast R).name = a.name := by
  cases a
  rw [Argument.recast]

@[simp] theorem Frame.recast_mk (id : Nat) (callee : Callee) (state : List Argument) :
    Frame.recast R ⟨id, callee, state⟩ = ⟨R.number id, callee, state.map (Argument.recast R)⟩ := by
  rw [Frame.recast, Argument.recastAll_eq_map]

@[simp] theorem Frame.id_recast (f : Frame) : (f.recast R).id = R.number f.id := by
  cases f
  rw [recast_mk]

/-- The callee that a frame waits for stays. -/
@[simp] theorem Frame.callee_recast (f : Frame) : (f.recast R).callee = f.callee := by
  cases f
  rw [recast_mk]

@[simp] theorem Invocation.recast_mk (callee : Callee) (caller : Chain) (args : List Argument)
    (fires : Option Frame) :
    Invocation.recast R ⟨callee, caller, args, fires⟩ =
      ⟨callee, caller.map (Frame.recast R), args.map (Argument.recast R),
        fires.map (Frame.recast R)⟩ := by
  rw [Invocation.recast, Frame.recastAll_eq_map, Argument.recastAll_eq_map,
    Frame.recastOption_eq_map]

@[simp] theorem Invocation.callee_recast (i : Invocation) : (i.recast R).callee = i.callee := by
  cases i
  rw [recast_mk]

@[simp] theorem Invocation.caller_recast (i : Invocation) :
    (i.recast R).caller = i.caller.map (Frame.recast R) := by
  cases i
  rw [recast_mk]

@[simp] theorem Invocation.args_recast (i : Invocation) :
    (i.recast R).args = i.args.map (Argument.recast R) := by
  cases i
  rw [recast_mk]

@[simp] theorem Invocation.fires_recast (i : Invocation) :
    (i.recast R).fires = i.fires.map (Frame.recast R) := by
  cases i
  rw [recast_mk]

/-- Recast arguments have the names that the arguments have, and so fit the same rules. -/
@[simp] theorem shape_recast (args : List Argument) :
    shape (args.map (Argument.recast R)) = shape args := by
  simp [shape, Function.comp_def]

@[simp] theorem Argument.recast_ofTokens (name : String) (ts : List Token) :
    (Argument.ofTokens name ts).recast R = .ofTokens name (ts.map R.token) := by
  simp [Argument.ofTokens]

end

/-! ### Shapes -/

/-- What holds of all arguments of some names in order, whatever their values are. -/
def ForShape : List String → (List Argument → Prop) → Prop
  | [], P => P []
  | name :: names, P => ∀ value, ForShape names fun args ↦ P (⟨name, value⟩ :: args)

/-- A property of all arguments of some names, with the values taken one after the other. -/
theorem forShape_iff {names : List String} {P : List Argument → Prop} :
    ForShape names P ↔ ∀ args, shape args = names → P args := by
  induction names generalizing P with
  | nil => simp [ForShape, shape]
  | cons name names ih =>
    simp only [ForShape, ih]
    constructor
    · rintro h (_ | ⟨⟨n, value⟩, args⟩) hargs
      · cases hargs
      · obtain ⟨rfl, hrest⟩ := List.cons.inj hargs
        exact h value args hrest
    · intro h value args hargs
      exact h (⟨name, value⟩ :: args) (congrArg (name :: ·) hargs)

/-- Recasting changes no shape: arguments that are recast into those of a shape are of that shape
themselves. So a rule that has no case for them has none for the recast ones. -/
theorem unmatched_recast {R : Recasting} {args recast : List Argument}
    (h : args.map (Argument.recast R) = recast)
    (hno : ForShape (shape recast) fun fitting ↦ args = fitting → False) : False :=
  forShape_iff.mp hno args (by rw [← h, shape_recast]) rfl

/-! ### Comparison -/

mutual

/-- Values that are recast into one value are the same. -/
theorem Value.same_of_recast {R S : Recasting} :
    (v w : Value) → v.recast R = w.recast S → v.same w = true
  | .tokens ts, .tokens us, h => by
    rw [Value.recast_tokens, Value.recast_tokens, Value.tokens.injEq] at h
    have herased := congrArg (List.map Token.erase) h
    rw [List.map_map, List.map_map] at herased
    rw [Value.same, Token.sameAll_iff_map]
    simpa [Function.comp_def, R.erase_token, S.erase_token] using herased
  | .text s, .text t, h => by simpa [Value.same] using h
  | .nothing, .nothing, _ => by rw [Value.same]
  | .outputs as, .outputs bs, h => by
    rw [Value.same]
    exact Argument.sameAll_of_recast as bs (by simpa [Value.recast] using h)
  | .pending i, .pending j, h => by
    rw [Value.same]
    exact Invocation.same_of_recast i j (by simpa [Value.recast] using h)
  | .tokens _, .text _, h | .tokens _, .nothing, h | .tokens _, .outputs _, h
  | .tokens _, .pending _, h | .text _, .tokens _, h | .text _, .nothing, h
  | .text _, .outputs _, h | .text _, .pending _, h | .nothing, .tokens _, h
  | .nothing, .text _, h | .nothing, .outputs _, h | .nothing, .pending _, h
  | .outputs _, .tokens _, h | .outputs _, .text _, h | .outputs _, .nothing, h
  | .outputs _, .pending _, h | .pending _, .tokens _, h | .pending _, .text _, h
  | .pending _, .nothing, h | .pending _, .outputs _, h => by simp [Value.recast] at h

/-- Arguments of which two recastings are equal compare equal. -/
theorem Argument.same_of_recast {R S : Recasting} :
    (a b : Argument) → a.recast R = b.recast S → a.same b = true
  | ⟨name, v⟩, ⟨name', w⟩, h => by
    simp only [Argument.recast, Argument.mk.injEq] at h
    simp [Argument.same, h.1, Value.same_of_recast v w h.2]

theorem Argument.sameAll_of_recast {R S : Recasting} :
    (as bs : List Argument) → Argument.recastAll R as = Argument.recastAll S bs →
      Argument.sameAll as bs = true
  | [], [], _ => by rw [Argument.sameAll]
  | a :: as, b :: bs, h => by
    simp only [Argument.recastAll, List.cons.injEq] at h
    simp [Argument.sameAll, Argument.same_of_recast a b h.1, Argument.sameAll_of_recast as bs h.2]
  | [], _ :: _, h | _ :: _, [], h => by simp [Argument.recastAll] at h

/-- So do frames, since a comparison does not look at their numbers. -/
theorem Frame.same_of_recast {R S : Recasting} :
    (f g : Frame) → f.recast R = g.recast S → f.same g = true
  | ⟨_, c, s⟩, ⟨_, d, t⟩, h => by
    simp only [Frame.recast, Frame.mk.injEq] at h
    simp [Frame.same, h.2.1, Argument.sameAll_of_recast s t h.2.2]

theorem Frame.sameAll_of_recast {R S : Recasting} :
    (fs gs : List Frame) → Frame.recastAll R fs = Frame.recastAll S gs →
      Frame.sameAll fs gs = true
  | [], [], _ => by rw [Frame.sameAll]
  | f :: fs, g :: gs, h => by
    simp only [Frame.recastAll, List.cons.injEq] at h
    simp [Frame.sameAll, Frame.same_of_recast f g h.1, Frame.sameAll_of_recast fs gs h.2]
  | [], _ :: _, h | _ :: _, [], h => by simp [Frame.recastAll] at h

/-- So do calls that are left to be made. -/
theorem Invocation.same_of_recast {R S : Recasting} :
    (i j : Invocation) → i.recast R = j.recast S → i.same j = true
  | ⟨c, fs, as, _⟩, ⟨d, gs, bs, _⟩, h => by
    simp only [Invocation.recast, Invocation.mk.injEq] at h
    simp [Invocation.same, h.1, Frame.sameAll_of_recast fs gs h.2.1,
      Argument.sameAll_of_recast as bs h.2.2.1]

end

/-! ### Texts -/

mutual

/-- A value reads as it did: neither places nor the numbers of frames are shown. -/
@[simp] theorem Value.render_recast {R : Recasting} : (v : Value) → (v.recast R).render = v.render
  | .tokens ts => by simp [Value.render, Token.renderAll, Function.comp_def]
  | .text _ | .nothing => by simp [Value.render]
  | .outputs args => by simp only [Value.recast, Value.render, Argument.texts_recastAll args]
  | .pending i => by simp [Value.render, Invocation.text]

/-- An argument is printed as it was. -/
@[simp] theorem Argument.text_recast {R : Recasting} : (a : Argument) → (a.recast R).text = a.text
  | ⟨name, value⟩ => by simp only [Argument.recast, Argument.text, Value.render_recast value]

theorem Argument.texts_recastAll {R : Recasting} : (args : List Argument) →
    Argument.texts (Argument.recastAll R args) = Argument.texts args
  | [] => rfl
  | a :: args => by
    simp only [Argument.recastAll, Argument.texts, Argument.text_recast a,
      Argument.texts_recastAll args]

end

/-! ### Failures -/

def Fault.recast (R : Recasting) : Fault → Fault
  | unexpected t => unexpected (R.token t)
  | endOfInput => endOfInput

/-- A failure with the token that it is about recast. -/
def Failure.recast (R : Recasting) : Failure → Failure
  | fault f => .fault (f.recast R)
  | other => other

namespace Recasting

section

variable {α β γ δ : Type} {f : α → β} {g : γ → δ}

/-- A result with its failure recast, and with what is given recast by `f`. -/
def result (R : Recasting) (f : α → β) : Except Failure α → Except Failure β
  | .ok a => .ok (f a)
  | .error e => .error (e.recast R)

variable {R : Recasting}

@[simp] theorem result_ok (a : α) : R.result f (.ok a) = .ok (f a) := rfl

@[simp] theorem result_error (e : Failure) : R.result f (.error e) = .error (e.recast R) := rfl

/-- A computation is recast step by step. -/
theorem result_bind {x : Except Failure α} {next : α → Except Failure γ}
    {next' : β → Except Failure δ} (h : ∀ a, R.result g (next a) = next' (f a)) :
    R.result g (x >>= next) = R.result f x >>= next' := by
  cases x with
  | error e => rfl
  | ok a => exact h a

/-- The same, where the second step need only be recast at what the first one comes to. -/
theorem result_bind_iff {x : Except Failure α} {next : α → Except Failure γ}
    {next' : β → Except Failure δ} : R.result g (x >>= next) = R.result f x >>= next' ↔
      ∀ a, x = .ok a → R.result g (next a) = next' (f a) := by
  cases x with
  | error e => exact ⟨fun _ _ ↦ nofun, fun _ ↦ rfl⟩
  | ok a => exact ⟨fun h b hb ↦ Except.ok.inj hb ▸ h, fun h ↦ h a rfl⟩

/-- A computation that branches is recast in both branches if the condition is the same. -/
theorem result_ite {c : Prop} [Decidable c] {x y : Except Failure α} {x' y' : Except Failure β}
    (hx : R.result f x = x') (hy : R.result f y = y') :
    R.result f (if c then x else y) = if c then x' else y' := by
  split
  · exact hx
  · exact hy

end

variable (R : Recasting)

/-! ### Faults of a token sequence -/

@[simp] theorem recast_atEnd : Failure.atEnd.recast R = .atEnd := rfl

/-- A fault at the first of some recast tokens is the fault at the first token, recast. -/
@[simp] theorem atFirst_map (ts : List Token) :
    Failure.atFirst (ts.map R.token) = (Failure.atFirst ts).recast R := by
  cases ts <;> rfl

@[simp] theorem atFirst_drop_map (ts : List Token) (n : Nat) :
    Failure.atFirst ((ts.map R.token).drop n) = (Failure.atFirst (ts.drop n)).recast R := by
  rw [← List.map_drop, atFirst_map]

@[simp] theorem atFirst_tail_map (ts : List Token) :
    Failure.atFirst (ts.map R.token).tail = (Failure.atFirst ts.tail).recast R := by
  rw [← List.map_tail, atFirst_map]

/-- And so at the last. -/
@[simp] theorem atLast_map (ts : List Token) :
    Failure.atLast (ts.map R.token) = (Failure.atLast ts).recast R := by
  rw [Failure.atLast, Failure.atLast, List.getLast?_map]
  cases ts.getLast? <;> rfl

@[simp] theorem atLast_take_map (ts : List Token) (n : Nat) :
    Failure.atLast ((ts.map R.token).take n) = (Failure.atLast (ts.take n)).recast R := by
  rw [← List.map_take, atLast_map]

end Recasting

/-! ### Values as token sequences -/

namespace Value

variable {R : Recasting}

/-- The characters of a text came from no text that was lexed, so they stay as they are. -/
theorem map_token_characters (s : String) :
    (s.toList.map fun c ↦ Token.leaf .character (String.singleton c) none).map R.token =
      s.toList.map fun c ↦ .leaf .character (String.singleton c) none := by
  simp [Function.comp_def, R.token_unplaced]

/-- A recast value gives its recast tokens, or fails as the value does. -/
@[simp] theorem tokens?_recast (v : Value) :
    (v.recast R).tokens? = R.result (List.map R.token) v.tokens? := by
  cases v with
  | tokens ts => simp [tokens?]
  | text s => simp only [recast_text, tokens?, Recasting.result_ok, map_token_characters]
  | nothing | outputs args | pending i => simp [tokens?, typeName, Failure.recast]

/-- The number of tokens stays. -/
@[simp] theorem length?_recast (v : Value) : (v.recast R).length? = R.result id v.length? := by
  cases v <;> simp [length?, typeName, Failure.recast]

@[simp] theorem isVacant_recast (v : Value) : (v.recast R).isVacant = v.isVacant := by
  cases v <;> simp [isVacant]

@[simp] theorem tokensOrNone?_recast (v : Value) :
    (v.recast R).tokensOrNone? = R.result (List.map R.token) v.tokensOrNone? := by
  rw [tokensOrNone?, tokensOrNone?, isVacant_recast, tokens?_recast]
  symm
  exact Recasting.result_ite rfl rfl

/-- A fault at the last token of a recast value is that of the value, recast. -/
@[simp] theorem atLast_recast (v : Value) : (v.recast R).atLast = v.atLast.recast R := by
  cases v with
  | tokens ts => simp [atLast, tokens?]
  | text s =>
    have hlast : (text s).atLast =
        .atLast (s.toList.map fun c ↦ .leaf .character (String.singleton c) none) := rfl
    rw [recast_text, hlast, ← R.atLast_map, map_token_characters]
  | nothing => rw [recast_nothing, atLast, ← R.atLast_map, List.map_nil]
  | outputs args | pending i => simp [atLast, tokens?, typeName, Failure.recast]

end Value

/-! ### Moves -/

def Resumption.recast (R : Recasting) (r : Resumption) : Resumption :=
  ⟨r.callee, r.state.map (Argument.recast R)⟩

def Move.recast (R : Recasting) : Move → Move
  | call target args near outer =>
    .call target (args.map (Argument.recast R)) (near.recast R) (outer.map (Resumption.recast R))
  | tail target args => .tail target (args.map (Argument.recast R))
  | giveBack outputs => .giveBack (outputs.map (Argument.recast R))

/-! ### Calls and returns -/

namespace Recasting

variable (R : Recasting)

/-- A call that no rule fits fails with the text of its arguments, and that stays. -/
@[simp] theorem noRules_map (callee : String) (args : List Argument) :
    noRules callee (args.map (Argument.recast R)) = (noRules callee args).recast R := by
  simp [noRules, Failure.recast]

/-- A name that is there twice is found among recast arguments as well. -/
theorem repeatedName?_map (seen : List String) (args : List Argument) :
    repeatedName? seen (args.map (Argument.recast R)) = repeatedName? seen args := by
  induction args generalizing seen with
  | nil => rfl
  | cons a args ih => simp [repeatedName?, ih]

/-- Recast arguments are accepted if the arguments are. -/
theorem distinct_map (args : List Argument) :
    distinct (args.map (Argument.recast R)) =
      R.result (List.map (Argument.recast R)) (distinct args) := by
  rw [distinct, distinct, repeatedName?_map]
  cases repeatedName? [] args <;> rfl

/-- Recast state collides with outputs if the state does. -/
theorem checkDisjoint_map (state : List Argument) (outputs : List String) (blamed : String) :
    checkDisjoint (state.map (Argument.recast R)) outputs blamed =
      R.result id (checkDisjoint state outputs blamed) := by
  rw [checkDisjoint, checkDisjoint, shape_recast]
  split <;> rfl

/-- A tail call is made of recast arguments as of the arguments. -/
theorem result_tailCall (target : Callee) (caller : Chain) (args : List Argument) :
    R.result (Value.recast R) (tailCall target caller (.ok args)) =
      tailCall target (caller.map (Frame.recast R)) (.ok (args.map (Argument.recast R))) := by
  refine result_bind (x := .ok args) (f := List.map (Argument.recast R)) fun args ↦ ?_
  rw [distinct_map]
  refine result_bind fun args ↦ ?_
  simp [pure, Except.pure]

/-- The names of outputs are checked first, and the rest of a call is that of a tail call. -/
theorem result_callFor (target : Callee) (chain : Chain) (args : List Argument) :
    R.result (Value.recast R) (callFor target chain (.ok args)) =
      callFor target (chain.map (Frame.recast R)) (.ok (args.map (Argument.recast R))) := by
  have hrest := R.result_tailCall target chain args
  unfold callFor
  cases target.outputs with
  | none => exact hrest
  | some outputs =>
    rcases chain with _ | ⟨⟨id, callee, state⟩, outer⟩
    · exact hrest
    · simp only [List.map_cons, Frame.recast_mk, checkDisjoint_map] at hrest ⊢
      exact result_bind fun _ ↦ hrest

/-- The nearest frame is resumed with recast outputs as with the outputs. -/
theorem result_returnTo (caller : Chain) (outputs : List Argument) :
    R.result (Value.recast R) (returnTo caller (.ok outputs)) =
      returnTo (caller.map (Frame.recast R)) (.ok (outputs.map (Argument.recast R))) := by
  rcases caller with _ | ⟨⟨id, callee, state⟩, outer⟩
  · rfl
  · refine result_bind (x := .ok outputs) (f := List.map (Argument.recast R)) fun outputs ↦ ?_
    simp only [distinct_map]
    refine result_bind fun outputs ↦ ?_
    simp only [Frame.recast_mk, shape_recast, checkDisjoint_map, ← List.map_append, distinct_map]
    refine result_bind fun _ ↦ result_bind fun args ↦ ?_
    simp [pure, Except.pure]

end Recasting

end Expander
