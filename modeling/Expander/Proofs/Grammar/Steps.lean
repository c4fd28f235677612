import Expander.Proofs.Grammar.Reading
import Expander.Proofs.Token.Splitting

/-!
# The tokens of a step

A call takes tokens from those ahead of it, and what it has in hand belongs to what it will give
back. In one step it does one of a few things: it takes some tokens and is at its end; it takes some
and another call goes on behind them; or a part reads what comes behind some tokens, or what stands
inside a group, or begins with the second half of two opening angles (`Plan.Uses`). The steps of
`Advances` are gone through once, with the tokens that each of them takes itself
(`uses_of_advances`), and what is later added up or counted over a reading is derived from that.

Each step is also held against what a call may spend: some steps of its own (`Call.spare`) and some
levels (`Call.lift`) before it has to take a token, which is worth eight steps and four levels.
-/

set_option autoImplicit false

namespace Expander.Grammar

namespace Call

/-! ### Calls -/

/-- The tokens that belong to what a call will give back. -/
@[simp] def before : Call → List Token
  | path _ | param _ | list .. | separator .. | type _ | summed _ | bound _ => []
  | tail before _ | after before _ | arrow before _ | summands before _ | pointer before _ => before
  | more before read _ | summand before read _ | bounds before read _ | afterSelf before read _
  | selfEnd before read _ => before ++ read
  | arrayEnd group .. => group
  | self angle _ => angle
  | back r before read _ => r.kept before ++ read

/-- The tokens that a call goes on with. -/
@[simp] def input : Call → List Token
  | path ts | tail _ ts | after _ ts | more _ _ ts | param ts | arrow _ ts | list _ ts
  | separator _ _ ts | type ts | summed ts | summands _ ts | summand _ _ ts | bounds _ _ ts
  | bound ts | arrayEnd _ _ _ ts | pointer _ ts | self _ ts | afterSelf _ _ ts | selfEnd _ _ ts
  | back _ _ _ ts => ts

/-- The tokens from which a call takes. Between the brackets of an array it only looks at tokens,
and takes from those behind the group. -/
@[simp] def ahead : Call → List Token
  | arrayEnd _ behind _ _ => behind
  | c => c.input

/-- A call that gives back nothing of the tokens that it reads. -/
@[simp] def Looks : Call → Prop
  | list .. | separator .. => True
  | _ => False

/-- A call that takes a token at least. -/
@[simp] def Consumes : Call → Prop
  | path _ | param _ | type _ | summed _ | bound _ | pointer .. | self .. => True
  | _ => False

/-- How many steps a call may take before it has to take a token. -/
@[simp] def spare : Call → Nat
  | path _ | after .. | more .. | arrow .. | separator .. | summands .. | bounds .. | arrayEnd ..
  | pointer .. | afterSelf .. | selfEnd .. | back .. => 1
  | tail .. | summand .. => 2
  | type _ | bound _ => 3
  | summed _ | self .. => 5
  | param _ | list .. => 7

/-- How deep the steps of a call may be before it has to take a token. -/
@[simp] def lift : Call → Nat
  | type _ | bound _ => 1
  | summed _ | self .. => 2
  | param _ | list .. => 3
  | _ => 0

theorem spare_pos (c : Call) : 0 < c.spare := by
  cases c <;> exact Nat.succ_pos _

end Call

/-! ### What a step does -/

variable {c c' : Call} {p : Plan}

/-- A call takes some tokens and is at its end. -/
structure Call.Ends (c : Call) (taken first rest : List Token) : Prop where
  first_eq : first = c.before ++ taken
  takes : Takes c.ahead taken rest
  nonempty : c.Consumes → taken ≠ []

/-- A call takes the tokens in front, and another one goes on behind them. -/
structure Call.Moves (c : Call) (front : List Token) (c' : Call) : Prop where
  ahead : c.ahead = front ++ c'.ahead
  before : ¬ c.Looks → ¬ c'.Looks ∧ c'.before = c.before ++ front
  nonempty : c.Consumes → front ≠ []
  spare : c'.spare < 8 * front.length + c.spare
  lift : c'.lift ≤ 4 * front.length + c.lift

/-- A part reads what comes behind the tokens in front, and a call goes on with what it leaves. -/
structure Call.Delegates (c : Call) (front : List Token) (c' : Call)
    (next : List Token → List Token → Call) : Prop where
  part : ¬ c'.Looks
  ahead : c.ahead = front ++ c'.before ++ c'.ahead
  next_ahead : ∀ first rest, (next first rest).ahead = rest
  next_before : ¬ c.Looks → ∀ first rest,
    ¬ (next first rest).Looks ∧ (next first rest).before = c.before ++ front ++ first
  nonempty : c.Consumes → front ++ c'.before ≠ [] ∨ c'.Consumes
  spare : ∀ first rest,
    c'.spare + (next first rest).spare < 8 * (front ++ c'.before).length + c.spare
  lift : c'.lift < 4 * (front ++ c'.before).length + c.lift
  next_lift : ∀ first rest, (next first rest).lift = 0

/-- Behind the tokens in front two opening angles are cut, and a part begins with the second half.
The first half is kept in `lead` if it is not handed to the part. -/
structure Call.Halves (c : Call) (front lead : List Token) (o o₁ o₂ : Token) (ts : List Token)
    (c' : Call) (next : List Token → List Token → Call) : Prop where
  part : ¬ c'.Looks ∧ c'.Consumes
  ahead : c.ahead = front ++ o :: ts
  part_ahead : c'.ahead = o₂ :: ts
  part_before : lead ++ c'.before = [o₁]
  next_ahead : ∀ first rest, (next first rest).ahead = rest
  next_before : ∀ first rest,
    ¬ (next first rest).Looks ∧ (next first rest).before = c.before ++ front ++ lead ++ first
  spare : ∀ first rest, c'.spare + (next first rest).spare < 8 + c.spare
  lift : c'.lift < 4 + c.lift
  next_lift : ∀ first rest, (next first rest).lift = 0

/-- Behind the tokens in front there is a group. A part looks at the tokens inside it, and a call
goes on behind it, whatever the part comes to. -/
structure Call.Enters (c : Call) (front : List Token) (d : Delimiter) (span : Option Span)
    (inner ts : List Token) (c' : Call) (next : List Token → List Token → Call) : Prop where
  ahead : c.ahead = front ++ .group d span inner :: ts
  part_ahead : c'.ahead = inner
  next_ahead : ∀ first rest, (next first rest).ahead = ts
  next_before : ∀ first rest, ¬ (next first rest).Looks ∧
    (next first rest).before = c.before ++ front ++ [.group d span inner]
  spare : ∀ first rest, c'.spare + (next first rest).spare < 8 * (front.length + 1) + c.spare
  lift : c'.lift < 4 * (front.length + 1) + c.lift
  next_lift : ∀ first rest, (next first rest).lift = 0

/-- The ways in which a step uses the tokens ahead of a call. -/
inductive Plan.Uses (c : Call) : Plan → Prop
  | fault (f : Fault) : Uses c (.fault f)
  | done (taken : List Token) {first rest : List Token} (h : c.Ends taken first rest) :
      Uses c (.done first rest)
  | go (front : List Token) {c' : Call} (h : c.Moves front c') : Uses c (.go c')
  | part (front : List Token) {c' : Call} {next : List Token → List Token → Call}
      (h : c.Delegates front c' next) : Uses c (.part c' next)
  | cut (front lead ts : List Token) {o o₁ o₂ : Token} {c' : Call}
      {next : List Token → List Token → Call} (ho : o.spells "<<" = true)
      (hcut : o.halves? = some (o₁, o₂)) (h : c.Halves front lead o o₁ o₂ ts c' next) :
      Uses c (.part c' next)
  | group (front : List Token) (d : Delimiter) (span : Option Span) (inner ts : List Token)
      {c' : Call} {next : List Token → List Token → Call}
      (h : c.Enters front d span inner ts c' next) : Uses c (.part c' next)

/-! ### The steps -/

theorem uses_of_endsSelf {before ts : List Token} (h : EndsSelf before ts p)
    (hbefore : c.before = before) (hahead : c.ahead = ts) (hconsumes : ¬ c.Consumes)
    (hspare : c.spare = 1) : p.Uses c := by
  cases h with
  | @item e d t ts =>
    refine .go [e, d, t] ⟨hahead, fun _ ↦ ⟨id, ?_⟩, fun h ↦ absurd h hconsumes, ?_, Nat.zero_le _⟩
    · rw [hbefore, Call.before]
    · rw [hspare]
      simp
  | _ => exact .fault _

/-- The tokens that each step takes itself. -/
theorem uses_of_advances (h : Advances c p) : p.Uses c := by
  cases h with
  -- Paths.
  | @rooted d t => exact .part [d, t] (by constructor <;> simp)
  | @plain t => exact .part [t] (by constructor <;> simp)
  | @empty _ cs _ o e => exact .go (cs ++ [o, e]) (by constructor <;> simp)
  | @emptyFused _ cs ts o e e₁ e₂ _ _ he hcut =>
    have htakes : Takes (cs ++ o :: e :: ts) (cs ++ [o, e₁]) (e₂ :: ts) :=
      (Takes.keep (.half he hcut)).append_left cs
    exact .done (cs ++ [o, e₁]) ⟨by simp, htakes, by simp⟩
  | @opening _ cs _ o => exact .part (cs ++ [o]) (by constructor <;> simp <;> omega)
  | @openingFused _ cs ts _ o₁ _ _ ho hcut =>
    exact .cut cs [o₁] ts ho hcut (by constructor <;> simp)
  | @fnArgs _ ts inner span => exact .group [] .paren span inner ts (by constructor <;> simp)
  | noArgs => exact .go [] (by constructor <;> simp)
  | @segment _ _ d t => exact .go [d, t] (by constructor <;> simp)
  | pathEnd => exact .done [] ⟨by simp, .nil, by simp⟩
  -- Generic arguments.
  | @close _ _ ms _ e => exact .go (ms ++ [e]) (by constructor <;> simp)
  | @closeFused _ _ ms _ _ e₁ _ _ he hcut =>
    exact .done (ms ++ [e₁]) ⟨by simp, (Takes.half he hcut).append_left ms, by simp⟩
  | @comma _ _ _ m => exact .part [m] (by constructor <;> simp)
  | @single ts t => exact .done [t] ⟨rfl, takes_append [t] ts, by simp⟩
  | @negative ts m l => exact .done [m, l] ⟨rfl, takes_append [m, l] ts, by simp⟩
  | @binding _ t e => exact .part [t, e] (by constructor <;> simp)
  | typeParam => exact .part [] (by constructor <;> simp)
  -- Function arguments.
  | @arrow _ _ a => exact .part [a] (by constructor <;> simp)
  | noArrow => exact .done [] ⟨by simp, .nil, by simp⟩
  | listEnd | separatorEnd => exact .done [] ⟨by simp, .nil, by simp⟩
  | listType | listSummed => exact .part [] (by constructor <;> simp)
  | @separator _ _ _ m => exact .go [m] (by constructor <;> simp)
  -- Types.
  | @tuple ts inner span => exact .group [] .paren span inner ts (by constructor <;> simp)
  | @bracketed ts inner span => exact .group [] .bracket span inner ts (by constructor <;> simp)
  | @reference a ls ms => exact .part (a :: (ls ++ ms)) (by constructor <;> simp; omega)
  | @pointer a m => exact .part [a, m] (by constructor <;> simp)
  | @lone t ts => exact .done [t] ⟨rfl, takes_append [t] ts, by simp⟩
  | @bounded t => exact .part [t] (by constructor <;> simp)
  | fnPointer | typePath | qualified => exact .part [] (by constructor <;> simp)
  | @qualifiedFused _ _ _ ts ho hcut => exact .cut [] [] ts ho hcut (by constructor <;> simp)
  -- Bounds.
  | summed => exact .part [] (by constructor <;> simp)
  | summand => exact .go [] (by constructor <;> simp)
  | @plus _ _ a | @boundPlus _ _ _ a => exact .part [a] (by constructor <;> simp)
  | noPlus | boundNoPlus => exact .done [] ⟨by simp, .nil, by simp⟩
  | @simpleBound t ts => exact .done [t] ⟨rfl, takes_append [t] ts, by simp⟩
  | @maybeBound q => exact .part [q] (by constructor <;> simp)
  | pathBound => exact .part [] (by constructor <;> simp)
  -- Arrays and function pointers.
  | arrayEnd => exact .done [] ⟨by simp, .nil, by simp⟩
  | @fn _ ts inner f span => exact .group [f] .paren span inner ts (by constructor <;> simp)
  | @unsafeFn _ _ t => exact .go [t] (by constructor <;> simp)
  | @externFn _ ls _ t => exact .go (t :: ls) (by constructor <;> simp)
  -- Qualified paths.
  | self => exact .part [] (by constructor <;> simp)
  | @asPath _ _ _ a => exact .part [a] (by constructor <;> simp)
  | noAs _ hend | selfEnd hend => exact uses_of_endsSelf hend rfl rfl id rfl
  | back => exact .done [] ⟨by simp, .nil, by simp⟩
  | _ => exact .fault _

end Expander.Grammar
