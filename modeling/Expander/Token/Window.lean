import Expander.Failure
import Expander.Token.Pattern

/-!
# Windows on shared tokens

A window shows the part of a stored sequence between a start and a stop. Moving the window copies
nothing: `Window.skip` moves the start and `Window.slice?` moves both ends. The two clamp
differently. A slice stays inside the window whatever its bounds are, but `skip` is bounded from
above only, so a negative count moves the start back over tokens that the window had passed and,
before the first stored token, to places that are counted from the end of the storage.
-/

set_option autoImplicit false

namespace Expander

structure Window where
  stored : List Token
  start : Int
  stop : Int

namespace Window

/-- The window that shows all of a sequence. -/
def ofList (ts : List Token) : Window := ⟨ts, 0, ts.length⟩

def length (w : Window) : Int := w.stop - w.start

def isEmpty (w : Window) : Bool := w.stop ≤ w.start

/-- The stored token at a place; a negative place counts from the end of the storage. -/
def stored? (w : Window) (place : Int) : Except Failure Token :=
  let index := if place < 0 then place + w.stored.length else place
  if index < 0 then .error (.outOfRange .storage)
  else
    match w.stored[index.toNat]? with
    | some t => .ok t
    | none => .error (.outOfRange .storage)

/-- The places that the window shows, in order. -/
def places (w : Window) : List Int :=
  (List.range w.length.toNat).map fun (i : Nat) ↦ w.start + i

/-- The tokens that the window shows. -/
def toList (w : Window) : Except Failure (List Token) := w.places.mapM w.stored?

/-- The token at an index, where a negative one counts from the end of the window. -/
def get (w : Window) (index : Int) : Except Failure Token :=
  let i := if index < 0 then index + w.length else index
  if 0 ≤ i ∧ i < w.length then w.stored? (w.start + i) else .error (.outOfRange .sequence)

/-- The window without its first tokens. -/
def skip (w : Window) (count : Int) : Window :=
  { w with start := min (w.start + count) w.stop }

/-- A bound of a slice as an index from 0 to the length; a negative one counts from the end. -/
def clampBound (length bound : Int) : Int :=
  if bound < 0 then max (bound + length) 0 else min bound length

/-- The part of the window between two bounds, each of which may be left out. A slice has a step
of one. -/
def slice? (w : Window) (start stop step : Option Int) : Except Failure Window :=
  match step.getD 1 with
  | 0 => .error (.unfit .zeroStep)
  | 1 =>
    let first := clampBound w.length (start.getD 0)
    let last := clampBound w.length (stop.getD w.length)
    .ok { w with start := w.start + first, stop := w.start + max first last }
  | _ => .error (.unfit .steppedSlice)

/-- The first token of the window. -/
def first (w : Window) : Except Failure Token := w.get 0

/-- The last token of the window. -/
def last (w : Window) : Except Failure Token := w.get (-1)

/-- Whether the window is long enough for some patterns and matches them, where no token past the
first that does not match is read. -/
def startsWith (w : Window) (ps : List Pattern) : Except Failure Bool :=
  if w.length < ps.length then .ok false else go 0 ps
where
  go (index : Int) : List Pattern → Except Failure Bool
    | [] => .ok true
    | p :: ps => do if p.holds (← w.get index) then go (index + 1) ps else return false

def isExactly (w : Window) (ps : List Pattern) : Except Failure Bool :=
  if w.length = ps.length then w.startsWith ps else .ok false

/-- Whether two windows show as many tokens and of the same spelling, read up to the first
difference. -/
def alike (w v : Window) : Except Failure Bool :=
  if w.length = v.length then go w.places v.places else .ok false
where
  go : List Int → List Int → Except Failure Bool
    | place :: places, other :: others => do
      if (← w.stored? place).same (← v.stored? other) then go places others else return false
    | _, _ => .ok true

/-- Whether the window shows tokens of the same spelling as a sequence. -/
def same (w : Window) (ts : List Token) : Except Failure Bool := w.alike (ofList ts)

/-- What a new sequence is put together from. -/
inductive Part
  | token (token : Token)
  | list (tokens : List Token)
  | window (window : Window)

def Part.tokens : Part → Except Failure (List Token)
  | token t => .ok [t]
  | list ts => .ok ts
  | window w => w.toList

/-- A window on a new sequence of the tokens of some parts. -/
def of (parts : List Part) : Except Failure Window := do
  return .ofList (← parts.mapM Part.tokens).flatten

/-- The tokens of a window with those of a part behind them. -/
def append (w : Window) (part : Part) : Except Failure Window := of [.window w, part]

end Window

end Expander
