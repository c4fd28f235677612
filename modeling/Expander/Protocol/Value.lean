import Expander.Token.Basic
import Expander.Text.Quoted

/-!
# Values, frames and invocations

What callees pass to one another. A value is a token sequence, a text, nothing, the outputs that a
capturing callee was given, or a pending invocation: a step that has not been taken yet is a value
like any other, and may be held as an argument until it is chosen or dropped.

A frame is a callee that waits to be resumed with some state; a caller chain is a list of frames,
the nearest first, and its length is the depth of a call. An invocation is one pending step: the
callee to run, the chain to which it answers, its arguments, and the frame that this step resumes
if it is a return. Each frame has a number of its own by which it is told from other frames of the
same content; comparison by `same` ignores these numbers, and what an invocation resumes.
-/

set_option autoImplicit false

namespace Expander

/-- A rule on tokens that goes by a name. It may declare the names of the outputs it returns. -/
structure Callee where
  name : String
  outputs : Option (List String)
deriving DecidableEq, Repr

mutual

inductive Value
  | tokens (ts : List Token)
  | text (text : String)
  | nothing
  | outputs (arguments : List Argument)
  | pending (invocation : Invocation)

structure Argument where
  name : String
  value : Value

structure Frame where
  id : Nat
  callee : Callee
  state : List Argument

structure Invocation where
  callee : Callee
  caller : List Frame
  args : List Argument
  fires : Option Frame

end

instance : Inhabited Value := ⟨.nothing⟩

instance : Inhabited Argument := ⟨⟨"", .nothing⟩⟩

/-- The callers of a call, the nearest first. -/
abbrev Chain := List Frame

/-! ### Comparison -/

mutual

/-- Values that read alike. -/
def Value.same : Value → Value → Bool
  | .tokens ts, .tokens us => Token.sameAll ts us
  | .text s, .text t => s = t
  | .nothing, .nothing => true
  | .outputs as, .outputs bs => Argument.sameAll as bs
  | .pending i, .pending j => i.same j
  | _, _ => false

def Argument.same : Argument → Argument → Bool
  | ⟨n, v⟩, ⟨m, w⟩ => n = m && v.same w

def Argument.sameAll : List Argument → List Argument → Bool
  | [], [] => true
  | a :: as, b :: bs => a.same b && Argument.sameAll as bs
  | _, _ => false

/-- Frames that resume one callee with one state. -/
def Frame.same : Frame → Frame → Bool
  | ⟨_, c, s⟩, ⟨_, d, t⟩ => c = d && Argument.sameAll s t

def Frame.sameAll : List Frame → List Frame → Bool
  | [], [] => true
  | f :: fs, g :: gs => f.same g && Frame.sameAll fs gs
  | _, _ => false

/-- Invocations of one callee for callers and with arguments that are the same. -/
def Invocation.same : Invocation → Invocation → Bool
  | ⟨c, fs, as, _⟩, ⟨d, gs, bs, _⟩ => c = d && Frame.sameAll fs gs && Argument.sameAll as bs

end

/-! ### Text -/

/-- The names of arguments, in order. -/
def shape (args : List Argument) : List String := args.map (·.name)

/-- A shape as it is shown, with a comma behind a single name. -/
def shapeText (names : List String) : String :=
  match names with
  | [name] => "(" ++ Text.quoted name ++ ",)"
  | names => "(" ++ String.intercalate ", " (names.map Text.quoted) ++ ")"

def Callee.text (c : Callee) : String := "Callee(" ++ c.name ++ ")"

def Invocation.text (i : Invocation) : String :=
  "Invocation(" ++ i.callee.name ++ " " ++ shapeText (shape i.args) ++ ")"

/-- An argument around the text of its value. -/
def argumentText (name value : String) : String := name ++ " = [\x7b " ++ value ++ " \x7d]"

mutual

/-- The text of a value inside the text of an argument: tokens as they read, other values as they
are displayed. -/
def Value.render : Value → String
  | .tokens ts => Token.renderAll ts
  | .text s => Text.quoted s
  | .nothing => "None"
  | .outputs args => String.intercalate " " (Argument.texts args)
  | .pending i => i.text

/-- An argument as `name = ` and its value in double brackets. -/
def Argument.text : Argument → String
  | ⟨name, value⟩ => argumentText name value.render

def Argument.texts : List Argument → List String
  | [] => []
  | a :: as => a.text :: Argument.texts as

end

/-- The text of an argument list. -/
def argumentsText (args : List Argument) : String :=
  "Arguments(" ++ String.intercalate " " (args.map Argument.text) ++ ")"

/-- The text of a value on its own. -/
def Value.display : Value → String
  | .tokens ts => "TokenSequence([\x7b " ++ Token.renderAll ts ++ " \x7d])"
  | v => v.render

end Expander
