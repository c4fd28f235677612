import Expander.Diagnostic.Reporter
import Expander.Lexing.Tree
import Expander.Text.Quoted

/-!
# Failures

Everything that can go wrong, by its cause. A `Fault` is an error of the user's tokens and becomes
a diagnostic; a `Breach` is an error of the callees, which break the protocol of calls and returns,
and carries the name of the callee that is to blame if one is; a limit says which bound an
expansion has reached. The rest are values that an operation cannot be applied to. The wording of
every cause is in one function, `Failure.message`.
-/

set_option autoImplicit false

namespace Expander

/-- An error of the tokens that are expanded. -/
inductive Fault
  | unexpected (token : Token)
  | endOfInput

/-- The ways in which callees break the protocol of calls and returns. -/
inductive Breach
  | unknownCallee (name : String)
  | alreadyRegistered (name : String)
  | duplicateArgument (name : String)
  | reusedOutputs (names : List String)
  | noContinuation
  | noRules (shape : List String)
  | notOneToken
  | notOneBoolean
  | firedTwice
  | usedAfterFired
  | finishedEarly
  | neverFired (callees : List String)
  | faultWithoutToken
  | lastFaultWithoutToken
deriving DecidableEq, Repr

/-- The two bounds of an expansion: the depth of its caller chains and the number of its steps. -/
inductive Bound
  | recursion
  | steps
deriving DecidableEq, Repr

/-- Values of a type that an operation has no use for; a type is given by the name it goes by in
messages. -/
inductive Mistyped
  | notArgument (type : String)
  | notDestination (type : String)
  | notIterable (type : String)
  | notSized (type : String)
  | notSubscriptable (type : String)
deriving DecidableEq, Repr

/-- Values that an operation cannot be applied to though they are of its type. -/
inductive Unfit
  | unsplittable (text : String)
  | steppedSlice
  | zeroStep
  | notOpening (text : String)
  | notInteger (setting text : String)
  | notPositive (setting : String) (value : Int)
  | nullInName
deriving DecidableEq, Repr

/-- What an index was out of the range of. -/
inductive Indexed
  | sequence
  | storage
  | report
deriving DecidableEq, Repr

/-- Why bytes are no text. -/
inductive DecodingFault
  | startByte
  | continuationByte
  | truncated
deriving DecidableEq, Repr

/-- Bytes that are no text: the first of them, where it stands, and how many there are. -/
structure Undecodable where
  fault : DecodingFault
  byte : Nat
  position : Nat
  count : Nat
deriving DecidableEq, Repr

inductive Failure
  | unlexable (error : LexError)
  | fault (fault : Fault)
  | breach (breach : Breach) (callee : Option String)
  | limit (bound : Bound) (value : Int) (callee : String)
  | mistyped (cause : Mistyped)
  | unfit (cause : Unfit)
  | outOfRange (what : Indexed)
  | undecodable (cause : Undecodable)

/-! ### Faults of a token sequence -/

/-- The fault at the first token of a sequence, which has to have one. -/
def Failure.atFirst : List Token → Failure
  | t :: _ => .fault (.unexpected t)
  | [] => .breach .faultWithoutToken none

/-- The fault at the last token of a sequence, which has to have one. -/
def Failure.atLast (ts : List Token) : Failure :=
  match ts.getLast? with
  | some t => .fault (.unexpected t)
  | none => .breach .lastFaultWithoutToken none

/-- The fault of an input that ends where a token is required. -/
def Failure.atEnd : Failure := .fault .endOfInput

instance : Inhabited Failure := ⟨.atEnd⟩

/-! ### Wording -/

/-- A text between backticks. -/
def ticked (text : String) : String := "\x60" ++ text ++ "\x60"

def LexCause.message : LexCause → String
  | unknownStart c => "unknown start of token: " ++ ticked (String.singleton c)
  | strayCloser d => "unexpected closing delimiter: " ++ ticked (String.singleton d.closing)
  | unclosed => "this input contains an unclosed delimiter"

/-- The label under the place of a lexer's error. -/
def LexCause.label : LexCause → Option String
  | unknownStart _ => none
  | strayCloser _ => some "unexpected closing delimiter"
  | unclosed => some "unclosed delimiter"

def LexError.diagnostic (e : LexError) : Diagnostic :=
  ⟨e.cause.message, e.span, some lexicalCode, none, none, e.cause.label⟩

def Fault.message : Fault → String
  | unexpected t => "no rules expected the token " ++ ticked t.render
  | endOfInput => "unexpected end of input"

def Fault.diagnostic : Fault → Diagnostic
  | f@(unexpected t) =>
    ⟨f.message, t.span, some unexpectedTokenCode, none, none, some "no rules expected this token"⟩
  | f@endOfInput =>
    ⟨f.message, none, some unexpectedEndCode, none,
      some "no token was available to anchor this error", none⟩

def Breach.message : Breach → String
  | unknownCallee name => "cannot find callee " ++ ticked name ++ " in this scope"
  | alreadyRegistered name => "callee " ++ ticked name ++ " is already registered"
  | duplicateArgument name => "duplicate argument " ++ ticked name
  | reusedOutputs names =>
    "continuation state reuses output name " ++ String.intercalate ", " (names.map ticked)
  | noContinuation => "tt_return needs a continuation to return to"
  | noRules shape =>
    let names := String.intercalate ", " shape
    "no rules expected arguments (" ++ (if names = "" then "<empty>" else names) ++ ")"
  | notOneToken => "predicate input must be a single token"
  | notOneBoolean =>
    "predicate must return exactly one output holding " ++ ticked "true" ++ " or "
      ++ ticked "false"
  | firedTwice => "continuation fired more than once"
  | usedAfterFired => "continuation used after it already fired"
  | finishedEarly => "callee finished without firing its continuation"
  | neverFired callees => "continuation never fired: " ++ String.intercalate ", " callees
  | faultWithoutToken => "error_unexpected requires at least one token"
  | lastFaultWithoutToken => "error_unexpected_last requires at least one token"

def Bound.message (value : Int) : Bound → String
  | recursion => "recursion limit of " ++ toString value ++ " reached while expanding"
  | steps => "step limit of " ++ toString value ++ " reached while expanding"

def Mistyped.message : Mistyped → String
  | notArgument type => "expected NamedArgument, got " ++ type
  | notDestination type => "returns_to must be a callee name or Continuation, got " ++ type
  | notIterable type => "\x27" ++ type ++ "\x27 object is not iterable"
  | notSized type => "object of type \x27" ++ type ++ "\x27 has no len()"
  | notSubscriptable type => "\x27" ++ type ++ "\x27 object is not subscriptable"

def Unfit.message : Unfit → String
  | unsplittable text => "cannot split token " ++ ticked text
  | steppedSlice => "TokenSequence slices must be contiguous"
  | zeroStep => "slice step cannot be zero"
  | notOpening text => "not an opening delimiter: " ++ Text.quoted text
  | notInteger setting text => setting ++ " must be an integer, got " ++ Text.quoted text
  | notPositive setting value => setting ++ " must be positive, got " ++ toString value
  | nullInName => "embedded null byte"

def Indexed.message : Indexed → String
  | sequence => "token index out of range"
  | storage => "tuple index out of range"
  | report => "list index out of range"

/-- A byte as two hexadecimal digits. -/
def byteText (byte : Nat) : String := "0x" ++ String.ofList (Text.hexPadded 2 byte)

def DecodingFault.message : DecodingFault → String
  | startByte => "invalid start byte"
  | continuationByte => "invalid continuation byte"
  | truncated => "unexpected end of data"

def Undecodable.message (u : Undecodable) : String :=
  let place :=
    if u.count = 1 then "byte " ++ byteText u.byte ++ " in position " ++ toString u.position
    else "bytes in position " ++ toString u.position ++ "-" ++
      toString (u.position + u.count - 1)
  "\x27utf-8\x27 codec can\x27t decode " ++ place ++ ": " ++ u.fault.message

/-- A message with the callee it is about in front, if it is about one. -/
def aboutCallee (callee : Option String) (message : String) : String :=
  match Diagnostic.shown callee with
  | some name => "[" ++ name ++ "] " ++ message
  | none => message

def Failure.message : Failure → String
  | unlexable e => e.cause.message
  | fault f => f.message
  | breach b callee => aboutCallee callee b.message
  | limit bound value callee => aboutCallee (some callee) (bound.message value)
  | mistyped cause => cause.message
  | unfit cause => cause.message
  | outOfRange what => what.message
  | undecodable cause => cause.message

end Expander
