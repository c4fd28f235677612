import Expander.Text.Numeral
import Expander.Text.Quoted

/-!
# The words of a command line

A command line names a callee and may give a source text behind it, a file, and a wish for the log.

A word that begins with a dash is an option, unless it is just the dash, looks like a negative
number, or holds a blank and is no option with a value. The long options may be cut short as long
as one of them is meant, and may have their value behind an equals sign. Behind a word `--` there
are no options.

The callee and the source are the first two words of the first run of plain words: where an option
stands between two plain words, the second is not the source. Every plain word that is left over
and every unknown option is unrecognized. What is wrong is reported in this order: an option cut too
short, the first option with a value missing or in excess, a missing callee, unrecognized words.
-/

set_option autoImplicit false

namespace Expander.CommandLine

inductive Flag
  | help
  | file
  | verbose
deriving DecidableEq, Repr

/-- The long name of an option. -/
def Flag.long : Flag → String
  | help => "--help"
  | file => "--file"
  | verbose => "--verbose"

/-- The name of an option in an error. -/
def Flag.title : Flag → String
  | help => "-h/--help"
  | f => f.long

def Flag.all : List Flag := [.help, .file, .verbose]

inductive UsageError
  | ambiguous (word : String) (candidates : List Flag)
  | missingValue (flag : Flag)
  | needlessValue (flag : Flag) (value : String)
  | missingCallee
  | unrecognized (words : List String)
deriving DecidableEq, Repr

def UsageError.message : UsageError → String
  | ambiguous word candidates =>
    "ambiguous option: " ++ word ++ " could match " ++
      String.intercalate ", " (candidates.map Flag.long)
  | missingValue flag => "argument " ++ flag.title ++ ": expected one argument"
  | needlessValue flag value =>
    "argument " ++ flag.title ++ ": ignored explicit argument " ++ Text.quoted value
  | missingCallee => "the following arguments are required: callee"
  | unrecognized words => "unrecognized arguments: " ++ String.intercalate " " words

/-! ### Kinds of words -/

inductive Word
  | plain (word : String)
  | dashes
  | option (flag : Flag) (value : Option String)
  | unknown (word : String)
deriving DecidableEq, Repr

/-- What stands before and behind the first equals sign, if there is one. -/
def cutAtEquals (cs : List Char) : List Char × Option String :=
  match cs.span (· ≠ '=') with
  | (name, '=' :: value) => (name, some (String.ofList value))
  | _ => (cs, none)

/-- Whether a word is a dash and a number: digits, or a point with digits behind it and perhaps
before it. A line feed may end it. -/
def isNegativeNumber : List Char → Bool
  | '-' :: cs =>
    let cs := if cs.getLast? = some '\n' then cs.dropLast else cs
    let isDigit (c : Char) : Bool := (Text.digit? c).isSome
    match cs.dropWhile isDigit with
    | [] => !cs.isEmpty
    | '.' :: decimals => !decimals.isEmpty && decimals.all isDigit
    | _ => false
  | _ => false

/-- The options that a long name cut short may mean. -/
def candidates (name : List Char) : List Flag :=
  Flag.all.filter fun f ↦ name.isPrefixOf f.long.toList

/-- A word that begins with a dash and is no option, as what it is then. -/
def classifyOther (word : String) : Word :=
  let cs := word.toList
  if isNegativeNumber cs || cs.contains ' ' then .plain word else .unknown word

/-- What a word is that begins with the short option for help, by what stands behind it: the same
option again, a value behind an equals sign, or a value that begins with a dash. Anything else is
not looked at. -/
def shortHelp : List Char → Word
  | 'h' :: cs => shortHelp cs
  | '=' :: value => .option .help (some (String.ofList value))
  | '-' :: cs => .option .help (some (String.ofList ('-' :: cs)))
  | _ => .option .help none

/-- What a word is that stands before any `--`. -/
def classify (word : String) : Except UsageError Word :=
  match word.toList with
  | '-' :: '-' :: [] => .ok .dashes
  | '-' :: '-' :: cs =>
    let (name, value) := cutAtEquals ('-' :: '-' :: cs)
    match Flag.all.find? (·.long.toList = name) with
    | some flag => .ok (.option flag value)
    | none =>
      match candidates name with
      | [] => .ok (classifyOther word)
      | [flag] => .ok (.option flag value)
      | flags => .error (.ambiguous word flags)
  | '-' :: 'h' :: cs => .ok (shortHelp cs)
  | '-' :: _ :: _ => .ok (classifyOther word)
  | _ => .ok (.plain word)

/-- What the words are. Behind `--` all of them are plain. -/
def classifyAll : List String → Except UsageError (List Word)
  | [] => .ok []
  | word :: words => do
    match ← classify word with
    | .dashes => return .dashes :: words.map .plain
    | w => return w :: (← classifyAll words)

/-! ### Requests -/

/-- How far the run of words has come that holds the callee and the source. -/
inductive Progress
  | fresh
  | named
  | sourced
  | closed
deriving DecidableEq, Repr

/-- What the words have said so far. -/
structure Reading where
  progress : Progress
  callee : String
  source : Option String
  file : Option String
  verbose : Bool
  leftOver : List String
deriving DecidableEq, Repr

def Reading.start : Reading := ⟨.fresh, "", none, none, false, []⟩

/-- Ends the run of the callee and the source, if it has begun. -/
def Reading.interrupt (r : Reading) : Reading :=
  if r.progress = .fresh then r else { r with progress := .closed }

def Reading.plain (r : Reading) (word : String) : Reading :=
  match r.progress with
  | .fresh => { r with progress := .named, callee := word }
  | .named =>
    { r with progress := .sourced, source := if word = "--" then none else some word }
  | .sourced | .closed => { r with progress := .closed, leftOver := r.leftOver ++ [word] }

/-- A `--` belongs to the run it stands in. -/
def Reading.dashes (r : Reading) : Reading :=
  match r.progress with
  | .closed => { r with leftOver := r.leftOver ++ ["--"] }
  | _ => r

/-- What a command line asks for. -/
inductive Request
  | help
  | expand (callee : String) (source file : Option String) (verbose : Bool)
deriving DecidableEq, Repr

def Reading.finish (r : Reading) : Except UsageError Request :=
  if r.progress = .fresh then .error .missingCallee
  else if r.leftOver.isEmpty then .ok (.expand r.callee r.source r.file r.verbose)
  else .error (.unrecognized r.leftOver)

def Reading.take (r : Reading) : List Word → Except UsageError Request
  | [] => r.finish
  | .plain word :: ws => (r.plain word).take ws
  | .dashes :: ws => r.dashes.take ws
  | .unknown word :: ws =>
    Reading.take { r.interrupt with leftOver := r.leftOver ++ [word] } ws
  | .option .file (some value) :: ws => Reading.take { r.interrupt with file := some value } ws
  | .option .file none :: .plain value :: ws =>
    Reading.take { r.interrupt with file := some value } ws
  | .option .file none :: _ => .error (.missingValue .file)
  | .option .verbose none :: ws => Reading.take { r.interrupt with verbose := true } ws
  | .option .help none :: _ => .ok .help
  | .option flag (some value) :: _ => .error (.needlessValue flag value)

/-- What the words of a command line ask for. -/
def read (words : List String) : Except UsageError Request := do
  Reading.start.take (← classifyAll words)

end Expander.CommandLine
