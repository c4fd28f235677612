import Expander.Protocol.Rule
import Expander.Token.Pattern

/-!
# Nonterminals of the path and type grammar

The callees that take the paths and types of Rust apart. Each nonterminal goes by a name, declares
the outputs it returns, and refers to the others by these names. The lists of function arguments
and of tuple elements are only looked at, so their nonterminals return no outputs.
-/

set_option autoImplicit false

namespace Expander.Grammar

inductive Nonterminal
  | path
  | afterIdent
  | afterCloseAngle
  | inAngleBrackets
  | genericParam
  | fnArgs
  | afterFnArgs
  | type
  | typeWithPlus
  | bound
  | typeList
  | bracketedType
  | fnPointer
  | qualifiedPath
deriving DecidableEq, Repr

namespace Nonterminal

def all : List Nonterminal :=
  [path, afterIdent, afterCloseAngle, inAngleBrackets, genericParam, fnArgs, afterFnArgs,
   type, typeWithPlus, bound, typeList, bracketedType, fnPointer, qualifiedPath]

def name : Nonterminal → String
  | path => "parse_path"
  | afterIdent => "private_parse_possibly_empty_path_after_ident"
  | afterCloseAngle => "private_parse_possibly_empty_path_after_close_angle"
  | inAngleBrackets => "private_parse_in_angle_brackets"
  | genericParam => "private_parse_generic_param"
  | fnArgs => "private_validate_fn_path_args"
  | afterFnArgs => "private_parse_path_after_fn_args"
  | type => "parse_type"
  | typeWithPlus => "private_parse_type_with_plus"
  | bound => "private_parse_bound"
  | typeList => "private_validate_type_list"
  | bracketedType => "private_parse_bracketed_type"
  | fnPointer => "private_parse_fn_pointer"
  | qualifiedPath => "private_parse_qualified_path"

/-- The names of the outputs, in order. -/
def outputs : Nonterminal → List String
  | path | afterIdent | afterCloseAngle | inAngleBrackets | afterFnArgs | fnPointer
  | qualifiedPath => ["path", "rest"]
  | type | typeWithPlus | bracketedType => ["type", "rest"]
  | genericParam => ["param", "rest"]
  | bound => ["bound", "rest"]
  | fnArgs | typeList => []

def callee (n : Nonterminal) : Callee := ⟨n.name, some n.outputs⟩

end Nonterminal

/-! ### Moves of the grammar -/

/-- A frame that resumes a nonterminal with some token sequences. -/
def resuming (n : Nonterminal) (state : List (String × List Token)) : Resumption :=
  ⟨n.callee, state.map fun part ↦ .ofTokens part.1 part.2⟩

/-- A call of a nonterminal on token sequences. -/
def calling (n : Nonterminal) (args : List (String × List Token)) (near : Resumption) : Move :=
  .call n.callee (args.map fun part ↦ .ofTokens part.1 part.2) near []

def continuing (n : Nonterminal) (args : List (String × List Token)) : Move :=
  .tail n.callee (args.map fun part ↦ .ofTokens part.1 part.2)

def returning (outputs : List (String × List Token)) : Move :=
  .giveBack (outputs.map fun part ↦ .ofTokens part.1 part.2)

/-- The halves of the token at an index, which has to be punctuation of two characters. -/
def halvesAt (ts : List Token) (index : Nat) : Except Failure (Token × Token) :=
  match ts[index]? with
  | none => .error (.outOfRange .sequence)
  | some t =>
    match t.halves? with
    | some halves => .ok halves
    | none => .error (.unfit (.unsplittable t.text))

/-- The tokens inside the group at an index. A group without a stream has none to look at. -/
def streamAt (ts : List Token) (index : Nat) : Except Failure (List Token) :=
  match ts[index]? with
  | none => .error (.outOfRange .sequence)
  | some t =>
    match t.stream? with
    | some stream => .ok stream
    | none => .error (.mistyped (.notIterable Value.nothing.typeName))

/-! ### Patterns of the grammar -/

/-- In a pattern of the grammar a text stands for its spelling. -/
instance : Coe String Pattern := ⟨.spelling⟩

def ident : Pattern := .kind .ident

def lifetime : Pattern := .kind .lifetime

def literal : Pattern := .kind .literal

/-- The comma-separated lists of types that are only looked at: each element is parsed and
dropped, and a comma may stand at the end. -/
def validateList (list element : Nonterminal) : Rule
  | [⟨"tokens", tokens⟩] => do
    let tokens ← tokens.tokensOrNone?
    if tokens.isEmpty then return returning []
    else return calling element [("input", tokens)] (resuming list [])
  | [⟨"type", _⟩, ⟨"rest", rest⟩] => do
    let rest ← rest.tokensOrNone?
    if rest.isEmpty then return returning []
    else if startsWith rest [","] then return continuing list [("tokens", rest.drop 1)]
    else throw (.atFirst rest)
  | args => .error (noRules list.name args)

end Expander.Grammar
