import Expander.Grammar.Nonterminal

/-!
# Paths

The rules for paths:

    Path        := "::"? Ident PathTail
    PathTail    := "::"? Ident GenericOrTail | GenericArgs PathTail | ε
    GenericArgs := "<" ">" | "<" Param ("," Param)* ","? ">" | "::" "<" ... ">"
    Param       := Lifetime | Ident "=" Type | ConstArg | Type
    FnArgs      := "(" (Type ("," Type)*)? ")" ("->" Type)?

Each rule looks at three tokens at most from the front of a sequence, and the first shape that
fits is taken for good. The lexer joins two angles that stand together into one token. Where a list
is closed by such a token, its first half closes the list, and its second half goes back to the
caller at the front of the rest, where the enclosing list closes on it; where one is opened by such
a token, its second half opens a qualified path inside the list.

What has been parsed already is carried as a value. A rule does not look at it before it puts it
into an output or an argument, so a value that is no token sequence fails a rule there and not
where the rule finds fault with the tokens to come.
-/

set_option autoImplicit false

namespace Expander.Grammar

/-! ### Token sequences -/

/-- A path at the front of a sequence: its first identifier, with a double colon before it or
without. -/
def pathAt (ts : List Token) : Except Failure Move :=
  if startsWith ts ["::", ident] then
    .ok (calling .afterIdent [("input", ts.drop 2)] (resuming .path [("prefix", ts.take 2)]))
  else if startsWith ts [ident] then
    .ok (calling .afterIdent [("input", ts.drop 1)] (resuming .path [("prefix", ts.take 1)]))
  else if startsWith ts ["::"] && 1 < ts.length then .error (.atFirst (ts.drop 1))
  else if ts.isEmpty then .error .atEnd
  else .error (.atFirst ts)

/-- The first parameter of a list that `opening` opens. -/
def openGenericArgs (path : Value) (opening rest : List Token) : Except Failure Move := do
  return calling .genericParam [("input", rest)]
    (resuming .inAngleBrackets [("prefix", (← path.tokens?) ++ opening)])

/-- What may follow an identifier of a path: generic arguments, with a double colon before them or
without, function arguments, or what may follow generic arguments. -/
def afterIdentAt (path : Value) (ts : List Token) : Except Failure Move := do
  if startsWith ts ["<", ">"] then
    return continuing .afterCloseAngle
      [("path", (← path.tokens?) ++ ts.take 2), ("tokens", ts.drop 2)]
  else if startsWith ts ["<", ">>"] then
    let (close, reopened) ← halvesAt ts 1
    return returning
      [("path", (← path.tokens?) ++ ts.take 1 ++ [close]), ("rest", reopened :: ts.drop 2)]
  else if isExactly ts ["<"] then throw (.atFirst ts)
  else if startsWith ts ["<"] then openGenericArgs path (ts.take 1) (ts.drop 1)
  else if startsWith ts ["<<"] then
    let (outer, inner) ← halvesAt ts 0
    openGenericArgs path [outer] (inner :: ts.drop 1)
  else if startsWith ts ["::", "<", ">"] then
    return continuing .afterCloseAngle
      [("path", (← path.tokens?) ++ ts.take 3), ("tokens", ts.drop 3)]
  else if startsWith ts ["::", "<", ">>"] then
    let (close, reopened) ← halvesAt ts 2
    return returning
      [("path", (← path.tokens?) ++ ts.take 2 ++ [close]), ("rest", reopened :: ts.drop 3)]
  else if startsWith ts ["::", "<"] && 2 < ts.length then
    openGenericArgs path (ts.take 2) (ts.drop 2)
  else if startsWith ts ["::", "<<"] && 2 < ts.length then
    let (outer, inner) ← halvesAt ts 1
    openGenericArgs path (ts.take 1 ++ [outer]) (inner :: ts.drop 2)
  else if startsWith ts [.group .paren] then
    let stream ← streamAt ts 0
    return calling .fnArgs [("tokens", stream)]
      (resuming .afterFnArgs [("path", (← path.tokens?) ++ ts.take 1), ("tokens", ts.drop 1)])
  else return continuing .afterCloseAngle [("path", ← path.tokens?), ("tokens", ts)]

/-- What may follow generic arguments: the next identifier of the path, or its end. -/
def afterCloseAngleAt (path : Value) (ts : List Token) : Except Failure Move := do
  if startsWith ts ["::", ident] then
    return continuing .afterIdent
      [("path", (← path.tokens?) ++ ts.take 2), ("tokens", ts.drop 2)]
  else if startsWith ts ["::"] && 1 < ts.length then throw (.atFirst (ts.drop 1))
  else return returning [("path", ← path.tokens?), ("rest", ts)]

/-- What may follow a generic parameter: the end of the list, or a comma and the next one. A list
that the input leaves open is a fault at its last token, since the missing angle has none. -/
def inAngleBracketsAt (before param : Value) (rest : List Token) : Except Failure Move := do
  if startsWith rest [">"] then
    return continuing .afterCloseAngle
      [("path", (← before.tokens?) ++ (← param.tokens?) ++ rest.take 1), ("tokens", rest.drop 1)]
  else if startsWith rest [">>"] then
    let (close, reopened) ← halvesAt rest 0
    return returning
      [("path", (← before.tokens?) ++ (← param.tokens?) ++ [close]),
       ("rest", reopened :: rest.drop 1)]
  else if startsWith rest [",", ">"] then
    return continuing .afterCloseAngle
      [("path", (← before.tokens?) ++ (← param.tokens?) ++ rest.take 2), ("tokens", rest.drop 2)]
  else if startsWith rest [",", ">>"] then
    let (close, reopened) ← halvesAt rest 1
    return returning
      [("path", (← before.tokens?) ++ (← param.tokens?) ++ rest.take 1 ++ [close]),
       ("rest", reopened :: rest.drop 2)]
  else if startsWith rest [","] && 1 < rest.length then
    return calling .genericParam [("input", rest.drop 1)]
      (resuming .inAngleBrackets
        [("prefix", (← before.tokens?) ++ (← param.tokens?) ++ rest.take 1)])
  else if rest.isEmpty then throw param.atLast
  else throw (.atFirst rest)

/-- A generic parameter: a lifetime, a binding of an associated type, a constant, or a type. -/
def genericParamAt (ts : List Token) : Except Failure Move :=
  if startsWith ts [lifetime] then
    .ok (returning [("param", ts.take 1), ("rest", ts.drop 1)])
  else if startsWith ts [ident, "="] && 2 < ts.length then
    .ok (calling .type [("input", ts.drop 2)] (resuming .genericParam [("assoc", ts.take 2)]))
  else if startsWith ts [literal] || startsWith ts [.group .brace] then
    .ok (returning [("param", ts.take 1), ("rest", ts.drop 1)])
  else if startsWith ts ["-", literal] then
    .ok (returning [("param", ts.take 2), ("rest", ts.drop 2)])
  else if ts.isEmpty then .error .atEnd
  else .ok (calling .typeWithPlus [("input", ts)] (resuming .genericParam []))

/-- What may follow function arguments: an arrow and a type. -/
def afterFnArgsAt (path : Value) (ts : List Token) : Except Failure Move := do
  if startsWith ts ["->"] then
    if ts.length = 1 then throw (.atFirst ts)
    else
      return calling .type [("input", ts.drop 1)]
        (resuming .afterFnArgs [("path", (← path.tokens?) ++ ts.take 1)])
  else return returning [("path", ← path.tokens?), ("rest", ts)]

/-! ### Rules -/

def pathRule : Rule
  | [⟨"input", input⟩] => do pathAt (← input.tokens?)
  | [⟨"prefix", before⟩, ⟨"path", path⟩, ⟨"rest", rest⟩] => do
    return returning [("path", (← before.tokens?) ++ (← path.tokens?)), ("rest", ← rest.tokens?)]
  | args => .error (noRules Nonterminal.path.name args)

def afterIdentRule : Rule
  | [⟨"input", input⟩] => do afterIdentAt (.tokens []) (← input.tokens?)
  | [⟨"path", path⟩, ⟨"tokens", tokens⟩] => do afterIdentAt path (← tokens.tokens?)
  | args => .error (noRules Nonterminal.afterIdent.name args)

def afterCloseAngleRule : Rule
  | [⟨"path", path⟩, ⟨"tokens", tokens⟩] => do afterCloseAngleAt path (← tokens.tokens?)
  | args => .error (noRules Nonterminal.afterCloseAngle.name args)

def inAngleBracketsRule : Rule
  | [⟨"prefix", before⟩, ⟨"param", param⟩, ⟨"rest", rest⟩] => do
    inAngleBracketsAt before param (← rest.tokens?)
  | args => .error (noRules Nonterminal.inAngleBrackets.name args)

def genericParamRule : Rule
  | [⟨"input", input⟩] => do genericParamAt (← input.tokens?)
  | [⟨"assoc", binding⟩, ⟨"type", type⟩, ⟨"rest", rest⟩] => do
    return returning
      [("param", (← binding.tokens?) ++ (← type.tokens?)), ("rest", ← rest.tokens?)]
  | [⟨"type", type⟩, ⟨"rest", rest⟩] => do
    return returning [("param", ← type.tokens?), ("rest", ← rest.tokens?)]
  | args => .error (noRules Nonterminal.genericParam.name args)

def fnArgsRule : Rule := validateList .fnArgs .type

def afterFnArgsRule : Rule
  | [⟨"path", path⟩, ⟨"tokens", tokens⟩] => do afterFnArgsAt path (← tokens.tokens?)
  | [⟨"path", path⟩, ⟨"type", type⟩, ⟨"rest", rest⟩] => do
    return returning [("path", (← path.tokens?) ++ (← type.tokens?)), ("rest", ← rest.tokens?)]
  | args => .error (noRules Nonterminal.afterFnArgs.name args)

end Expander.Grammar
