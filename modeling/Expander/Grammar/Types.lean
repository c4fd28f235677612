import Expander.Grammar.Paths

/-!
# Types

The rules for types:

    Type         := "(" TypeList ")" | "[" Type (";" Tokens)? "]"
                  | ("&" | "&&") Lifetime? "mut"? Type
                  | "*" ("const" | "mut") Type
                  | "!" | "_"
                  | ("unsafe" | "extern" Literal?)* "fn" FnArgs
                  | ("dyn" | "impl") Bound ("+" Bound)*
                  | "<" Type ("as" Path)? ">" "::" Ident PathTail
                  | Path
    TypeWithPlus := Type ("+" Bound)*
    Bound        := Lifetime | "(" ... ")" | "?"? Path

The elements of a tuple and the element of a slice or an array are parsed inside their group and
dropped: the group goes into the output as the one token it is.
-/

set_option autoImplicit false

namespace Expander.Grammar

/-! ### Token sequences -/

/-- A type behind some tokens that belong to it. -/
def prefixedType (before ts : List Token) : Move :=
  calling .type [("input", ts)] (resuming .type [("prefix", before)])

/-- How many tokens of a reference stand before its type: the ampersand, a lifetime, `mut`. -/
def referenceWidth (ts : List Token) : Nat :=
  let width := if startsWith (ts.drop 1) [lifetime] then 2 else 1
  if startsWith (ts.drop width) ["mut"] then width + 1 else width

/-- The self type of a qualified path behind its opening angle. The path it becomes goes back to
the nonterminal of types. -/
def qualifiedSelf (angle ts : List Token) : Move :=
  .call Nonterminal.type.callee [.ofTokens "input" ts]
    (resuming .qualifiedPath [("prefix", angle)]) [resuming .type []]

/-- A type at the front of a sequence. -/
def typeAt (ts : List Token) : Except Failure Move :=
  if ts.isEmpty then .error .atEnd
  else if startsWith ts [.group .paren] then do
    let stream ← streamAt ts 0
    .ok (calling .typeList [("tokens", stream)]
      (resuming .type [("type", ts.take 1), ("rest", ts.drop 1)]))
  else if startsWith ts [.group .bracket] then
    match ts.head?.bind Token.stream? with
    | some (t :: inner) =>
      .ok (calling .type [("input", t :: inner)]
        (resuming .bracketedType [("group", ts.take 1), ("tokens", ts.drop 1)]))
    | _ => .error (.atFirst ts)
  else if startsWith ts ["&"] || startsWith ts ["&&"] then
    let width := referenceWidth ts
    if ts.length = width then .error (.atLast ts)
    else .ok (prefixedType (ts.take width) (ts.drop width))
  else if startsWith ts ["*", "const"] || startsWith ts ["*", "mut"] then
    if ts.length = 2 then .error (.atLast ts)
    else .ok (prefixedType (ts.take 2) (ts.drop 2))
  else if startsWith ts ["*"] then
    .error (.atFirst (if ts.length = 1 then ts else ts.drop 1))
  else if startsWith ts ["!"] || startsWith ts ["_"] then
    .ok (returning [("type", ts.take 1), ("rest", ts.drop 1)])
  else if startsWith ts ["fn"] || startsWith ts ["unsafe"] || startsWith ts ["extern"] then
    .ok (calling .fnPointer [("prefix", []), ("tokens", ts)] (resuming .type []))
  else if startsWith ts ["dyn"] || startsWith ts ["impl"] then
    if ts.length = 1 then .error (.atFirst ts)
    else .ok (calling .bound [("input", ts.drop 1)] (resuming .type [("prefix", ts.take 1)]))
  else if startsWith ts ["<"] then
    if ts.length = 1 then .error (.atFirst ts)
    else .ok (qualifiedSelf (ts.take 1) (ts.drop 1))
  else if startsWith ts ["<<"] then do
    let (outer, inner) ← halvesAt ts 0
    .ok (qualifiedSelf [outer] (inner :: ts.drop 1))
  else if startsWith ts ["::"] || startsWith ts [ident] then
    .ok (calling .path [("input", ts)] (resuming .type []))
  else .error (.atFirst ts)

/-- What may follow a bound of `dyn` or `impl`: a plus and the next bound. -/
def afterBoundAt (before bound : Value) (rest : List Token) : Except Failure Move := do
  if startsWith rest ["+"] then
    if rest.length = 1 then throw (.atFirst rest)
    else
      return calling .bound [("input", rest.drop 1)]
        (resuming .type [("prefix", (← before.tokens?) ++ (← bound.tokens?) ++ rest.take 1)])
  else return returning [("type", (← before.tokens?) ++ (← bound.tokens?)), ("rest", rest)]

/-- What may follow a type where bounds can be added to it: a plus and a bound. -/
def afterSummandAt (type : Value) (rest : List Token) : Except Failure Move := do
  if startsWith rest ["+"] then
    if rest.length = 1 then throw (.atFirst rest)
    else
      return calling .bound [("input", rest.drop 1)]
        (resuming .typeWithPlus [("prefix", (← type.tokens?) ++ rest.take 1)])
  else return returning [("type", ← type.tokens?), ("rest", rest)]

/-- A bound at the front of a sequence. What stands between parentheses is not looked at. -/
def boundAt (ts : List Token) : Except Failure Move :=
  if startsWith ts [lifetime] || startsWith ts [.group .paren] then
    .ok (returning [("bound", ts.take 1), ("rest", ts.drop 1)])
  else if startsWith ts ["?"] then
    if ts.length = 1 then .error (.atFirst ts)
    else .ok (calling .path [("input", ts.drop 1)] (resuming .bound [("prefix", ts.take 1)]))
  else if startsWith ts ["::"] || startsWith ts [ident] then
    .ok (calling .path [("input", ts)] (resuming .bound [("prefix", [])]))
  else if ts.isEmpty then .error .atEnd
  else .error (.atFirst ts)

/-- What may follow the element type between brackets: nothing, or a semicolon and a length, of
which only the presence is checked. -/
def afterElementAt (group tokens : Value) (inner : List Token) : Except Failure Move := do
  if inner.isEmpty || (startsWith inner [";"] && 1 < inner.length) then
    return returning [("type", ← group.tokens?), ("rest", ← tokens.tokens?)]
  else throw (.atFirst inner)

/-- A function pointer behind the qualifiers in `before`, one more qualifier at a time. -/
def fnPointerAt (before : Value) (ts : List Token) : Except Failure Move := do
  if startsWith ts ["fn", .group .paren] then
    let stream ← streamAt ts 1
    return calling .fnArgs [("tokens", stream)]
      (resuming .afterFnArgs [("path", (← before.tokens?) ++ ts.take 2), ("tokens", ts.drop 2)])
  else if startsWith ts ["unsafe"] then
    return continuing .fnPointer
      [("prefix", (← before.tokens?) ++ ts.take 1), ("tokens", ts.drop 1)]
  else if startsWith ts ["extern", literal] then
    return continuing .fnPointer
      [("prefix", (← before.tokens?) ++ ts.take 2), ("tokens", ts.drop 2)]
  else if startsWith ts ["extern"] then
    return continuing .fnPointer
      [("prefix", (← before.tokens?) ++ ts.take 1), ("tokens", ts.drop 1)]
  else if startsWith ts ["fn"] && 1 < ts.length then throw (.atFirst (ts.drop 1))
  else if ts.isEmpty then throw before.atLast
  else throw (.atFirst ts)

/-- The end of the self type of a qualified path: a closing angle, and an associated item, which
has to be there. -/
def closeQualifiedSelf (before rest : List Token) : Except Failure Move :=
  if startsWith rest [">", "::", ident] then
    .ok (continuing .afterIdent [("path", before ++ rest.take 3), ("tokens", rest.drop 3)])
  else if startsWith rest [">", "::"] && 2 < rest.length then .error (.atFirst (rest.drop 2))
  else if startsWith rest [">"] || startsWith rest [">>"] then .error (.atLast (rest.take 2))
  else if rest.isEmpty then .error (.atLast before)
  else .error (.atFirst rest)

/-- What may follow the self type of a qualified path: `as` and a path, or its end. -/
def afterSelfAt (before type rest : List Token) : Except Failure Move :=
  if startsWith rest ["as"] && 1 < rest.length then
    .ok (calling .path [("input", rest.drop 1)]
      (resuming .qualifiedPath [("prefix", before ++ type ++ rest.take 1)]))
  else closeQualifiedSelf (before ++ type) rest

/-! ### Rules -/

/-- What comes back from the nonterminals that a type is made of is returned as a `type`. -/
def typeRule : Rule
  | [⟨"input", input⟩] => do typeAt (← input.tokensOrNone?)
  | [⟨"type", type⟩, ⟨"rest", rest⟩] => do
    return returning [("type", ← type.tokens?), ("rest", ← rest.tokens?)]
  | [⟨"path", path⟩, ⟨"rest", rest⟩] => do
    return returning [("type", ← path.tokens?), ("rest", ← rest.tokens?)]
  | [⟨"prefix", before⟩, ⟨"type", type⟩, ⟨"rest", rest⟩] => do
    return returning [("type", (← before.tokens?) ++ (← type.tokens?)), ("rest", ← rest.tokens?)]
  | [⟨"prefix", before⟩, ⟨"bound", bound⟩, ⟨"rest", rest⟩] => do
    afterBoundAt before bound (← rest.tokens?)
  | args => .error (noRules Nonterminal.type.name args)

def typeWithPlusRule : Rule
  | [⟨"input", input⟩] => do
    return calling .type [("input", ← input.tokens?)] (resuming .typeWithPlus [])
  | [⟨"prefix", before⟩, ⟨"bound", bound⟩, ⟨"rest", rest⟩] => do
    return continuing .typeWithPlus
      [("type", (← before.tokens?) ++ (← bound.tokens?)), ("rest", ← rest.tokens?)]
  | [⟨"type", type⟩, ⟨"rest", rest⟩] => do afterSummandAt type (← rest.tokens?)
  | args => .error (noRules Nonterminal.typeWithPlus.name args)

def boundRule : Rule
  | [⟨"input", input⟩] => do boundAt (← input.tokens?)
  | [⟨"prefix", before⟩, ⟨"path", path⟩, ⟨"rest", rest⟩] => do
    return returning [("bound", (← before.tokens?) ++ (← path.tokens?)), ("rest", ← rest.tokens?)]
  | args => .error (noRules Nonterminal.bound.name args)

def typeListRule : Rule := validateList .typeList .typeWithPlus

def bracketedTypeRule : Rule
  | [⟨"group", group⟩, ⟨"tokens", tokens⟩, ⟨"type", _⟩, ⟨"rest", inner⟩] => do
    afterElementAt group tokens (← inner.tokensOrNone?)
  | args => .error (noRules Nonterminal.bracketedType.name args)

def fnPointerRule : Rule
  | [⟨"prefix", before⟩, ⟨"tokens", tokens⟩] => do fnPointerAt before (← tokens.tokens?)
  | args => .error (noRules Nonterminal.fnPointer.name args)

def qualifiedPathRule : Rule
  | [⟨"prefix", before⟩, ⟨"type", type⟩, ⟨"rest", rest⟩] => do
    afterSelfAt (← before.tokens?) (← type.tokens?) (← rest.tokens?)
  | [⟨"prefix", before⟩, ⟨"path", path⟩, ⟨"rest", rest⟩] => do
    closeQualifiedSelf ((← before.tokens?) ++ (← path.tokens?)) (← rest.tokens?)
  | args => .error (noRules Nonterminal.qualifiedPath.name args)

/-- The rule of each nonterminal. -/
def Nonterminal.rule : Nonterminal → Rule
  | path => pathRule
  | afterIdent => afterIdentRule
  | afterCloseAngle => afterCloseAngleRule
  | inAngleBrackets => inAngleBracketsRule
  | genericParam => genericParamRule
  | fnArgs => fnArgsRule
  | afterFnArgs => afterFnArgsRule
  | type => typeRule
  | typeWithPlus => typeWithPlusRule
  | bound => boundRule
  | typeList => typeListRule
  | bracketedType => bracketedTypeRule
  | fnPointer => fnPointerRule
  | qualifiedPath => qualifiedPathRule

end Expander.Grammar
