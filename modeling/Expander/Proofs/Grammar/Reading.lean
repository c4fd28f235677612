import Expander.Callees.Standard
import Expander.Proofs.Protocol.Evaluation

/-!
# How the grammar reads tokens

The rules of the nonterminals pass tokens about under names. Here the same steps are said without
the names. A `Call` is a nonterminal with the token sequences that a rule of it is given, by their
roles; `Advances` says what the rule does then, one line for each branch; and `Reads` puts the steps
together: which tokens a call gives back and which it leaves, or at which token it faults.

Nothing but these lines is used later. That they are what the rules do is `carries_of_advances`, and
that the rules evaluate to what is read is `Reads.evaluates`, step for step and depth for depth.
-/

set_option autoImplicit false

namespace Expander.Grammar

/-! ### Calls -/

/-- The lists that are only looked at. -/
inductive Sequence
  | fnArgs
  | typeList
deriving DecidableEq, Repr

def Sequence.owner : Sequence → Nonterminal
  | fnArgs => .fnArgs
  | typeList => .typeList

/-- The returns that put what was read behind what is kept, and do nothing else. -/
inductive Return
  | path
  | binding
  | param
  | arrow
  | type
  | typePath
  | prefixed
  | bound
deriving DecidableEq, Repr

namespace Return

def owner : Return → Nonterminal
  | path => .path
  | binding | param => .genericParam
  | arrow => .afterFnArgs
  | type | typePath | prefixed => .type
  | bound => .bound

/-- What is kept, with its name. -/
def state (before : List Token) : Return → List (String × List Token)
  | path | prefixed | bound => [("prefix", before)]
  | binding => [("assoc", before)]
  | arrow => [("path", before)]
  | param | type | typePath => []

@[simp] def kept (before : List Token) : Return → List Token
  | path | prefixed | bound | binding | arrow => before
  | param | type | typePath => []

/-- The name under which comes what was read. -/
def part : Return → String
  | path | typePath | bound => "path"
  | binding | param | arrow | type | prefixed => "type"

end Return

/-- A nonterminal on token sequences: `before` is what belongs to it already, `read` what
the last call gave back, and the last sequence is what it goes on with. -/
inductive Call
  | path (ts : List Token)
  | tail (before ts : List Token)
  | after (before ts : List Token)
  | more (before read ts : List Token)
  | param (ts : List Token)
  | arrow (before ts : List Token)
  | list (s : Sequence) (ts : List Token)
  | separator (s : Sequence) (element ts : List Token)
  | type (ts : List Token)
  | summed (ts : List Token)
  | summands (before ts : List Token)
  | summand (before read ts : List Token)
  | bounds (before read ts : List Token)
  | bound (ts : List Token)
  | arrayEnd (group behind element ts : List Token)
  | pointer (before ts : List Token)
  /-- A type and what makes a qualified path of it. -/
  | self (angle ts : List Token)
  | afterSelf (before read ts : List Token)
  | selfEnd (before read ts : List Token)
  | back (r : Return) (before read ts : List Token)

namespace Call

/-- The nonterminal that is run. -/
def owner : Call → Nonterminal
  | path _ => .path
  | tail .. => .afterIdent
  | after .. => .afterCloseAngle
  | more .. => .inAngleBrackets
  | param _ => .genericParam
  | arrow .. => .afterFnArgs
  | list s _ | separator s .. => s.owner
  | type _ | bounds .. | self .. => .type
  | summed _ | summands .. | summand .. => .typeWithPlus
  | bound _ => .bound
  | arrayEnd .. => .bracketedType
  | pointer .. => .fnPointer
  | afterSelf .. | selfEnd .. => .qualifiedPath
  | back r .. => r.owner

/-- The token sequences with the names that the rules know them by. -/
def parts : Call → List (String × List Token)
  | path ts | tail [] ts | param ts | type ts | summed ts | bound ts | self _ ts => [("input", ts)]
  | tail before ts | after before ts | arrow before ts => [("path", before), ("tokens", ts)]
  | more before read ts => [("prefix", before), ("param", read), ("rest", ts)]
  | list _ ts => [("tokens", ts)]
  | separator _ element ts => [("type", element), ("rest", ts)]
  | summands before ts => [("type", before), ("rest", ts)]
  | summand before read ts | bounds before read ts =>
    [("prefix", before), ("bound", read), ("rest", ts)]
  | arrayEnd group behind element ts =>
    [("group", group), ("tokens", behind), ("type", element), ("rest", ts)]
  | pointer before ts => [("prefix", before), ("tokens", ts)]
  | afterSelf before read ts => [("prefix", before), ("type", read), ("rest", ts)]
  | selfEnd before read ts => [("prefix", before), ("path", read), ("rest", ts)]
  | back r before read ts => r.state before ++ [(r.part, read), ("rest", ts)]

/-- The arguments with which the nonterminal is run. -/
def args (c : Call) : List Argument := c.parts.map fun part ↦ .ofTokens part.1 part.2

/-- What still waits for the nonterminal's return before the call is at its end. -/
def waiting : Call → List Resumption
  | self angle _ => [resuming .qualifiedPath [("prefix", angle)]]
  | _ => []

/-- The names of what the call gives back. -/
def outputs : Call → List String
  | self .. => Nonterminal.qualifiedPath.outputs
  | c => c.owner.outputs

end Call

/-- What a call comes to: the tokens that it gives back and those that it leaves, or a fault. -/
abbrev Parsed := Except Fault (List Token × List Token)

/-- What is given back under the names of some outputs, if there are any. -/
def given (names : List String) (first rest : List Token) : List Argument :=
  (names.zip [first, rest]).map fun part ↦ .ofTokens part.1 part.2

/-- What a call comes to as a return. -/
def Call.returned (c : Call) : Parsed → Returned
  | .ok (first, rest) => .ok (given c.outputs first rest)
  | .error f => .error (.fault f)

/-! ### Steps -/

/-- What a call does in one step. -/
inductive Plan
  | fault (f : Fault)
  | done (first rest : List Token)
  | go (c : Call)
  /-- Another call, and then one that depends on what that gives back and leaves. -/
  | part (c : Call) (next : List Token → List Token → Call)

/-- Nothing, or one token of a kind. -/
inductive Maybe (p : Token → Bool) : List Token → Prop
  | none : Maybe p []
  | one {t : Token} (h : p t = true) : Maybe p [t]

/-- The spellings with which a type begins that is no path. -/
def typeStarts : List String :=
  ["&", "&&", "*", "!", "_", "fn", "unsafe", "extern", "dyn", "impl", "<", "<<"]

/-- The steps at the end of the self type of a qualified path. -/
inductive EndsSelf (before : List Token) : List Token → Plan → Prop
  | item {e c t : Token} {ts : List Token} (he : e.spells ">" = true) (hc : c.spells "::" = true)
      (ht : t.isIdent = true) :
      EndsSelf before (e :: c :: t :: ts) (.go (.tail (before ++ [e, c, t]) ts))
  | noIdent {e c t : Token} {ts : List Token} (he : e.spells ">" = true)
      (hc : c.spells "::" = true) (ht : t.isIdent = false) :
      EndsSelf before (e :: c :: t :: ts) (.fault (.unexpected t))
  | noItem {e t : Token} {ts : List Token} (he : e.spells ">" = true ∨ e.spells ">>" = true)
      (hitem : startsWith (e :: ts) [">", "::"] = true → ts.length = 1)
      (ht : (e :: ts.take 1).getLast? = some t) :
      EndsSelf before (e :: ts) (.fault (.unexpected t))
  | unclosed {t : Token} (ht : before.getLast? = some t) :
      EndsSelf before [] (.fault (.unexpected t))
  | noAngle {t : Token} {ts : List Token} (hone : t.spells ">" = false)
      (htwo : t.spells ">>" = false) : EndsSelf before (t :: ts) (.fault (.unexpected t))

/-- The step of each call. -/
inductive Advances : Call → Plan → Prop
  -- Paths.
  | rooted {c t : Token} {ts : List Token} (hc : c.spells "::" = true) (ht : t.isIdent = true) :
      Advances (.path (c :: t :: ts)) (.part (.tail [] ts) (.back .path [c, t]))
  | plain {t : Token} {ts : List Token} (ht : t.isIdent = true) (hc : t.spells "::" = false) :
      Advances (.path (t :: ts)) (.part (.tail [] ts) (.back .path [t]))
  | noPath : Advances (.path []) (.fault .endOfInput)
  | rootedNoIdent {c t : Token} {ts : List Token} (hc : c.spells "::" = true)
      (hident : c.isIdent = false) (ht : t.isIdent = false) :
      Advances (.path (c :: t :: ts)) (.fault (.unexpected t))
  | noIdent {t : Token} {ts : List Token} (ht : t.isIdent = false)
      (hc : t.spells "::" = true → ts = []) :
      Advances (.path (t :: ts)) (.fault (.unexpected t))
  -- What follows an identifier of a path.
  | empty {before cs ts : List Token} {o e : Token} (hcs : Maybe (Token.spells "::") cs)
      (ho : o.spells "<" = true) (he : e.spells ">" = true) :
      Advances (.tail before (cs ++ o :: e :: ts)) (.go (.after (before ++ cs ++ [o, e]) ts))
  | emptyFused {before cs ts : List Token} {o e e₁ e₂ : Token} (hcs : Maybe (Token.spells "::") cs)
      (ho : o.spells "<" = true) (he : e.spells ">>" = true) (hcut : e.halves? = some (e₁, e₂)) :
      Advances (.tail before (cs ++ o :: e :: ts)) (.done (before ++ cs ++ [o, e₁]) (e₂ :: ts))
  | opening {before cs ts : List Token} {o : Token} (hcs : Maybe (Token.spells "::") cs)
      (ho : o.spells "<" = true) (hts : ts ≠ []) (hone : startsWith ts [">"] = false)
      (htwo : startsWith ts [">>"] = false) :
      Advances (.tail before (cs ++ o :: ts)) (.part (.param ts) (.more (before ++ cs ++ [o])))
  | openingFused {before cs ts : List Token} {o o₁ o₂ : Token}
      (hcs : Maybe (Token.spells "::") cs) (ho : o.spells "<<" = true)
      (hcut : o.halves? = some (o₁, o₂)) (hts : cs = [] ∨ ts ≠ []) :
      Advances (.tail before (cs ++ o :: ts))
        (.part (.param (o₂ :: ts)) (.more (before ++ cs ++ [o₁])))
  | openingLast {before : List Token} {o : Token} (ho : o.spells "<" = true) :
      Advances (.tail before [o]) (.fault (.unexpected o))
  | fnArgs {before ts inner : List Token} {span : Option Span} :
      Advances (.tail before (.group .paren span inner :: ts))
        (.part (.list .fnArgs inner) fun _ _ ↦ .arrow (before ++ [.group .paren span inner]) ts)
  | noArgs {before ts : List Token} (hone : startsWith ts ["<"] = false)
      (htwo : startsWith ts ["<<"] = false) (hparen : startsWith ts [.group .paren] = false)
      (hturbo : startsWith ts ["::", "<"] = true → ts.length = 2)
      (hturboFused : startsWith ts ["::", "<<"] = true → ts.length = 2) :
      Advances (.tail before ts) (.go (.after before ts))
  -- What follows generic arguments.
  | segment {before ts : List Token} {c t : Token} (hc : c.spells "::" = true)
      (ht : t.isIdent = true) :
      Advances (.after before (c :: t :: ts)) (.go (.tail (before ++ [c, t]) ts))
  | segmentNoIdent {before ts : List Token} {c t : Token} (hc : c.spells "::" = true)
      (ht : t.isIdent = false) :
      Advances (.after before (c :: t :: ts)) (.fault (.unexpected t))
  | pathEnd {before ts : List Token} (h : startsWith ts ["::"] = true → ts.length = 1) :
      Advances (.after before ts) (.done before ts)
  -- What follows a generic parameter.
  | close {before read ms ts : List Token} {e : Token} (hms : Maybe (Token.spells ",") ms)
      (he : e.spells ">" = true) :
      Advances (.more before read (ms ++ e :: ts)) (.go (.after (before ++ read ++ ms ++ [e]) ts))
  | closeFused {before read ms ts : List Token} {e e₁ e₂ : Token}
      (hms : Maybe (Token.spells ",") ms) (he : e.spells ">>" = true)
      (hcut : e.halves? = some (e₁, e₂)) :
      Advances (.more before read (ms ++ e :: ts))
        (.done (before ++ read ++ ms ++ [e₁]) (e₂ :: ts))
  | comma {before read ts : List Token} {m : Token} (hm : m.spells "," = true) (hts : ts ≠ [])
      (hone : startsWith ts [">"] = false) (htwo : startsWith ts [">>"] = false) :
      Advances (.more before read (m :: ts)) (.part (.param ts) (.more (before ++ read ++ [m])))
  | leftOpen {before read : List Token} {t : Token} (ht : read.getLast? = some t) :
      Advances (.more before read []) (.fault (.unexpected t))
  | noComma {before read ts : List Token} {t : Token} (hone : t.spells ">" = false)
      (htwo : t.spells ">>" = false) (hm : t.spells "," = true → ts = []) :
      Advances (.more before read (t :: ts)) (.fault (.unexpected t))
  -- Generic parameters.
  | single {ts : List Token} {t : Token}
      (ht : t.isLifetime = true ∨ t.isLiteral = true ∨ t.delimiter? = some .brace) :
      Advances (.param (t :: ts)) (.done [t] ts)
  | negative {ts : List Token} {m l : Token} (hm : m.spells "-" = true) (hl : l.isLiteral = true) :
      Advances (.param (m :: l :: ts)) (.done [m, l] ts)
  | binding {ts : List Token} {t e : Token} (ht : t.isIdent = true) (he : e.spells "=" = true)
      (hts : ts ≠ []) :
      Advances (.param (t :: e :: ts)) (.part (.type ts) (.back .binding [t, e]))
  | noParam : Advances (.param []) (.fault .endOfInput)
  | typeParam {ts : List Token} {t : Token} (hlifetime : t.isLifetime = false)
      (hliteral : t.isLiteral = false) (hbrace : t.delimiter? ≠ some .brace)
      (hbinding : startsWith (t :: ts) [ident, "="] = true → ts.length = 1)
      (hnegative : startsWith (t :: ts) ["-", literal] = false) :
      Advances (.param (t :: ts)) (.part (.summed (t :: ts)) (.back .param []))
  -- What follows function arguments.
  | arrow {before ts : List Token} {a : Token} (ha : a.spells "->" = true) (hts : ts ≠ []) :
      Advances (.arrow before (a :: ts)) (.part (.type ts) (.back .arrow (before ++ [a])))
  | arrowLast {before : List Token} {a : Token} (ha : a.spells "->" = true) :
      Advances (.arrow before [a]) (.fault (.unexpected a))
  | noArrow {before ts : List Token} (h : startsWith ts ["->"] = false) :
      Advances (.arrow before ts) (.done before ts)
  -- Lists that are only looked at.
  | listEnd {s : Sequence} : Advances (.list s []) (.done [] [])
  | listType {ts : List Token} (h : ts ≠ []) :
      Advances (.list .fnArgs ts) (.part (.type ts) (.separator .fnArgs))
  | listSummed {ts : List Token} (h : ts ≠ []) :
      Advances (.list .typeList ts) (.part (.summed ts) (.separator .typeList))
  | separatorEnd {s : Sequence} {element : List Token} :
      Advances (.separator s element []) (.done [] [])
  | separator {s : Sequence} {element ts : List Token} {m : Token} (hm : m.spells "," = true) :
      Advances (.separator s element (m :: ts)) (.go (.list s ts))
  | noSeparator {s : Sequence} {element ts : List Token} {t : Token} (ht : t.spells "," = false) :
      Advances (.separator s element (t :: ts)) (.fault (.unexpected t))
  -- Types.
  | noType : Advances (.type []) (.fault .endOfInput)
  | tuple {ts inner : List Token} {span : Option Span} :
      Advances (.type (.group .paren span inner :: ts))
        (.part (.list .typeList inner) fun _ _ ↦ .back .type [] [.group .paren span inner] ts)
  | bracketed {ts inner : List Token} {span : Option Span} (h : inner ≠ []) :
      Advances (.type (.group .bracket span inner :: ts))
        (.part (.type inner) (.arrayEnd [.group .bracket span inner] ts))
  | bracketedEmpty {ts : List Token} {span : Option Span} :
      Advances (.type (.group .bracket span [] :: ts))
        (.fault (.unexpected (.group .bracket span [])))
  | reference {a : Token} {ls ms ts : List Token}
      (ha : a.spells "&" = true ∨ a.spells "&&" = true) (hls : Maybe Token.isLifetime ls)
      (hms : Maybe (Token.spells "mut") ms)
      (hnoLifetime : ls = [] → startsWith (ms ++ ts) [lifetime] = false)
      (hnoMut : ms = [] → startsWith ts ["mut"] = false) (hts : ts ≠ []) :
      Advances (.type (a :: (ls ++ ms ++ ts)))
        (.part (.type ts) (.back .prefixed (a :: (ls ++ ms))))
  | referenceLast {a t : Token} {ls ms : List Token}
      (ha : a.spells "&" = true ∨ a.spells "&&" = true) (hls : Maybe Token.isLifetime ls)
      (hms : Maybe (Token.spells "mut") ms) (ht : (a :: (ls ++ ms)).getLast? = some t) :
      Advances (.type (a :: (ls ++ ms))) (.fault (.unexpected t))
  | pointer {a m : Token} {ts : List Token} (ha : a.spells "*" = true)
      (hm : m.spells "const" = true ∨ m.spells "mut" = true) (hts : ts ≠ []) :
      Advances (.type (a :: m :: ts)) (.part (.type ts) (.back .prefixed [a, m]))
  | pointerLast {a m : Token} (ha : a.spells "*" = true)
      (hm : m.spells "const" = true ∨ m.spells "mut" = true) :
      Advances (.type [a, m]) (.fault (.unexpected m))
  | pointerNoMark {a t : Token} {ts : List Token} (ha : a.spells "*" = true)
      (hconst : t.spells "const" = false) (hmut : t.spells "mut" = false) :
      Advances (.type (a :: t :: ts)) (.fault (.unexpected t))
  | pointerOnly {a : Token} (ha : a.spells "*" = true) :
      Advances (.type [a]) (.fault (.unexpected a))
  | lone {t : Token} {ts : List Token} (ht : t.spells "!" = true ∨ t.spells "_" = true) :
      Advances (.type (t :: ts)) (.done [t] ts)
  | fnPointer {t : Token} {ts : List Token}
      (ht : t.spells "fn" = true ∨ t.spells "unsafe" = true ∨ t.spells "extern" = true) :
      Advances (.type (t :: ts)) (.part (.pointer [] (t :: ts)) (.back .typePath []))
  | bounded {t : Token} {ts : List Token} (ht : t.spells "dyn" = true ∨ t.spells "impl" = true)
      (hts : ts ≠ []) : Advances (.type (t :: ts)) (.part (.bound ts) (.bounds [t]))
  | boundedLast {t : Token} (ht : t.spells "dyn" = true ∨ t.spells "impl" = true) :
      Advances (.type [t]) (.fault (.unexpected t))
  | qualified {o : Token} {ts : List Token} (ho : o.spells "<" = true) (hts : ts ≠ []) :
      Advances (.type (o :: ts)) (.part (.self [o] ts) (.back .typePath []))
  | qualifiedLast {o : Token} (ho : o.spells "<" = true) :
      Advances (.type [o]) (.fault (.unexpected o))
  | qualifiedFused {o o₁ o₂ : Token} {ts : List Token} (ho : o.spells "<<" = true)
      (hcut : o.halves? = some (o₁, o₂)) :
      Advances (.type (o :: ts)) (.part (.self [o₁] (o₂ :: ts)) (.back .typePath []))
  | typePath {t : Token} {ts : List Token} (ht : t.spells "::" = true ∨ t.isIdent = true)
      (hstart : ∀ s ∈ typeStarts, t.spells s = false) :
      Advances (.type (t :: ts)) (.part (.path (t :: ts)) (.back .typePath []))
  | noTypeStart {t : Token} {ts : List Token} (ht : t.isIdent = false)
      (hc : t.spells "::" = false) (hstart : ∀ s ∈ typeStarts, t.spells s = false)
      (hparen : t.delimiter? ≠ some .paren) (hbracket : t.delimiter? ≠ some .bracket) :
      Advances (.type (t :: ts)) (.fault (.unexpected t))
  -- Sums of bounds.
  | summed {ts : List Token} : Advances (.summed ts) (.part (.type ts) .summands)
  | summand {before bound ts : List Token} :
      Advances (.summand before bound ts) (.go (.summands (before ++ bound) ts))
  | plus {before ts : List Token} {a : Token} (ha : a.spells "+" = true) (hts : ts ≠ []) :
      Advances (.summands before (a :: ts)) (.part (.bound ts) (.summand (before ++ [a])))
  | plusLast {before : List Token} {a : Token} (ha : a.spells "+" = true) :
      Advances (.summands before [a]) (.fault (.unexpected a))
  | noPlus {before ts : List Token} (h : startsWith ts ["+"] = false) :
      Advances (.summands before ts) (.done before ts)
  | boundPlus {before bound ts : List Token} {a : Token} (ha : a.spells "+" = true)
      (hts : ts ≠ []) :
      Advances (.bounds before bound (a :: ts))
        (.part (.bound ts) (.bounds (before ++ bound ++ [a])))
  | boundPlusLast {before bound : List Token} {a : Token} (ha : a.spells "+" = true) :
      Advances (.bounds before bound [a]) (.fault (.unexpected a))
  | boundNoPlus {before bound ts : List Token} (h : startsWith ts ["+"] = false) :
      Advances (.bounds before bound ts) (.done (before ++ bound) ts)
  -- Bounds.
  | simpleBound {t : Token} {ts : List Token}
      (ht : t.isLifetime = true ∨ t.delimiter? = some .paren) :
      Advances (.bound (t :: ts)) (.done [t] ts)
  | maybeBound {q : Token} {ts : List Token} (hq : q.spells "?" = true) (hts : ts ≠ []) :
      Advances (.bound (q :: ts)) (.part (.path ts) (.back .bound [q]))
  | maybeBoundLast {q : Token} (hq : q.spells "?" = true) :
      Advances (.bound [q]) (.fault (.unexpected q))
  | pathBound {t : Token} {ts : List Token} (ht : t.spells "::" = true ∨ t.isIdent = true)
      (hq : t.spells "?" = false) :
      Advances (.bound (t :: ts)) (.part (.path (t :: ts)) (.back .bound []))
  | noBound : Advances (.bound []) (.fault .endOfInput)
  | noBoundStart {t : Token} {ts : List Token} (hlifetime : t.isLifetime = false)
      (hparen : t.delimiter? ≠ some .paren) (hq : t.spells "?" = false) (hc : t.spells "::" = false)
      (ht : t.isIdent = false) : Advances (.bound (t :: ts)) (.fault (.unexpected t))
  -- Slices and arrays.
  | arrayEnd {group behind element ts : List Token}
      (h : ts = [] ∨ startsWith ts [";"] = true ∧ 1 < ts.length) :
      Advances (.arrayEnd group behind element ts) (.done group behind)
  | noArrayEnd {group behind element ts : List Token} {t : Token}
      (h : t.spells ";" = true → ts = []) :
      Advances (.arrayEnd group behind element (t :: ts)) (.fault (.unexpected t))
  -- Function pointers.
  | fn {before ts inner : List Token} {f : Token} {span : Option Span} (hf : f.spells "fn" = true) :
      Advances (.pointer before (f :: .group .paren span inner :: ts))
        (.part (.list .fnArgs inner)
          fun _ _ ↦ .arrow (before ++ [f, .group .paren span inner]) ts)
  | unsafeFn {before ts : List Token} {t : Token} (ht : t.spells "unsafe" = true) :
      Advances (.pointer before (t :: ts)) (.go (.pointer (before ++ [t]) ts))
  | externFn {before ls ts : List Token} {t : Token} (ht : t.spells "extern" = true)
      (hls : Maybe Token.isLiteral ls) (hnone : ls = [] → startsWith ts [literal] = false) :
      Advances (.pointer before (t :: (ls ++ ts))) (.go (.pointer (before ++ t :: ls) ts))
  | fnNoArgs {before ts : List Token} {f t : Token} (hf : f.spells "fn" = true)
      (ht : t.delimiter? ≠ some .paren) :
      Advances (.pointer before (f :: t :: ts)) (.fault (.unexpected t))
  | pointerEmpty {before : List Token} {t : Token} (ht : before.getLast? = some t) :
      Advances (.pointer before []) (.fault (.unexpected t))
  | noFn {before ts : List Token} {t : Token} (hmark : t.spells "unsafe" = false)
      (habi : t.spells "extern" = false) (hfn : t.spells "fn" = true → ts = []) :
      Advances (.pointer before (t :: ts)) (.fault (.unexpected t))
  -- Qualified paths.
  | self {angle ts : List Token} : Advances (.self angle ts) (.part (.type ts) (.afterSelf angle))
  | asPath {before type ts : List Token} {a : Token} (ha : a.spells "as" = true) (hts : ts ≠ []) :
      Advances (.afterSelf before type (a :: ts))
        (.part (.path ts) (.selfEnd (before ++ type ++ [a])))
  | noAs {before type ts : List Token} {p : Plan}
      (h : startsWith ts ["as"] = true → ts.length = 1) (hend : EndsSelf (before ++ type) ts p) :
      Advances (.afterSelf before type ts) p
  | selfEnd {before path ts : List Token} {p : Plan} (hend : EndsSelf (before ++ path) ts p) :
      Advances (.selfEnd before path ts) p
  -- Returns.
  | back {r : Return} {before read ts : List Token} :
      Advances (.back r before read ts)
        (.done (r.kept before ++ read) ts)

/-- What a call comes to by steps of some depths, in order. A step of `self` is one of its type. -/
inductive Reads : Call → List Nat → Parsed → Prop
  | fault {c : Call} {f : Fault} (h : Advances c (.fault f)) : Reads c [0] (.error f)
  | done {c : Call} {first rest : List Token} (h : Advances c (.done first rest)) :
      Reads c [0] (.ok (first, rest))
  | go {c c' : Call} {ds : List Nat} {r : Parsed} (h : Advances c (.go c')) (hgo : Reads c' ds r) :
      Reads c (0 :: ds) r
  | part {c c' : Call} {next : List Token → List Token → Call} {ds ds' : List Nat}
      {first rest : List Token} {r : Parsed} (h : Advances c (.part c' next))
      (hpart : Reads c' ds (.ok (first, rest))) (hnext : Reads (next first rest) ds' r) :
      Reads c ((if c.waiting.isEmpty then [0] else []) ++ (ds.map (· + 1) ++ ds')) r
  | lost {c c' : Call} {next : List Token → List Token → Call} {ds : List Nat} {f : Fault}
      (h : Advances c (.part c' next)) (hpart : Reads c' ds (.error f)) :
      Reads c ((if c.waiting.isEmpty then [0] else []) ++ ds.map (· + 1)) (.error f)

end Expander.Grammar
