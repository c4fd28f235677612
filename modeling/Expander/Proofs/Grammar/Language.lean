import Expander.Proofs.Grammar.Reading
import Expander.Proofs.Token.Unfusing

/-!
# The language of paths and types

The grammar of paths and types, as a relation between its symbols and sequences in which no joined
token is left (`Derives`). It says nothing about how a sequence is read: a bound that follows a plus
may belong to a type inside or to the sum around it.

At one place what is read is less than what could be written. Behind an ampersand the word `mut` is
read as the mark of the reference, also where it could begin the path of a type. Both grammars are
given, told apart by whether the word may begin a path there.
-/

set_option autoImplicit false

namespace Expander.Grammar

inductive Symbol
  | path
  | tail
  /-- What may follow generic arguments. -/
  | after
  /-- Generic parameters between angles, one at least. -/
  | params
  | param
  /-- The result type of a function, if there is one. -/
  | result
  /-- The types between the parentheses of a function. -/
  | types
  /-- The sums between the parentheses of a tuple. -/
  | sums
  | sum
  /-- Bounds, each behind a plus. -/
  | plus
  | bound
  | type
  | function
  /-- The trait of a qualified path, if there is one. -/
  | trait
deriving DecidableEq, Repr

/-- The symbol of a list. -/
def Sequence.symbol : Sequence → Symbol
  | fnArgs => .types
  | typeList => .sums

/-- The symbol of the elements of a list. -/
def Sequence.element : Sequence → Symbol
  | fnArgs => .type
  | typeList => .sum

/-- The words with which no path begins that is a type. -/
def typeWords : List String := ["fn", "unsafe", "extern", "dyn", "impl"]

section

variable (mutIsPath : Prop)

/-- The sequences of each symbol. -/
inductive Derives : Symbol → List Token → Prop
  -- Path := `::`? Ident Tail
  | path {cs ts : List Token} {t : Token} (hcs : Maybe (Token.spells "::") cs)
      (ht : t.isIdent = true) (htail : Derives .tail ts) :
      Derives .path (cs ++ t :: ts)
  -- Tail := Paren(Types) Result | (`::`? `<` Params? `>`)? After
  | called {inner ts : List Token} {span : Option Span} (hinner : Derives .types inner)
      (hresult : Derives .result ts) :
      Derives .tail (.group .paren span inner :: ts)
  | plain {ts : List Token} (hafter : Derives .after ts) : Derives .tail ts
  | empty {cs ts : List Token} {o e : Token} (hcs : Maybe (Token.spells "::") cs)
      (ho : o.spells "<" = true) (he : e.spells ">" = true)
      (hafter : Derives .after ts) : Derives .tail (cs ++ o :: e :: ts)
  | angles {cs ps ts : List Token} {o e : Token} (hcs : Maybe (Token.spells "::") cs)
      (ho : o.spells "<" = true) (hparams : Derives .params ps)
      (he : e.spells ">" = true) (hafter : Derives .after ts) :
      Derives .tail (cs ++ o :: (ps ++ e :: ts))
  -- After := empty | `::` Ident Tail
  | pathEnd : Derives .after []
  | segment {ts : List Token} {c t : Token} (hc : c.spells "::" = true) (ht : t.isIdent = true)
      (htail : Derives .tail ts) : Derives .after (c :: t :: ts)
  -- Params := Param `,`? | Param `,` Params
  | lastParam {ps ms : List Token} (hparam : Derives .param ps)
      (hms : Maybe (Token.spells ",") ms) : Derives .params (ps ++ ms)
  | moreParams {ps qs : List Token} {m : Token} (hparam : Derives .param ps)
      (hm : m.spells "," = true) (hparams : Derives .params qs) :
      Derives .params (ps ++ m :: qs)
  -- Param := Lifetime | Literal | Brace(any) | `-` Literal | Ident `=` Type | Sum
  | single {t : Token}
      (ht : t.isLifetime = true ∨ t.isLiteral = true ∨ t.delimiter? = some .brace) :
      Derives .param [t]
  | negative {m l : Token} (hm : m.spells "-" = true) (hl : l.isLiteral = true) :
      Derives .param [m, l]
  | binding {ts : List Token} {t e : Token} (ht : t.isIdent = true) (he : e.spells "=" = true)
      (htype : Derives .type ts) : Derives .param (t :: e :: ts)
  | typeParam {ts : List Token} (hsum : Derives .sum ts) : Derives .param ts
  -- Result := empty | `->` Type
  | noResult : Derives .result []
  | result {ts : List Token} {a : Token} (ha : a.spells "->" = true)
      (htype : Derives .type ts) : Derives .result (a :: ts)
  -- Types := empty | Type | Type `,` Types
  | noTypes : Derives .types []
  | lastType {ts : List Token} (htype : Derives .type ts) : Derives .types ts
  | moreTypes {ts us : List Token} {m : Token} (htype : Derives .type ts)
      (hm : m.spells "," = true) (htypes : Derives .types us) :
      Derives .types (ts ++ m :: us)
  -- Sums := empty | Sum | Sum `,` Sums
  | noSums : Derives .sums []
  | lastSum {ts : List Token} (hsum : Derives .sum ts) : Derives .sums ts
  | moreSums {ts us : List Token} {m : Token} (hsum : Derives .sum ts)
      (hm : m.spells "," = true) (hsums : Derives .sums us) :
      Derives .sums (ts ++ m :: us)
  -- Sum := Type Plus
  | sum {ts us : List Token} (htype : Derives .type ts)
      (hplus : Derives .plus us) : Derives .sum (ts ++ us)
  -- Plus := empty | `+` Bound Plus
  | noPlus : Derives .plus []
  | plus {ts us : List Token} {a : Token} (ha : a.spells "+" = true)
      (hbound : Derives .bound ts) (hplus : Derives .plus us) :
      Derives .plus (a :: (ts ++ us))
  -- Bound := Lifetime | Paren(any) | `?`? Path
  | simpleBound {t : Token} (ht : t.isLifetime = true ∨ t.delimiter? = some .paren) :
      Derives .bound [t]
  | pathBound {qs ts : List Token} (hqs : Maybe (Token.spells "?") qs)
      (hpath : Derives .path ts) : Derives .bound (qs ++ ts)
  -- Type := Paren(Sums) | Bracket(Type) | Bracket(Type `;` any, one at least)
  | tuple {inner : List Token} {span : Option Span} (hinner : Derives .sums inner) :
      Derives .type [.group .paren span inner]
  | slice {inner : List Token} {span : Option Span} (hinner : Derives .type inner) :
      Derives .type [.group .bracket span inner]
  | array {ts us : List Token} {m : Token} {span : Option Span}
      (htype : Derives .type ts) (hm : m.spells ";" = true) (hus : us ≠ []) :
      Derives .type [.group .bracket span (ts ++ m :: us)]
  -- `&` Lifetime? `mut`? Type
  | reference {ls ms ts : List Token} {a : Token} (ha : a.spells "&" = true)
      (hls : Maybe Token.isLifetime ls) (hms : Maybe (Token.spells "mut") ms)
      (hmut : ms = [] → mutIsPath ∨ startsWith ts ["mut"] = false)
      (htype : Derives .type ts) : Derives .type (a :: (ls ++ ms ++ ts))
  -- `*` (`const` | `mut`) Type | `!` | `_`
  | pointer {ts : List Token} {a m : Token} (ha : a.spells "*" = true)
      (hm : m.spells "const" = true ∨ m.spells "mut" = true)
      (htype : Derives .type ts) : Derives .type (a :: m :: ts)
  | lone {t : Token} (ht : t.spells "!" = true ∨ t.spells "_" = true) :
      Derives .type [t]
  -- Function | (`dyn` | `impl`) Bound Plus
  | fnPointer {ts : List Token} (h : Derives .function ts) : Derives .type ts
  | bounded {ts us : List Token} {t : Token} (ht : t.spells "dyn" = true ∨ t.spells "impl" = true)
      (hbound : Derives .bound ts) (hplus : Derives .plus us) :
      Derives .type (t :: (ts ++ us))
  -- `<` Type Trait `>` `::` Ident Tail
  | qualified {ts as us : List Token} {o e c t : Token} (ho : o.spells "<" = true)
      (htype : Derives .type ts) (htrait : Derives .trait as)
      (he : e.spells ">" = true) (hc : c.spells "::" = true) (ht : t.isIdent = true)
      (htail : Derives .tail us) :
      Derives .type (o :: (ts ++ as ++ e :: c :: t :: us))
  -- Path, with no word of a type in front
  | typePath {ts : List Token} (hpath : Derives .path ts)
      (hwords : ∀ s ∈ typeWords, startsWith ts [.spelling s] = false) : Derives .type ts
  -- Function := `unsafe` Function | `extern` Literal? Function | `fn` Paren(Types) Result
  | unsafeFn {ts : List Token} {t : Token} (ht : t.spells "unsafe" = true)
      (h : Derives .function ts) : Derives .function (t :: ts)
  | externFn {ls ts : List Token} {t : Token} (ht : t.spells "extern" = true)
      (hls : Maybe Token.isLiteral ls) (h : Derives .function ts) :
      Derives .function (t :: (ls ++ ts))
  | fn {inner ts : List Token} {f : Token} {span : Option Span} (hf : f.spells "fn" = true)
      (hinner : Derives .types inner) (hresult : Derives .result ts) :
      Derives .function (f :: .group .paren span inner :: ts)
  -- Trait := empty | `as` Path
  | noTrait : Derives .trait []
  | trait {ts : List Token} {a : Token} (ha : a.spells "as" = true)
      (hpath : Derives .path ts) : Derives .trait (a :: ts)

end

end Expander.Grammar
