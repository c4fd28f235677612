import Expander.Token.Basic

/-!
# Terminals

The lexical classes of a source text. `Terminal.width` says how many characters at the front of a
text a terminal takes, if it matches there; `Terminal.first?` gives the terminal that is taken,
which is the first in the order of `Terminal.order` that matches, and not the longest. So a
quotation mark opens a string wherever one can be closed, a quote opens a character before it opens
a lifetime, and `1e5u8` is one number.

All classes are of ASCII characters. A string may run over several lines, and a backslash in it
takes whatever character follows; without its closing mark it is no string at all. A block comment
ends at the first `*/` and does not nest; without an end it is no comment, and its `/` and `*` are
punctuation.
-/

set_option autoImplicit false

namespace Expander

inductive Terminal
  | string
  | char
  | lifetime
  | number
  | word
  | blockComment
  | blank
  | lineComment
  | punct
  | opening (delimiter : Delimiter)
  | closing (delimiter : Delimiter)
deriving DecidableEq, Repr

namespace Terminal

/-! ### Character classes -/

def isWordStart (c : Char) : Bool := c.isAlpha || c = '_'

def isWordChar (c : Char) : Bool := c.isAlphanum || c = '_'

def isDigitChar (c : Char) : Bool := c.isDigit || c = '_'

def isHexDigit (c : Char) : Bool :=
  c.isDigit || ('a' ≤ c && c ≤ 'f') || ('A' ≤ c && c ≤ 'F')

def isBlank (c : Char) : Bool :=
  c = ' ' || c = '\t' || c = '\x0c' || c = '\r' || c = '\n'

/-- The number of characters at the front of a text that are of a class. -/
def run (p : Char → Bool) : List Char → Nat
  | [] => 0
  | c :: cs => if p c then run p cs + 1 else 0

/-! ### Strings, characters and lifetimes -/

/-- The rest of a string behind its opening mark, closing mark included. -/
def stringTail : List Char → Option Nat
  | [] => none
  | '"' :: _ => some 1
  | '\\' :: _ :: cs => (stringTail cs).map (· + 2)
  | '\\' :: [] => none
  | _ :: cs => (stringTail cs).map (· + 1)

/-- A string may be marked by `b`, by `r` or by both in this order. -/
def stringWidth : List Char → Option Nat
  | 'b' :: 'r' :: '"' :: cs => (stringTail cs).map (· + 3)
  | 'b' :: '"' :: cs => (stringTail cs).map (· + 2)
  | 'r' :: '"' :: cs => (stringTail cs).map (· + 2)
  | '"' :: cs => (stringTail cs).map (· + 1)
  | _ => none

/-- Adds the closing quote to something of a known width. -/
def closeQuote (width : Nat) (cs : List Char) : Option Nat :=
  if (cs.drop width).head? = some '\x27' then some (width + 1) else none

/-- The escapes of a character behind the backslash, in the order in which they are tried: a code
point of one to six digits between braces, two digits behind `x`, any character of the line. -/
def escapeWidth (cs : List Char) : Option Nat :=
  let braced := match cs with
    | 'u' :: '\x7b' :: hex =>
      let n := run isHexDigit hex
      if 1 ≤ n ∧ n ≤ 6 ∧ (hex.drop n).head? = some '\x7d' then closeQuote (n + 3) cs else none
    | _ => none
  let byte := match cs with
    | 'x' :: a :: b :: _ => if isHexDigit a && isHexDigit b then closeQuote 3 cs else none
    | _ => none
  let single := match cs with
    | c :: _ => if c = '\n' then none else closeQuote 1 cs
    | [] => none
  braced.or (byte.or single)

/-- The rest of a character behind its opening quote, closing quote included. -/
def charTail : List Char → Option Nat
  | [] => none
  | '\\' :: cs => (escapeWidth cs).map (· + 1)
  | c :: cs => if c = '\x27' ∨ c = '\n' then none else closeQuote 1 (c :: cs)

/-- A character may be marked by `b`. -/
def charWidth : List Char → Option Nat
  | 'b' :: '\x27' :: cs => (charTail cs).map (· + 2)
  | '\x27' :: cs => (charTail cs).map (· + 1)
  | _ => none

/-- A lifetime is a quote and a word with no quote behind it. -/
def lifetimeWidth : List Char → Option Nat
  | '\x27' :: c :: cs =>
    if isWordStart c then
      let n := run isWordChar cs
      if (cs.drop n).head? = some '\x27' then none else some (n + 2)
    else none
  | _ => none

/-! ### Numbers and words -/

/-- A point counts as part of a number if a digit stands behind it. -/
def fractionWidth : List Char → Nat
  | '.' :: d :: cs => if d.isDigit then run isDigitChar cs + 2 else 0
  | _ => 0

/-- The sign of an exponent, if there is one. -/
def signWidth : List Char → Nat
  | '+' :: _ => 1
  | '-' :: _ => 1
  | _ => 0

/-- An exponent has a digit or an underscore behind its sign. -/
def exponentWidth : List Char → Nat
  | c :: cs =>
    if c = 'e' ∨ c = 'E' then
      let sign := signWidth cs
      let n := run isDigitChar (cs.drop sign)
      if n = 0 then 0 else 1 + sign + n
    else 0
  | [] => 0

/-- A number is digits, a fraction, an exponent and a suffix, the last three if they are there. -/
def numberWidth : List Char → Option Nat
  | d :: cs =>
    if d.isDigit then
      let digits := run isDigitChar cs
      let cs := cs.drop digits
      let fraction := fractionWidth cs
      let cs := cs.drop fraction
      let exponent := exponentWidth cs
      let cs := cs.drop exponent
      some (1 + digits + fraction + exponent + run isWordChar cs)
    else none
  | [] => none

def plainWordWidth : List Char → Option Nat
  | c :: cs => if isWordStart c then some (run isWordChar cs + 1) else none
  | [] => none

/-- A word may be marked as raw by `r#`; with no word behind the mark, `r` is a word itself. -/
def wordWidth : List Char → Option Nat
  | 'r' :: '#' :: cs =>
    match plainWordWidth cs with
    | some n => some (n + 2)
    | none => some 1
  | cs => plainWordWidth cs

/-! ### Blanks, comments and punctuation -/

def blankWidth (cs : List Char) : Option Nat :=
  let n := run isBlank cs
  if n = 0 then none else some n

/-- The rest of a block comment behind `/*`, its end included. -/
def blockCommentTail : List Char → Option Nat
  | '*' :: '/' :: _ => some 2
  | _ :: cs => (blockCommentTail cs).map (· + 1)
  | [] => none

def blockCommentWidth : List Char → Option Nat
  | '/' :: '*' :: cs => (blockCommentTail cs).map (· + 2)
  | _ => none

/-- A line comment ends before the line feed. -/
def lineCommentWidth : List Char → Option Nat
  | '/' :: '/' :: cs => some (run (· ≠ '\n') cs + 2)
  | _ => none

/-- The spellings of punctuation, each before the shorter ones it begins with. -/
def spellings : List String :=
  [">>=", "<<=", "...", "..=", "::", "->", "=>", "==", "!=", "<=", ">=", "&&", "||",
   "+=", "-=", "*=", "/=", "%=", "^=", "&=", "|=", "<<", ">>", "..",
   "-", "+", "*", "/", "%", "^", "!", "&", "|", "=", "<", ">", "@", ".", ",", ";", ":", "#",
   "$", "?", "~"]

def punctWidth (cs : List Char) : Option Nat :=
  (spellings.find? fun s ↦ s.toList.isPrefixOf cs).map (·.length)

def bracketWidth (bracket : Char) : List Char → Option Nat
  | c :: _ => if c = bracket then some 1 else none
  | [] => none

/-! ### The choice of a terminal -/

/-- How many characters at the front of a text the terminal takes. -/
def width : Terminal → List Char → Option Nat
  | string => stringWidth
  | char => charWidth
  | lifetime => lifetimeWidth
  | number => numberWidth
  | word => wordWidth
  | blockComment => blockCommentWidth
  | blank => blankWidth
  | lineComment => lineCommentWidth
  | punct => punctWidth
  | opening d => bracketWidth d.opening
  | closing d => bracketWidth d.closing

/-- The order in which the terminals are tried. -/
def order : List Terminal :=
  [string, char, lifetime, number, word, blockComment, blank, lineComment, punct,
   opening .paren, closing .paren, opening .bracket, closing .bracket,
   opening .brace, closing .brace]

/-- The terminal that is taken at the front of a text, with its width. -/
def first? (cs : List Char) : Option (Terminal × Nat) :=
  order.findSome? fun t ↦ (t.width cs).map (t, ·)

end Terminal

end Expander
