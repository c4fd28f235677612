import Expander.Text.Printable

/-!
# Quoted texts

How a text is quoted inside a message: between single quotes, or between double quotes if it holds
a single quote and no double one. The quote that encloses it and the backslash are escaped, line
feed, tab and carriage return have escapes by letter, every other character that is not printable
is given by its code in two, four or eight hexadecimal digits, and the rest stands as it is.
-/

set_option autoImplicit false

namespace Expander.Text

/-- The quote that encloses a text. -/
def enclosingQuote (cs : List Char) : Char :=
  if cs.contains '\x27' && !cs.contains '"' then '"' else '\x27'

/-- The lower hexadecimal digits of a number, zeros in front up to a width. -/
def hexPadded (width n : Nat) : List Char :=
  let ds := Nat.toDigits 16 n
  List.replicate (width - ds.length) '0' ++ ds

/-- The escape of a character by its code, as short as it can be. -/
def codeEscape (c : Char) : List Char :=
  let n := c.toNat
  if n < 0x100 then '\\' :: 'x' :: hexPadded 2 n
  else if n < 0x10000 then '\\' :: 'u' :: hexPadded 4 n
  else '\\' :: 'U' :: hexPadded 8 n

def quoteChar (quote c : Char) : List Char :=
  if c = quote ∨ c = '\\' then ['\\', c]
  else if c = '\n' then ['\\', 'n']
  else if c = '\t' then ['\\', 't']
  else if c = '\r' then ['\\', 'r']
  else if isPrintable c then [c]
  else codeEscape c

/-- A text as it is quoted in a message. -/
def quoted (text : String) : String :=
  let cs := text.toList
  let quote := enclosingQuote cs
  String.ofList (quote :: (cs.flatMap (quoteChar quote) ++ [quote]))

end Expander.Text
