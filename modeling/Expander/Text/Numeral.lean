/-!
# Numerals

Whole numbers as they are written in a setting: blanks around, a sign or none, and decimal digits
of any script with single underscores between them. `Numeral.read?` gives the number, and nothing
for any other text. A numeral of more than `Numeral.maxDigits` digits is refused like a text that
is no numeral.
-/

set_option autoImplicit false

namespace Expander.Text

/-- The characters that count as blank around a setting. -/
def isBlank (c : Char) : Bool :=
  let n := c.toNat
  (0x9 ≤ n && n ≤ 0xd) || (0x1c ≤ n && n ≤ 0x20) || n = 0x85 || n = 0xa0 || n = 0x1680 ||
    (0x2000 ≤ n && n ≤ 0x200a) || n = 0x2028 || n = 0x2029 || n = 0x202f || n = 0x205f ||
    n = 0x3000

/-- A text without the blanks at its ends. -/
def strip (cs : List Char) : List Char :=
  ((cs.dropWhile isBlank).reverse.dropWhile isBlank).reverse

/-- The code points of the zeros of all scripts; the other nine digits of a script follow its
zero. -/
def zeros : List Nat :=
  [0x30, 0x660, 0x6f0, 0x7c0, 0x966, 0x9e6, 0xa66, 0xae6, 0xb66, 0xbe6, 0xc66, 0xce6, 0xd66, 0xde6,
   0xe50, 0xed0, 0xf20, 0x1040, 0x1090, 0x17e0, 0x1810, 0x1946, 0x19d0, 0x1a80, 0x1a90, 0x1b50,
   0x1bb0, 0x1c40, 0x1c50, 0xa620, 0xa8d0, 0xa900, 0xa9d0, 0xa9f0, 0xaa50, 0xabf0, 0xff10, 0x104a0,
   0x10d30, 0x11066, 0x110f0, 0x11136, 0x111d0, 0x112f0, 0x11450, 0x114d0, 0x11650, 0x116c0,
   0x11730, 0x118e0, 0x11950, 0x11c50, 0x11d50, 0x11da0, 0x16a60, 0x16ac0, 0x16b50, 0x1d7ce,
   0x1d7d8, 0x1d7e2, 0x1d7ec, 0x1d7f6, 0x1e140, 0x1e2f0, 0x1e950, 0x1fbf0]

/-- The value of a decimal digit of any script. -/
def digit? (c : Char) : Option Nat :=
  (zeros.find? fun z ↦ z ≤ c.toNat && c.toNat ≤ z + 9).map (c.toNat - ·)

namespace Numeral

/-- The most digits that a numeral may have. -/
def maxDigits : Nat := 4300

/-- The digits of an unsigned numeral: at least one, and an underscore only between two. -/
def digits? : List Char → Option (List Nat)
  | [] => none
  | [c] => (digit? c).map ([·])
  | c :: '_' :: cs => do return (← digit? c) :: (← digits? cs)
  | c :: cs => do return (← digit? c) :: (← digits? cs)

/-- The number that digits stand for, the most significant first. -/
def ofDigits (ds : List Nat) : Nat :=
  ds.foldl (fun n d ↦ 10 * n + d) 0

def magnitude? (cs : List Char) : Option Nat :=
  match digits? cs with
  | some ds => if ds.length ≤ maxDigits then some (ofDigits ds) else none
  | none => none

/-- The whole number that a text writes. -/
def read? (cs : List Char) : Option Int :=
  match strip cs with
  | '+' :: cs => (magnitude? cs).map Int.ofNat
  | '-' :: cs => (magnitude? cs).map fun n ↦ -Int.ofNat n
  | cs => (magnitude? cs).map Int.ofNat

end Numeral

end Expander.Text
