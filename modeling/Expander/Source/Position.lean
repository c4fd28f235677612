/-!
# Positions in a source text

A position is an offset into the text together with the line and the column it falls on. Offsets
count characters from zero, lines and columns count from one, and only the line feed ends a line:
a carriage return and a form feed are columns like any other. `Position.after` is the position
behind a piece of text, so the positions of a text depend on the text before them and on nothing
else (`after_append`).
-/

set_option autoImplicit false

namespace Expander

structure Position where
  offset : Nat
  line : Nat
  column : Nat
deriving DecidableEq, Repr

namespace Position

/-- The position of the first character of a text. -/
def start : Position := ⟨0, 1, 1⟩

/-- The position behind one character. -/
def next (p : Position) (c : Char) : Position :=
  if c = '\n' then ⟨p.offset + 1, p.line + 1, 1⟩ else ⟨p.offset + 1, p.line, p.column + 1⟩

/-- The position behind a piece of text. -/
def after (p : Position) (text : List Char) : Position :=
  text.foldl next p

@[simp] theorem after_nil (p : Position) : p.after [] = p := rfl

@[simp] theorem after_cons (p : Position) (c : Char) (text : List Char) :
    p.after (c :: text) = (p.next c).after text := rfl

theorem after_append (p : Position) (text more : List Char) :
    p.after (text ++ more) = (p.after text).after more :=
  List.foldl_append

end Position

end Expander
