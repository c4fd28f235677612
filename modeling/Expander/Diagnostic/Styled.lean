/-!
# Styled text

Text for a terminal, as lines of segments. A segment knows in which paints it is shown; whether the
paints are written out as escape codes is decided only when it is rendered, so a text with colour
and the same text without differ in nothing but the codes.
-/

set_option autoImplicit false

namespace Expander

inductive Paint
  | bold
  | red
  | blue
  | cyan
deriving DecidableEq, Repr

/-- The escape code that turns a paint on. -/
def Paint.code : Paint → String
  | bold => "\x1b[1m"
  | red => "\x1b[31m"
  | blue => "\x1b[34m"
  | cyan => "\x1b[36m"

/-- The escape code that turns all paints off. -/
def Paint.reset : String := "\x1b[0m"

structure Segment where
  paints : List Paint
  text : String
deriving DecidableEq, Repr

namespace Segment

def plain (text : String) : Segment := ⟨[], text⟩

def render (color : Bool) (s : Segment) : String :=
  if color && !s.paints.isEmpty then
    String.join (s.paints.map Paint.code) ++ s.text ++ Paint.reset
  else s.text

end Segment

/-- A line of styled text, without its end. -/
abbrev StyledLine := List Segment

def StyledLine.render (color : Bool) (line : StyledLine) : String :=
  String.join (List.map (Segment.render color) line)

/-- Lines of styled text, with a line feed between neighbours. -/
abbrev StyledText := List StyledLine

def StyledText.render (color : Bool) (text : StyledText) : String :=
  String.intercalate "\n" (List.map (StyledLine.render color) text)

end Expander
