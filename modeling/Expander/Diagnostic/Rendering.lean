import Expander.Diagnostic.Basic
import Expander.Diagnostic.Styled

/-!
# Diagnostics as text

A diagnostic is shown as a headline, the place, and, if the source of its file is known, the line
it is anchored at behind a gutter that is as wide as the line's number, with carets under the text
of its span and the label behind them. A help and a note follow below.

A span that ends on a later line is underlined to the end of its first line; one that does not know
where it ends is underlined up to the next blank, comma or closing bracket; and there is always one
caret at least. A line that the source does not have is shown as empty.
-/

set_option autoImplicit false

namespace Expander

/-- The lines of a text. A text that ends with a line feed has an empty last line. -/
def splitLines : List Char → List (List Char)
  | [] => [[]]
  | c :: cs =>
    if c = '\n' then [] :: splitLines cs
    else
      match splitLines cs with
      | [] => [[c]]
      | line :: lines => (c :: line) :: lines

/-- The line of a text with a number counted from one, empty if there is none. -/
def lineAt (source : List Char) (number : Int) : List Char :=
  if number < 1 then [] else ((splitLines source)[(number - 1).toNat]?).getD []

namespace Diagnostic

def spaces (n : Nat) : String := String.ofList (List.replicate n ' ')

/-- An optional text that is there and is not empty. -/
def shown (text : Option String) : Option String := text.filter (· ≠ "")

def heading (s : String) : Segment := ⟨[.bold, .red], s⟩

def strong (s : String) : Segment := ⟨[.bold], s⟩

def gutter (s : String) : Segment := ⟨[.bold, .blue], s⟩

def remark (s : String) : Segment := ⟨[.bold, .cyan], s⟩

def headline (d : Diagnostic) : StyledLine :=
  let code := match shown d.code with
    | some code => "[" ++ code ++ "]"
    | none => ""
  [heading ("error" ++ code), strong (": " ++ d.message)]

/-- The line that names the place, behind a gutter of a width. -/
def placeLine (width : Nat) (place : String) : StyledLine :=
  [gutter (spaces width ++ "--> "), .plain place]

/-- The help and the note, below an empty gutter. -/
def remarks (d : Diagnostic) (width : Nat) : StyledText :=
  let line (title : String) (text : String) : StyledLine :=
    [remark (spaces (width + 1) ++ "= "), strong (title ++ ": "), .plain text]
  let lines := (shown d.help).toList.map (line "help") ++ (shown d.note).toList.map (line "note")
  if lines.isEmpty then [] else [gutter (spaces (width + 1) ++ "|")] :: lines

/-- Ends the underlined text of a span that does not know where it ends. -/
def endsGuess (c : Char) : Bool :=
  c = ' ' || c = '\t' || c = ',' || c = ')' || c = ']' || c = '\x7d'

/-- How many carets stand under a line, the first of them behind `indent` characters. -/
def caretCount (span : Span) (line : List Char) (indent : Nat) : Nat :=
  let column := max span.column 1
  if span.line < span.endLine ∧ span.endLine ≠ 0 then max 1 (line.length - indent)
  else if column < span.endColumn then (span.endColumn - column).toNat
  else max 1 ((line.drop indent).takeWhile (!endsGuess ·)).length

/-- The source line of a span, and the carets and the label below it. -/
def snippet (d : Diagnostic) (span : Span) (source : String) (width : Nat) : StyledText :=
  let line := lineAt source.toList span.line
  let indent := (max span.column 1 - 1).toNat
  let carets := String.ofList
    (List.replicate indent ' ' ++ List.replicate (caretCount span line indent) '^')
  let label := match shown d.label with
    | some label => " " ++ label
    | none => ""
  [[gutter (spaces (width + 1) ++ "|")],
   [gutter (toString span.line ++ " | "), .plain (String.ofList line)],
   [gutter (spaces (width + 1) ++ "| "), heading (carets ++ label)]]

/-- A diagnostic as styled text, where `source?` gives the text of a file if it is known. -/
def styled (source? : String → Option String) (d : Diagnostic) : StyledText :=
  match d.span with
  | none => [d.headline, placeLine 1 "<end of input>"] ++ d.remarks 1
  | some span =>
    match source? span.file with
    | none => [d.headline, placeLine 1 span.text] ++ d.remarks 1
    | some source =>
      let width := (toString span.line).length
      [d.headline, placeLine width span.text] ++ d.snippet span source width ++ d.remarks width

/-- A diagnostic on its own, shown with the source text it came with if that is not empty. -/
def alone (color : Bool) (source : Option String) (d : Diagnostic) : String :=
  (d.styled fun _ ↦ shown source).render color

/-- A message with the place it is about below it. -/
def withPlace (message : String) (span : Option Span) : String :=
  match span with
  | some span => message ++ "\n --> " ++ span.text
  | none => message

end Diagnostic

end Expander
