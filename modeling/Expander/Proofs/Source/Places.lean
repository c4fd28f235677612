import Expander.Source.Span
import Mathlib.Data.List.Induction

/-!
# Places in a text

Lines and columns are counted while a text is walked over, but they say where a place is in the
text: the line counts the line feeds before it, and the column the characters behind the last of
them (`start_after`). So the span of a piece of text is known from where the piece begins and ends
(`between_eq`).
-/

set_option autoImplicit false

namespace Expander

/-- The line of an offset into a text: one more than there are line feeds before it. -/
def lineNumber (text : List Char) (offset : Nat) : Nat := 1 + (text.take offset).count '\n'

/-- The column of an offset into a text: one more than there are characters between the last line
feed before it and the offset. -/
def columnNumber (text : List Char) (offset : Nat) : Nat :=
  ((text.take offset).reverse.takeWhile (· ≠ '\n')).length + 1

/-- The span between two offsets into a text. -/
def spanAt (file : String) (text : List Char) (first last : Nat) : Span :=
  ⟨file, lineNumber text first, columnNumber text first, first, last,
    lineNumber text last, columnNumber text last⟩

/-- The position behind a text has the offset, the line and the column that the text counts up
to. -/
theorem start_after (before behind : List Char) : Position.start.after before =
    ⟨before.length, lineNumber (before ++ behind) before.length,
      columnNumber (before ++ behind) before.length⟩ := by
  rw [lineNumber, columnNumber, List.take_left]
  clear behind
  induction before using List.reverseRecOn with
  | nil => rfl
  | append_singleton before c ih =>
    rw [Position.after_append, ih, Position.after_cons, Position.after_nil, Position.next]
    by_cases hc : c = '\n'
    · simp [hc, Nat.add_assoc]
    · simp [hc]

/-- The span between the ends of two front parts of a text is that between their offsets. -/
theorem between_eq (file : String) {text before before' : List Char} (hfirst : before <+: text)
    (hlast : before' <+: text) :
    Span.between file (Position.start.after before) (Position.start.after before') =
      spanAt file text before.length before'.length := by
  obtain ⟨behind, rfl⟩ := hfirst
  obtain ⟨behind', hbehind'⟩ := hlast
  have hstop := start_after before' behind'
  rw [hbehind'] at hstop
  rw [start_after before behind, hstop, Span.between, spanAt]

end Expander
