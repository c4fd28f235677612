import Expander.Source.Position

/-!
# Spans

A span says where a piece of source text stands: the file, the line and column of its first
character, and the offset, line and column one past its last. Spans also come from outside the
lexer, so their numbers are integers without a bound and nothing ties them to one another; a span
made by `Span.between` has the numbers of two positions.
-/

set_option autoImplicit false

namespace Expander

structure Span where
  file : String
  line : Int
  column : Int
  start : Int
  stop : Int
  endLine : Int
  endColumn : Int
deriving DecidableEq, Repr

namespace Span

/-- The span from one position up to another. -/
def between (file : String) (first last : Position) : Span :=
  ⟨file, first.line, first.column, first.offset, last.offset, last.line, last.column⟩

/-- The `file:line:column` by which a diagnostic names the span. -/
def text (s : Span) : String :=
  s.file ++ ":" ++ toString s.line ++ ":" ++ toString s.column

/-- Cuts a span of one line behind its first `width` characters. The width is not compared with
the span, and a span that does not know its last line ends on its first. -/
def splitAt (s : Span) (width : Int) : Span × Span :=
  (⟨s.file, s.line, s.column, s.start, s.start + width, s.line, s.column + width⟩,
   ⟨s.file, s.line, s.column + width, s.start + width, s.stop,
    if s.endLine = 0 then s.line else s.endLine, s.endColumn⟩)

end Span

theorem isDigit_of_mem_repr {n : Nat} {c : Char} (h : c ∈ n.repr.toList) : c.isDigit = true := by
  rw [Nat.repr, String.toList_ofList] at h
  exact Nat.isDigit_of_mem_toDigits (by decide) (by decide) h

/-- A number is written with digits, and a sign if it is negative. -/
theorem isDigit_of_mem_toString {number : Int} {c : Char} (h : c ∈ (toString number).toList) :
    c.isDigit = true ∨ c = '-' := by
  cases number with
  | ofNat n => exact .inl (isDigit_of_mem_repr h)
  | negSucc n =>
    have hsign : toString (Int.negSucc n) = "-" ++ n.succ.repr := rfl
    rw [hsign, String.toList_append, List.mem_append] at h
    rcases h with hsign | hdigit
    · exact .inr (List.mem_singleton.mp hsign)
    · exact .inl (isDigit_of_mem_repr hdigit)

end Expander
