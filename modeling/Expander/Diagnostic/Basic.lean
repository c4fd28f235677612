import Expander.Source.Span

/-!
# Diagnostics

A diagnostic is one report about a source text: its message, the place it is anchored at if it has
one, a code, a label for the underlined text, a help and a note.
-/

set_option autoImplicit false

namespace Expander

structure Diagnostic where
  message : String
  span : Option Span
  code : Option String
  help : Option String
  note : Option String
  label : Option String
deriving DecidableEq, Repr

/-- The code of a report about a token where another was expected. -/
def unexpectedTokenCode : String := "E0001"

/-- The code of a report about a missing token at the end of the input. -/
def unexpectedEndCode : String := "E0002"

/-- The code of a report of the lexer. -/
def lexicalCode : String := "E0003"

end Expander
