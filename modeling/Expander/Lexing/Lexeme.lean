import Expander.Lexing.Terminal

/-!
# Lexemes

A source text is a chain of lexemes, each the text that one terminal takes. `Lexeme.scan` walks
over the characters once: at the first character of a lexeme it asks which terminal is taken there,
and passes over the others. It stops at the first character at which no terminal matches, and gives
the lexemes before it together with where it stopped, so that nothing behind that character is ever
looked at for a lexeme of its own.
-/

set_option autoImplicit false

namespace Expander

structure Lexeme where
  terminal : Terminal
  text : List Char
  first : Position
  last : Position
deriving DecidableEq, Repr

/-- A character at which no terminal matches. -/
structure UnknownStart where
  char : Char
  position : Position
deriving DecidableEq, Repr

namespace Lexeme

/-- The lexemes of a text that begins at a position, after `inside` characters that belong to the
lexeme before. -/
def scan (p : Position) : (inside : Nat) → List Char → List Lexeme × Option UnknownStart
  | _, [] => ([], none)
  | inside + 1, c :: cs => scan (p.next c) inside cs
  | 0, c :: cs =>
    match Terminal.first? (c :: cs) with
    | none => ([], some ⟨c, p⟩)
    | some (terminal, n) =>
      let text := (c :: cs).take n
      let rest := scan (p.next c) (n - 1) cs
      (⟨terminal, text, p, p.after text⟩ :: rest.1, rest.2)

@[simp] theorem scan_nil (p : Position) (inside : Nat) : scan p inside [] = ([], none) := by
  cases inside <;> rfl

/-- The characters that belong to the lexeme before are passed over. -/
theorem scan_inside (p : Position) (inside : Nat) (cs : List Char) :
    scan p inside cs = scan (p.after (cs.take inside)) 0 (cs.drop inside) := by
  induction cs generalizing p inside with
  | nil => simp
  | cons c cs ih =>
    cases inside with
    | zero => rfl
    | succ inside => rw [scan, ih, List.take_succ_cons, Position.after_cons, List.drop_succ_cons]

/-- What a lexeme is to the token tree. -/
inductive Role
  | trivia
  | leaf (kind : LeafKind)
  | opening (delimiter : Delimiter)
  | closing (delimiter : Delimiter)
deriving DecidableEq, Repr

/-- Blanks and comments are trivia, and a lone underscore is punctuation though it is a word. -/
def role (l : Lexeme) : Role :=
  match l.terminal with
  | .string | .char | .number => .leaf .literal
  | .lifetime => .leaf .lifetime
  | .word => if l.text = ['_'] then .leaf .punct else .leaf .ident
  | .punct => .leaf .punct
  | .blockComment | .lineComment | .blank => .trivia
  | .opening d => .opening d
  | .closing d => .closing d

end Lexeme

end Expander
