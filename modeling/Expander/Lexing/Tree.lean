import Expander.Lexing.Lexeme

/-!
# Token trees of a source text

`lex` makes the token trees of a text. The lexemes are taken one by one over the groups that are
open, outermost last; a closing bracket ends the innermost group if it is of its delimiter, and is
an error otherwise. The first thing wrong is what is reported: a stray closing bracket stands
before a character that no terminal matches, since the scan stops there, and groups left open are
an error only of a text that is otherwise sound. That one is reported where a second walk over the
lexemes finds a bracket still open, and the second walk does not look at delimiters.
-/

set_option autoImplicit false

namespace Expander

/-- What is wrong with a source text. -/
inductive LexCause
  | unknownStart (char : Char)
  | strayCloser (delimiter : Delimiter)
  | unclosed
deriving DecidableEq, Repr

/-- An error of the lexer, with the place it is reported at. -/
structure LexError where
  cause : LexCause
  span : Option Span
  source : String
deriving DecidableEq, Repr

namespace Lexing

/-- An open group: its bracket, and the tokens that stand before it, last first. -/
structure Level where
  delimiter : Delimiter
  bracket : Lexeme
  before : List Token

/-- The groups that are open, innermost first, and the tokens so far of the innermost, last
first. -/
structure Trees where
  levels : List Level
  done : List Token

def Trees.empty : Trees := ⟨[], []⟩

/-- Takes one lexeme; fails at a closing bracket that does not close the innermost group. -/
def Trees.push (file : String) (t : Trees) (l : Lexeme) : Except (LexCause × Option Span) Trees :=
  match l.role with
  | .trivia => .ok t
  | .leaf kind =>
    .ok { t with done := .leaf kind (String.ofList l.text) (some (.between file l.first l.last))
                   :: t.done }
  | .opening d => .ok ⟨⟨d, l, t.done⟩ :: t.levels, []⟩
  | .closing d =>
    match t.levels with
    | [] => .error (.strayCloser d, some (.between file l.first l.last))
    | level :: outer =>
      if level.delimiter = d then
        let span := Span.between file level.bracket.first l.last
        .ok ⟨outer, .group d (some span) t.done.reverse :: level.before⟩
      else .error (.strayCloser d, some (.between file l.first l.last))

/-- The brackets that are open behind one more lexeme, last first. A closing bracket closes the one
opened last, of whatever delimiter. -/
def track (unclosed : List Lexeme) (l : Lexeme) : List Lexeme :=
  match l.role with
  | .opening _ => l :: unclosed
  | .closing _ => unclosed.tail
  | _ => unclosed

/-- The place of the bracket opened last of those that are open behind some lexemes. -/
def unclosedSpan (file : String) (lexemes : List Lexeme) : Option Span :=
  (lexemes.foldl track []).head?.map fun l ↦ .between file l.first l.last

/-- The trees of lexemes that have been taken to their end. -/
def Trees.finish (file : String) (lexemes : List Lexeme) (t : Trees) :
    Except (LexCause × Option Span) (List Token) :=
  match t.levels with
  | [] => .ok t.done.reverse
  | _ :: _ => .error (.unclosed, unclosedSpan file lexemes)

/-- The place of a character at which no terminal matches. -/
def unknownSpan (file : String) (u : UnknownStart) : Span :=
  .between file u.position
    ⟨u.position.offset + 1, u.position.line, u.position.column + 1⟩

/-- The trees of the lexemes, or the first thing wrong with them. -/
def trees (file : String) (lexemes : List Lexeme × Option UnknownStart) :
    Except (LexCause × Option Span) (List Token) := do
  let t ← lexemes.1.foldlM (Trees.push file) Trees.empty
  match lexemes.2 with
  | some u => .error (.unknownStart u.char, some (unknownSpan file u))
  | none => t.finish file lexemes.1

end Lexing

/-- The token trees of a source text. -/
def lex (file source : String) : Except LexError (List Token) :=
  match Lexing.trees file (Lexeme.scan .start 0 source.toList) with
  | .ok ts => .ok ts
  | .error (cause, span) => .error ⟨cause, span, source⟩

end Expander
