import Expander.Source.Span

/-!
# Token trees

A token is a leaf (an identifier, a lifetime, a literal, a piece of punctuation or a bare character,
with its spelling) or a group: a delimiter around the tokens between its brackets. A group of which
only the bracket is known, with no stream at all, is told apart from a group around nothing. Tokens
carry the span they came from, if they came from a text; `Token.same` compares spelling alone, so
that tokens of different texts compare equal when they read alike.
-/

set_option autoImplicit false

namespace Expander

inductive Delimiter
  | paren
  | bracket
  | brace
deriving DecidableEq, Repr

namespace Delimiter

def opening : Delimiter → Char
  | paren => '('
  | bracket => '['
  | brace => '\x7b'

def closing : Delimiter → Char
  | paren => ')'
  | bracket => ']'
  | brace => '\x7d'

def all : List Delimiter := [paren, bracket, brace]

/-- The delimiter that a text opens, if it opens one. -/
def ofOpening? (text : String) : Option Delimiter :=
  all.find? fun d ↦ text = String.singleton d.opening

end Delimiter

/-- The kinds of tokens that hold no other tokens. A character is one of a text that was put among
tokens: no lexer makes one, and it is of none of the kinds that rules ask for. -/
inductive LeafKind
  | ident
  | lifetime
  | literal
  | punct
  | character
deriving DecidableEq, Repr

inductive Token
  | leaf (kind : LeafKind) (text : String) (span : Option Span)
  | group (delimiter : Delimiter) (span : Option Span) (stream : List Token)
  | hollow (delimiter : Delimiter) (span : Option Span)

instance : Inhabited Token := ⟨.leaf .ident "" none⟩

namespace Token

def span : Token → Option Span
  | leaf _ _ span => span
  | group _ span _ => span
  | hollow _ span => span

/-- The spelling of a leaf, the opening bracket of a group. -/
def text : Token → String
  | leaf _ text _ => text
  | group d _ _ => String.singleton d.opening
  | hollow d _ => String.singleton d.opening

def isKind (kind : LeafKind) : Token → Bool
  | leaf k _ _ => k = kind
  | _ => false

def isIdent : Token → Bool := isKind .ident

def isLifetime : Token → Bool := isKind .lifetime

def isLiteral : Token → Bool := isKind .literal

def isGroup : Token → Bool
  | leaf .. => false
  | _ => true

def isPunct (spelling : String) : Token → Bool
  | leaf .punct text _ => text = spelling
  | _ => false

/-- The delimiter of a group, with a stream or without. -/
def delimiter? : Token → Option Delimiter
  | leaf .. => none
  | group d _ _ => some d
  | hollow d _ => some d

/-- The tokens between the brackets of a group that has a stream. -/
def stream? : Token → Option (List Token)
  | group _ _ stream => some stream
  | _ => none

mutual

/-- Tokens of one spelling: kinds, texts, delimiters and streams agree, wherever they stand. -/
def same : Token → Token → Bool
  | leaf k s _, leaf l t _ => k = l && s = t
  | group d _ ts, group e _ us => d = e && sameAll ts us
  | hollow d _, hollow e _ => d = e
  | _, _ => false

def sameAll : List Token → List Token → Bool
  | [], [] => true
  | t :: ts, u :: us => same t u && sameAll ts us
  | _, _ => false

end

/-- The text of a group around an inner text. -/
def enclose (d : Delimiter) (inner : String) : String :=
  if inner = "" then String.ofList [d.opening, d.closing]
  else String.singleton d.opening ++ " " ++ inner ++ " " ++ String.singleton d.closing

mutual

/-- The spelling of a token on one line, with blanks inside the brackets of a group. -/
def render : Token → String
  | leaf _ text _ => text
  | group d _ stream => enclose d (String.intercalate " " (renderEach stream))
  | hollow d _ => enclose d ""

def renderEach : List Token → List String
  | [] => []
  | t :: ts => t.render :: renderEach ts

end

/-- The spelling of a sequence: its tokens with a blank between neighbours. -/
def renderAll (ts : List Token) : String :=
  String.intercalate " " (ts.map render)

/-- The two halves of a piece of punctuation of two characters, each with the half of the span it
came from. Any other token has no halves. -/
def halves? : Token → Option (Token × Token)
  | leaf .punct text span =>
    match text.toList with
    | [a, b] =>
      let spans := span.map (·.splitAt 1)
      some (leaf .punct (String.singleton a) (spans.map (·.1)),
        leaf .punct (String.singleton b) (spans.map (·.2)))
    | _ => none
  | _ => none

theorem renderEach_eq_map (ts : List Token) : renderEach ts = ts.map render := by
  induction ts with
  | nil => rfl
  | cons t ts ih => simp [renderEach, ih]

end Token

end Expander
