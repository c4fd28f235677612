import Expander.Token.Basic

/-!
# Token patterns

A pattern is a test of one token. A spelling matches punctuation and identifiers of that text, and
never a literal, a lifetime or a group. `startsWith` and `isExactly` test a sequence against
patterns position by position and look at no token past the last pattern.
-/

set_option autoImplicit false

namespace Expander

inductive Pattern
  | spelling (text : String)
  | kind (kind : LeafKind)
  | anyGroup
  | group (delimiter : Delimiter)
  | any
deriving DecidableEq, Repr

/-- Whether a token is punctuation or an identifier with a text. -/
def Token.spells (text : String) : Token → Bool
  | .leaf .punct s _ => s = text
  | .leaf .ident s _ => s = text
  | _ => false

def Pattern.holds : Pattern → Token → Bool
  | spelling text, t => t.spells text
  | kind k, t => t.isKind k
  | anyGroup, t => t.isGroup
  | group d, t => t.delimiter? = some d
  | any, _ => true

/-- Whether a sequence is long enough for some patterns and matches them from its front. -/
def startsWith : List Token → List Pattern → Bool
  | _, [] => true
  | [], _ :: _ => false
  | t :: ts, p :: ps => p.holds t && startsWith ts ps

def isExactly (ts : List Token) (ps : List Pattern) : Bool :=
  ts.length = ps.length && startsWith ts ps

end Expander
