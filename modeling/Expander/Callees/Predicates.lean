import Expander.Protocol.Rule

/-!
# Predicates

A predicate takes one token as its `input` and returns a truth value as its only output, so it can
be the condition of a branch.
-/

set_option autoImplicit false

namespace Expander

inductive Predicate
  | isComma
  | isIdent
  | isLifetime
deriving DecidableEq, Repr

namespace Predicate

def all : List Predicate := [isComma, isIdent, isLifetime]

/-- The name of the only output. -/
def output : Predicate → String
  | isComma => "is_comma"
  | isIdent => "is_ident"
  | isLifetime => "is_lifetime"

def callee (p : Predicate) : Callee := ⟨"tt_" ++ p.output, some [p.output]⟩

def test : Predicate → Token → Bool
  | isComma => Token.isPunct ","
  | isIdent => Token.isIdent
  | isLifetime => Token.isLifetime

/-- The only token of an argument list that holds one token as `input` and nothing else. -/
def onlyToken (p : Predicate) (args : List Argument) : Except Failure Token :=
  let refused := Failure.breach .notOneToken (some p.callee.name)
  match args with
  | [⟨"input", value⟩] => do
    if (← value.length?) = 1 then
      match ← value.tokens? with
      | t :: _ => return t
      | [] => throw refused
    else throw refused
  | _ => .error refused

def rule (p : Predicate) : Rule := fun args ↦ do
  let t ← p.onlyToken args
  return .giveBack [.ofTokens p.output (boolean (p.test t))]

end Predicate

end Expander
