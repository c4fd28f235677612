import Expander.Callees.Destinations
import Expander.Callees.Predicates
import Expander.Grammar.Types

/-!
# The standard callees

The callees that every expansion can name: the destinations, the predicates and the nonterminals of
the path and type grammar.
-/

set_option autoImplicit false

namespace Expander

open Grammar

variable {σ : Type}

/-- The standard callees with their handlers. -/
def standardCallees : List (Callee × Handler σ) :=
  Destinations.all ++ Predicate.all.map (fun p ↦ (p.callee, p.rule.handler)) ++
    Nonterminal.all.map (fun n ↦ (n.callee, n.rule.handler))

/-- The registry of the standard callees and of some more, whose names have to differ. -/
def Registry.standardAnd (more : List (Callee × Handler σ)) : Registry (Handler σ) :=
  ⟨standardCallees ++ more⟩

def Registry.standard : Registry (Handler σ) := .standardAnd []

end Expander
