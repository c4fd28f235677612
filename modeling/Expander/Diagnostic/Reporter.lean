import Expander.Diagnostic.Rendering

/-!
# Reporters

A reporter holds the source texts of the files it knows and collects diagnostics in the order in
which they are reported. It shows them one below the other, with a summary of their number at the
end.
-/

set_option autoImplicit false

namespace Expander

structure Reporter where
  sources : List (String × String)
  diagnostics : List Diagnostic
deriving DecidableEq, Repr

namespace Reporter

/-- A reporter of no diagnostics. -/
def ofSources (sources : List (String × String)) : Reporter := ⟨sources, []⟩

/-- The source text of a file. -/
def source? (r : Reporter) (file : String) : Option String := r.sources.lookup file

def report (r : Reporter) (d : Diagnostic) : Reporter :=
  { r with diagnostics := r.diagnostics ++ [d] }

def hasErrors (r : Reporter) : Bool := !r.diagnostics.isEmpty

/-- One diagnostic as text. -/
def format (r : Reporter) (color : Bool) (d : Diagnostic) : String :=
  (d.styled r.source?).render color

/-- The line that closes a report of a number of diagnostics. -/
def summary (count : Nat) : StyledLine :=
  let plural := if count = 1 then "" else "s"
  [Diagnostic.heading "error",
   Diagnostic.strong
     (": aborting due to " ++ toString count ++ " previous error" ++ plural)]

/-- All diagnostics and the summary, with an empty line between neighbours. -/
def formatAll (r : Reporter) (color : Bool) : String :=
  String.intercalate "\n\n"
    (r.diagnostics.map (r.format color) ++ [(summary r.diagnostics.length).render color])

@[simp] theorem source?_report (r : Reporter) (d : Diagnostic) (file : String) :
    (r.report d).source? file = r.source? file := rfl

end Reporter

end Expander
