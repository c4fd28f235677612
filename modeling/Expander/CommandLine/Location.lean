/-!
# Locations of files

The absolute location of a file that is named from a directory. Empty parts and parts `.` go
nowhere, a part `..` goes up by one, and above the root there is nothing. No part is looked up, so
links are not followed.
-/

set_option autoImplicit false

namespace Expander.CommandLine

/-- The parts of a name between its slashes. -/
def splitParts : List Char → List (List Char)
  | [] => [[]]
  | c :: cs =>
    if c = '/' then [] :: splitParts cs
    else
      match splitParts cs with
      | [] => [[c]]
      | part :: parts => (c :: part) :: parts

/-- Goes one part further from a location, of which the last part stands first. -/
def enter (location : List (List Char)) (part : List Char) : List (List Char) :=
  if part = [] ∨ part = ['.'] then location
  else if part = ['.', '.'] then location.drop 1
  else part :: location

def locationText (location : List (List Char)) : String :=
  "/" ++ String.intercalate "/" (location.reverse.map String.ofList)

/-- The absolute location of a name, as seen from a directory. -/
def locate (directory name : String) : String :=
  let origin := if name.toList.head? = some '/' then [] else
    (splitParts directory.toList).foldl enter []
  locationText ((splitParts name.toList).foldl enter origin)

end Expander.CommandLine
