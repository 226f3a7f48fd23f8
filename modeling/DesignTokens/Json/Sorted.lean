import DesignTokens.Json.Decode

/-!
# Records in sorted order

In a sorted document the names of every record increase, so no name occurs twice.  Of a name that
occurs more than once in the text the last content stays.
-/

namespace DesignTokens.Json

/-- Puts a field among fields with increasing names, in place of the one with its name. -/
def Fields.put (name : String) (j : Json) : Fields → Fields
  | [] => [(name, j)]
  | (n, k) :: rest =>
    if name < n then (name, j) :: (n, k) :: rest
    else if name = n then (name, j) :: rest
    else (n, k) :: Fields.put name j rest

mutual

/-- The document with all its records sorted by name. -/
def sorted : Json → Json
  | list items => list (sortedItems items)
  | record fields => record (sortedFields [] fields)
  | null => null
  | bool b => bool b
  | integer n => integer n
  | real x => real x
  | text s => text s

def sortedItems : List Json → List Json
  | [] => []
  | j :: js => sorted j :: sortedItems js

/-- Sorts fields into those that have been sorted already. -/
def sortedFields (done : Fields) : List (String × Json) → Fields
  | [] => done
  | (name, j) :: rest => sortedFields (done.put name (sorted j)) rest

end

end DesignTokens.Json
