import DesignTokens.Double

/-!
# JSON documents

Records keep their fields in the order of the text, repeated names included; what a repeated name
means is up to whoever reads the record.
-/

namespace DesignTokens

inductive Json where
  | null
  | bool (b : Bool)
  | integer (n : Int)
  | real (x : Double)
  | text (s : String)
  | list (items : List Json)
  | record (fields : List (String × Json))

namespace Json

def ofNat (n : Nat) : Json := integer n

def texts (ss : List String) : Json := list (ss.map text)

/-- A value that may be missing; a missing one is written as `null`. -/
def orNull {α : Type} (write : α → Json) : Option α → Json
  | some a => write a
  | none => null

/-- A field that is left out when there is nothing to write. -/
def optionalField {α : Type} (name : String) (write : α → Json) : Option α → List (String × Json)
  | some a => [(name, write a)]
  | none => []

/-- A field that is left out when its list is empty. -/
def listField {α : Type} (name : String) (write : α → Json) : List α → List (String × Json)
  | [] => []
  | items => [(name, list (items.map write))]

/-! ## Printing -/

def hexDigits4 (n : Nat) : String :=
  let digit (k : Nat) : Char := Nat.digitChar (n / Nat.pow 16 k % 16)
  String.ofList [digit 3, digit 2, digit 1, digit 0]

/-- The text that stands for a character inside quotes. -/
def escaped (c : Char) : String :=
  if c = '"' then "\\\""
  else if c = '\\' then "\\\\"
  else if c = '\n' then "\\n"
  else if c = '\r' then "\\r"
  else if c = '\t' then "\\t"
  else if c.toNat = 8 then "\\b"
  else if c.toNat = 12 then "\\f"
  else if c.toNat < 32 then "\\u" ++ hexDigits4 c.toNat
  else c.toString

def quoted (s : String) : String := "\"" ++ String.join (s.toList.map escaped) ++ "\""

mutual

/-- The document on one line, without blanks. -/
def compact : Json → String
  | null => "null"
  | bool b => if b then "true" else "false"
  | integer n => toString n
  | real x => Decimal.literal x.toFloat
  | text s => quoted s
  | list items => "[" ++ ",".intercalate (compactItems items) ++ "]"
  | record fields => "\x7b" ++ ",".intercalate (compactFields fields) ++ "\x7d"

def compactItems : List Json → List String
  | [] => []
  | j :: js => compact j :: compactItems js

def compactFields : List (String × Json) → List String
  | [] => []
  | (name, j) :: fields => (quoted name ++ ":" ++ compact j) :: compactFields fields

end

/-- Lines of a bracketed block, each item on a line of its own. -/
def block (indent : Nat) (opening closing : String) (items : List String) : String :=
  let pad (n : Nat) : String := String.ofList (List.replicate (2 * n) ' ')
  if items.isEmpty then opening ++ closing
  else
    opening ++ "\n" ++ ",\n".intercalate (items.map fun s => pad (indent + 1) ++ s) ++ "\n" ++
      pad indent ++ closing

mutual

/-- The document over several lines, indented by two blanks for each level. -/
def prettyAt (indent : Nat) : Json → String
  | list items => block indent "[" "]" (prettyItems (indent + 1) items)
  | record fields => block indent "\x7b" "\x7d" (prettyFields (indent + 1) fields)
  | null => "null"
  | bool b => if b then "true" else "false"
  | integer n => toString n
  | real x => Decimal.literal x.toFloat
  | text s => quoted s

def prettyItems (indent : Nat) : List Json → List String
  | [] => []
  | j :: js => prettyAt indent j :: prettyItems indent js

def prettyFields (indent : Nat) : List (String × Json) → List String
  | [] => []
  | (name, j) :: fields => (quoted name ++ ": " ++ prettyAt indent j) :: prettyFields indent fields

end

def pretty (j : Json) : String := prettyAt 0 j

end Json

end DesignTokens
