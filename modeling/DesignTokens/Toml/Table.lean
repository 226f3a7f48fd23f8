import DesignTokens.Json.Basic

/-!
# TOML tables

A TOML text builds its tables bit by bit: through headers, through headers of arrays of tables and
through dotted keys.  What may extend a table depends on how it came about, so each table
remembers that until the whole text has been read.

Nothing is defined twice.  A header opens a table only once; a table opened by a header or written
inline is not extended by dotted keys from outside, and one made by dotted keys is not opened by a
header.
-/

namespace DesignTokens.Toml

inductive Form where
  -- It was only passed through by a header.
  | implicit
  -- It was made by a dotted key.
  | dotted
  -- It has a header of its own.
  | header
  deriving DecidableEq, Repr

inductive Node where
  | value (j : Json)
  | table (form : Form) (fields : List (String × Node))
  -- An array of tables; the last one is open to headers and keys.
  | tables (closed : List Json) (last : List (String × Node))

abbrev Fields := List (String × Node)

namespace Fields

def replace (fields : Fields) (key : String) (node : Node) : Fields :=
  fields.map fun f => if f.1 = key then (key, node) else f

end Fields

mutual

def Node.toJson : Node → Json
  | .value j => j
  | .table _ fields => .record (fieldsJson fields)
  | .tables closed last => .list (closed ++ [.record (fieldsJson last)])

def fieldsJson : List (String × Node) → List (String × Json)
  | [] => []
  | (key, node) :: rest => (key, node.toJson) :: fieldsJson rest

end

/-! ## Keys -/

/-- Puts a value at a dotted key: a path of tables and the last part. -/
def insert? : List String → String → Json → Fields → Option Fields
  | [], key, j, fields =>
    match fields.lookup key with
    | none => some (fields ++ [(key, .value j)])
    | some _ => none
  | part :: path, key, j, fields =>
    match fields.lookup part with
    | none => (insert? path key j []).map fun sub => fields ++ [(part, .table .dotted sub)]
    | some (.table form sub) =>
      if form = .header ∨ (path = [] ∧ form ≠ .dotted) then none
      else (insert? path key j sub).map fun sub => fields.replace part (.table form sub)
    | some (.tables closed last) =>
      if path = [] then none
      else (insert? path key j last).map fun last => fields.replace part (.tables closed last)
    | some (.value _) => none

/-! ## Headers -/

/-- Changes the table that a path of headers leads to, making what is missing on the way. -/
def within? (change : Fields → Option Fields) : List String → Fields → Option Fields
  | [], fields => change fields
  | part :: path, fields =>
    match fields.lookup part with
    | none => (within? change path []).map fun sub => fields ++ [(part, .table .implicit sub)]
    | some (.table form sub) =>
      (within? change path sub).map fun sub => fields.replace part (.table form sub)
    | some (.tables closed last) =>
      (within? change path last).map fun last => fields.replace part (.tables closed last)
    | some (.value _) => none

/-- Opens the table at a key under its own header. -/
def openTable? (key : String) (fields : Fields) : Option Fields :=
  match fields.lookup key with
  | none => some (fields ++ [(key, .table .header [])])
  | some (.table .implicit sub) => some (fields.replace key (.table .header sub))
  | some _ => none

/-- Opens one more table of the array at a key. -/
def openNext? (key : String) (fields : Fields) : Option Fields :=
  match fields.lookup key with
  | none => some (fields ++ [(key, .tables [] [])])
  | some (.tables closed last) =>
    some (fields.replace key (.tables (closed ++ [.record (fieldsJson last)]) []))
  | some _ => none

end DesignTokens.Toml
