import DesignTokens.Json.Reader
import DesignTokens.Json.Sorted
import DesignTokens.Store.Basic

/-!
# Token files

A token file is a JSON record.  A text, a number or a truth value in it is a token, and so is a
record with a `value` or `$value`, which may carry a description.  All other records group tokens;
the names on the way to a token are joined by points and make up its path.

Records are read in sorted order.  Where two places of the file lead to one path, the later one
counts.

A store is written as one flat record from paths to raw texts.
-/

namespace DesignTokens

inductive TokenFileError where
  | malformed
  | noRecord
  | unsupported (path : String)
  deriving DecidableEq, Repr

namespace TokenFileError

def message : TokenFileError → String
  | malformed => "token file must be valid JSON"
  | noRecord => "token file must contain a JSON object"
  | unsupported path => "unsupported value at " ++ path

end TokenFileError

namespace TokenFile

def rawText? : Json → Option String
  | .text s => some s
  | .integer n => some (toString n)
  | .real x => some (Decimal.literal x.toFloat)
  | .bool b => some (if b then "true" else "false")
  | .null | .list _ | .record _ => none

/-- The token at a path with some raw content. -/
def leaf (path : String) (raw : Json) (description : Option String) :
    Except TokenFileError Token :=
  match rawText? raw with
  | some text => .ok { Token.ofRaw path text with description }
  | none => .error (.unsupported path)

/-- The content of a record that is a token. -/
def content? (fields : Json.Fields) : Option Json :=
  (fields.lookup "value").or (fields.lookup "$value")

def description? (fields : Json.Fields) : Option String :=
  ((fields.lookup "description").or (fields.lookup "$description")).bind Json.text?

def joinPath (parent key : String) : String :=
  if parent = "" then key else parent ++ "." ++ key

mutual

/-- The tokens of what stands at a path. -/
def tokensAt (path : String) : Json → Except TokenFileError (List Token)
  | .record fields =>
    match content? fields with
    | some raw => (leaf path raw (description? fields)).map fun t => [t]
    | none => tokensUnder path fields
  | j => (leaf path j none).map fun t => [t]

/-- The tokens of the fields of a group, in order. -/
def tokensUnder (parent : String) : List (String × Json) → Except TokenFileError (List Token)
  | [] => .ok []
  | (key, j) :: rest => do
    let here ← tokensAt (joinPath parent key) j
    let others ← tokensUnder parent rest
    pure (here ++ others)

end

/-- The tokens of a file, in the order in which it lists them. -/
def tokens? (text : String) : Except TokenFileError (List Token) :=
  match (Json.read? text).map Json.sorted with
  | none => .error .malformed
  | some (.record fields) => tokensUnder "" fields
  | some _ => .error .noRecord

def read (text : String) : Except TokenFileError OpenStore := (tokens? text).map Store.ofList

/-- The record of a store: the raw text of each token under its path. -/
def ofStore {locked : String → Bool} (s : Store locked) : Json :=
  (Json.record (s.tokens.map fun t => (t.path, .text t.raw))).sorted

end TokenFile

end DesignTokens
