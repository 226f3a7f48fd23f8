import DesignTokens.Toml.Quoted
import DesignTokens.Toml.Scalar
import DesignTokens.Toml.Table

/-!
# Reading TOML

A text is a sequence of expressions, each of which ends with its line: a key with a value, a
header, or nothing.  Arrays may run over several lines and hold comments; inline tables may not.
Arrays and inline tables nest less than eighty deep, and a dotted key has fewer than eighty parts.

The result is a record.
-/

namespace DesignTokens.Toml

def maxDepth : Nat := 80

def skipBlanks (cs : List Char) : List Char := cs.dropWhile fun c => c == ' ' || c == '\t'

/-- What follows a comment at the head of a text; without a comment, the whole text. -/
def skipComment? (cs : List Char) : Option (List Char) :=
  match cs with
  | '#' :: rest =>
    let comment := rest.takeWhile fun c => c != '\n'
    let after := rest.dropWhile fun c => c != '\n'
    let body := if comment.getLast? = some '\r' ∧ after ≠ [] then comment.dropLast else comment
    if body.any isControl then none else some after
  | _ => some cs

/-- What follows the rest of a line that has nothing but blanks and a comment. -/
def endLine? (cs : List Char) : Option (List Char) := do
  match ← skipComment? (skipBlanks cs) with
  | [] => some []
  | '\n' :: rest => some rest
  | '\r' :: '\n' :: rest => some rest
  | _ => none

/-- Skips blanks, line ends and comments. -/
def skipLines? : Nat → List Char → Option (List Char)
  | 0, _ => none
  | fuel + 1, cs =>
    match skipBlanks cs with
    | '\n' :: rest => skipLines? fuel rest
    | '\r' :: '\n' :: rest => skipLines? fuel rest
    | '#' :: rest => (skipComment? ('#' :: rest)).bind (skipLines? fuel)
    | rest => some rest

/-! ## Keys -/

def isBareKey (c : Char) : Bool := c.isAlphanum || c == '_' || c == '-'

def keyPart? (cs : List Char) : Option (String × List Char) :=
  match cs with
  | '"' :: _ | '\'' :: _ => quoted? cs
  | _ =>
    let part := cs.takeWhile isBareKey
    if part.isEmpty then none else some (String.ofList part, cs.dropWhile isBareKey)

/-- A dotted key; blanks may stand around the points. -/
def key? : Nat → List Char → Option (List String × List Char)
  | 0, _ => none
  | fuel + 1, cs => do
    let (part, rest) ← keyPart? (skipBlanks cs)
    match skipBlanks rest with
    | '.' :: more =>
      let (parts, rest) ← key? fuel more
      some (part :: parts, rest)
    | rest => some ([part], rest)

/-- The path and the last part of a key. -/
def splitKey (parts : List String) : List String × String := (parts.dropLast, parts.getLastD "")

/-! ## Values -/

def isScalarChar (c : Char) : Bool :=
  c.isAlphanum || c == '_' || c == '-' || c == '+' || c == '.' || c == ':'

/-- A scalar.  A date may be followed by a blank and a time. -/
def scalarValue? (cs : List Char) : Option (Json × List Char) := do
  let run := cs.takeWhile isScalarChar
  let rest := cs.dropWhile isScalarChar
  match afterDate? run, rest with
  | some [], ' ' :: c :: more =>
    if c.isDigit then
      let time := (c :: more).takeWhile isScalarChar
      (scalar? (run ++ ' ' :: time)).map fun j => (j, (c :: more).dropWhile isScalarChar)
    else some (← scalar? run, rest)
  | _, _ => some (← scalar? run, rest)

mutual

/-- A value under so many open brackets. -/
def value? : Nat → Nat → List Char → Option (Json × List Char)
  | 0, _, _ => none
  | fuel + 1, depth, cs =>
    match cs with
    | '[' :: rest => if depth + 1 < maxDepth then items? fuel (depth + 1) [] rest else none
    | '\x7b' :: rest =>
      if depth + 1 < maxDepth then
        match skipBlanks rest with
        | '\x7d' :: rest => some (.record [], rest)
        | rest => pairs? fuel (depth + 1) [] rest
      else none
    | '"' :: _ | '\'' :: _ => (string? cs).map fun (s, rest) => (.text s, rest)
    | _ => scalarValue? cs

/-- The rest of an array. -/
def items? : Nat → Nat → List Json → List Char → Option (Json × List Char)
  | 0, _, _, _ => none
  | fuel + 1, depth, done, cs => do
    match ← skipLines? (cs.length + 1) cs with
    | ']' :: rest => some (.list done, rest)
    | cs =>
      let (j, rest) ← value? fuel depth cs
      match ← skipLines? (rest.length + 1) rest with
      | ',' :: rest => items? fuel depth (done ++ [j]) rest
      | ']' :: rest => some (.list (done ++ [j]), rest)
      | _ => none

/-- The rest of an inline table, which has at least one more pair. -/
def pairs? : Nat → Nat → Fields → List Char → Option (Json × List Char)
  | 0, _, _, _ => none
  | fuel + 1, depth, done, cs => do
    let (parts, rest) ← key? (maxDepth - 1) cs
    match rest with
    | '=' :: rest =>
      let (j, rest) ← value? fuel depth (skipBlanks rest)
      let (path, key) := splitKey parts
      let done ← insert? path key j done
      match skipBlanks rest with
      | ',' :: rest => pairs? fuel depth done rest
      | '\x7d' :: rest => some (.record (fieldsJson done), rest)
      | _ => none
    | _ => none

end

/-! ## Lines -/

/-- The tables read so far, and the header that the next keys belong to. -/
structure Document where
  root : Fields := []
  header : List String := []

/-- The key and value at the head of a text. -/
def pair? (d : Document) (cs : List Char) : Option (Document × List Char) := do
  let (parts, rest) ← key? (maxDepth - 1) cs
  match rest with
  | '=' :: rest =>
    let (j, rest) ← value? (2 * rest.length + 2) 0 (skipBlanks rest)
    let (path, key) := splitKey parts
    let root ← within? (insert? path key j) d.header d.root
    some ({ d with root }, rest)
  | _ => none

/-- The header at the head of a text, after its opening brackets. -/
def header? (d : Document) (isArray : Bool) (cs : List Char) : Option (Document × List Char) := do
  let (parts, rest) ← key? (maxDepth - 1) cs
  let (path, key) := splitKey parts
  let root ← within? (if isArray then openNext? key else openTable? key) path d.root
  match isArray, rest with
  | false, ']' :: rest => some ({ root, header := parts }, rest)
  | true, ']' :: ']' :: rest => some ({ root, header := parts }, rest)
  | _, _ => none

/-- The expression at the head of a line. -/
def expression? (d : Document) (cs : List Char) : Option (Document × List Char) :=
  match skipBlanks cs with
  | '[' :: '[' :: rest => header? d true rest
  | '[' :: rest => header? d false rest
  | [] => some (d, [])
  | c :: rest =>
    if c == '#' || c == '\n' || c == '\r' then some (d, c :: rest) else pair? d (c :: rest)

def lines? : Nat → Document → List Char → Option Document
  | 0, _, _ => none
  | _ + 1, d, [] => some d
  | fuel + 1, d, cs => do
    let (d, rest) ← expression? d cs
    lines? fuel d (← endLine? rest)

def read? (text : String) : Option Json :=
  let cs := match text.toList with
    | '\uFEFF' :: rest => rest
    | cs => cs
  (lines? (cs.length + 2) {} cs).map fun d => .record (fieldsJson d.root)

end DesignTokens.Toml
