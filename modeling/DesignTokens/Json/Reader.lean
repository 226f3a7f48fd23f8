import DesignTokens.Json.Draft
import DesignTokens.Json.Number

/-!
# Reading JSON

The text is cut into lexemes by a machine that takes one character at a time, and the lexemes are
put together by a machine that takes one lexeme at a time and keeps the open brackets on a stack.
Both run once over their input, so reading always ends.

Control characters inside quotes are errors, as is anything after the document.  Numbers beyond the
range of a double, lone surrogates and more than 127 open brackets are errors only in what is taken
out of the draft.
-/

namespace DesignTokens.Json

/-! ## Lexemes -/

inductive Lexeme where
  -- One of `[`, `]`, `,`, `:` and the two braces.
  | mark (c : Char)
  | text (content : Option String)
  | word (content : Option Json)

/-- What the lexer is in the middle of, kept backwards.  A text is kept as code units. -/
inductive LexState where
  | between
  | word (letters : List Char)
  | quoted (units : List Nat)
  | escape (units : List Nat)
  -- A `\u` escape with some digits read.
  | unicode (units digits : List Nat)

def isMark (c : Char) : Bool :=
  c == '[' || c == ']' || c == ',' || c == ':' || c == '\x7b' || c == '\x7d'

def isSpace (c : Char) : Bool := c == ' ' || c == '\t' || c == '\n' || c == '\r'

def hexValue? (c : Char) : Option Nat :=
  if c.isDigit then some (c.toNat - '0'.toNat)
  else if 'a' ≤ c ∧ c ≤ 'f' then some (c.toNat - 'a'.toNat + 10)
  else if 'A' ≤ c ∧ c ≤ 'F' then some (c.toNat - 'A'.toNat + 10)
  else none

/-- The lexeme that a bare word is. -/
def Lexeme.ofWord? (word : List Char) : Option Lexeme :=
  match String.ofList word with
  | "null" => some (.word (some null))
  | "true" => some (.word (some (bool true)))
  | "false" => some (.word (some (bool false)))
  | _ => (Spelling.ofWord? word).map fun s => .word s.number?

/-- The text of some code units, kept backwards. -/
def Lexeme.ofUnits (units : List Nat) : Lexeme :=
  .text ((charsOfUnits? units.reverse).map String.ofList)

/-- The lexer between lexemes: at the start of the next one, or at a blank. -/
def startLexeme (c : Char) (out : List Lexeme) : LexState × List Lexeme :=
  if c = '"' then (.quoted [], out)
  else if isMark c then (.between, .mark c :: out)
  else if isSpace c then (.between, out)
  else (.word [c], out)

/-- The character of a short escape. -/
def escapeOf? (c : Char) : Option Char :=
  match c with
  | '"' => some '"'
  | '\\' => some '\\'
  | '/' => some '/'
  | 'b' => some (Char.ofNat 8)
  | 'f' => some (Char.ofNat 12)
  | 'n' => some '\n'
  | 'r' => some '\r'
  | 't' => some '\t'
  | _ => none

def lexChar (state : LexState × List Lexeme) (c : Char) : Option (LexState × List Lexeme) :=
  let (mode, out) := state
  match mode with
  | .between => some (startLexeme c out)
  | .word letters =>
    if c = '"' || isMark c || isSpace c then
      (Lexeme.ofWord? letters.reverse).map fun l => startLexeme c (l :: out)
    else some (.word (c :: letters), out)
  | .quoted units =>
    if c = '"' then some (.between, Lexeme.ofUnits units :: out)
    else if c = '\\' then some (.escape units, out)
    else if c.toNat < 32 then none
    else some (.quoted (c.toNat :: units), out)
  | .escape units =>
    if c = 'u' then some (.unicode units [], out)
    else (escapeOf? c).map fun d => (.quoted (d.toNat :: units), out)
  | .unicode units digits =>
    match hexValue? c, digits with
    | none, _ => none
    | some d, [x, y, z] => some (.quoted ((((x * 16 + y) * 16 + z) * 16 + d) :: units), out)
    | some d, _ => some (.unicode units (digits ++ [d]), out)

def lexemes? (text : String) : Option (List Lexeme) := do
  let (mode, out) ← text.toList.foldlM lexChar (LexState.between, [])
  match mode with
  | .between => some out.reverse
  | .word letters => (Lexeme.ofWord? letters.reverse).map fun l => (l :: out).reverse
  | _ => none

/-! ## Documents -/

/-- The fields of a record in a draft. -/
abbrev DraftFields := List (Option String × Draft)

/-- An open bracket with what was read inside it, backwards. -/
inductive Frame where
  | list (done : List Draft)
  | record (done : DraftFields) (name : Option String)

/-- What may come next. -/
inductive Expect where
  | value
  -- A value or the end of a list that has just been opened.
  | firstItem
  | name (done : DraftFields)
  -- A name or the end of a record that has just been opened.
  | firstName
  | colon (done : DraftFields) (name : Option String)
  -- A complete document; a comma or a closing bracket goes on.
  | after (d : Draft)

/-- The reader inside a bracket that the lexeme opens, or past the document that it is. -/
def beginValue? (stack : List Frame) : Lexeme → Option (Expect × List Frame)
  | .text s => some (.after (.scalar (s.map text)), stack)
  | .word content => some (.after (.scalar content), stack)
  | .mark '[' => some (.firstItem, .list [] :: stack)
  | .mark '\x7b' => some (.firstName, .record [] none :: stack)
  | .mark _ => none

def readLexeme (state : Expect × List Frame) (l : Lexeme) : Option (Expect × List Frame) :=
  let (expect, stack) := state
  match expect, stack, l with
  | .firstItem, .list _ :: rest, .mark ']' => some (.after (.list []), rest)
  | .firstItem, _, _ => beginValue? stack l
  | .value, _, _ => beginValue? stack l
  | .firstName, .record _ _ :: rest, .mark '\x7d' => some (.after (.record []), rest)
  | .firstName, .record _ _ :: _, .text s => some (.colon [] s, stack)
  | .firstName, _, _ => none
  | .name done, _, .text s => some (.colon done s, stack)
  | .name _, _, _ => none
  | .colon done s, .record _ _ :: rest, .mark ':' => some (.value, .record done s :: rest)
  | .colon _ _, _, _ => none
  | .after d, .list done :: rest, .mark ',' => some (.value, .list (d :: done) :: rest)
  | .after d, .list done :: rest, .mark ']' => some (.after (.list (d :: done).reverse), rest)
  | .after d, .record done s :: _, .mark ',' => some (.name ((s, d) :: done), stack)
  | .after d, .record done s :: rest, .mark '\x7d' =>
    some (.after (.record ((s, d) :: done).reverse), rest)
  | .after _, _, _ => none

/-- The draft that a text holds. -/
def Draft.read? (text : String) : Option Draft := do
  let (expect, stack) ← (← lexemes? text).foldlM readLexeme (Expect.value, [])
  match expect, stack with
  | .after d, [] => some d
  | _, _ => none

/-- How many brackets may be open at a time. -/
def maxDepth : Nat := 127

/-- What a reading takes out of a text. -/
def readWith? (reading : Reading) (text : String) : Option Json :=
  (Draft.read? text).bind (reading maxDepth)

/-- The document that a text holds. -/
def read? : String → Option Json := readWith? Draft.whole?

end DesignTokens.Json
