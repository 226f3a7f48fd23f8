/-!
# TOML strings

Strings stand between single or double quotes, one or three of each.  Double quotes allow escapes;
three quotes allow line ends, of which one right after the opening quotes is dropped.
-/

namespace DesignTokens.Toml

/-- The content of a string and what follows its closing quotes. -/
abbrev StringRest := Option (String × List Char)

/-- Control characters other than the tab do not occur in a text. -/
def isControl (c : Char) : Bool := (c.toNat < 32 && c != '\t') || c.toNat = 127

def finished (done rest : List Char) : StringRest := some (String.ofList done.reverse, rest)

def hexValue? (c : Char) : Option Nat :=
  if c.isDigit then some (c.toNat - '0'.toNat)
  else if 'a' ≤ c ∧ c ≤ 'f' then some (c.toNat - 'a'.toNat + 10)
  else if 'A' ≤ c ∧ c ≤ 'F' then some (c.toNat - 'A'.toNat + 10)
  else none

/-- The character with a code point given in hexadecimal digits. -/
def charOfHex? (digits : List Char) : Option Char :=
  (digits.mapM hexValue?).bind fun ds =>
    let n := ds.foldl (fun n d => 16 * n + d) 0
    if n.isValidChar then some (Char.ofNat n) else none

/-- The character of an escape of one letter. -/
def escapeOf? (c : Char) : Option Char :=
  match c with
  | 'b' => some (Char.ofNat 8)
  | 't' => some '\t'
  | 'n' => some '\n'
  | 'f' => some (Char.ofNat 12)
  | 'r' => some '\r'
  | '"' => some '"'
  | '\\' => some '\\'
  | _ => none

/-- Between double quotes.  `done` is what has been read, backwards. -/
def basic (done : List Char) : List Char → StringRest
  | '"' :: rest => finished done rest
  | '\\' :: 'u' :: a :: b :: c :: d :: rest =>
    match charOfHex? [a, b, c, d] with
    | some x => basic (x :: done) rest
    | none => none
  | '\\' :: 'U' :: a :: b :: c :: d :: e :: f :: g :: h :: rest =>
    match charOfHex? [a, b, c, d, e, f, g, h] with
    | some x => basic (x :: done) rest
    | none => none
  | '\\' :: c :: rest =>
    match escapeOf? c with
    | some x => basic (x :: done) rest
    | none => none
  | c :: rest => if isControl c then none else basic (c :: done) rest
  | [] => none

/-- Between single quotes. -/
def literal (done : List Char) : List Char → StringRest
  | '\'' :: rest => finished done rest
  | c :: rest => if isControl c then none else literal (c :: done) rest
  | [] => none

/-- Whether only blanks stand before the end of the line. -/
def endsLine (cs : List Char) : Bool :=
  match cs.dropWhile fun c => c == ' ' || c == '\t' with
  | '\n' :: _ | '\r' :: '\n' :: _ => true
  | _ => false

/-- Between three double quotes.  After a backslash at the end of a line, `skipping` drops blanks
and line ends. -/
def longBasic (skipping : Bool) (done : List Char) : List Char → StringRest
  | '"' :: '"' :: '"' :: '"' :: '"' :: rest => finished ('"' :: '"' :: done) rest
  | '"' :: '"' :: '"' :: '"' :: rest => finished ('"' :: done) rest
  | '"' :: '"' :: '"' :: rest => finished done rest
  | '\\' :: 'u' :: a :: b :: c :: d :: rest =>
    match charOfHex? [a, b, c, d] with
    | some x => longBasic false (x :: done) rest
    | none => none
  | '\\' :: 'U' :: a :: b :: c :: d :: e :: f :: g :: h :: rest =>
    match charOfHex? [a, b, c, d, e, f, g, h] with
    | some x => longBasic false (x :: done) rest
    | none => none
  | '\\' :: c :: rest =>
    match escapeOf? c with
    | some x => longBasic false (x :: done) rest
    | none => if endsLine (c :: rest) then longBasic true done (c :: rest) else none
  | '\r' :: '\n' :: rest =>
    if skipping then longBasic true done rest else longBasic false ('\n' :: done) rest
  | '\n' :: rest =>
    if skipping then longBasic true done rest else longBasic false ('\n' :: done) rest
  | c :: rest =>
    if skipping && (c == ' ' || c == '\t') then longBasic true done rest
    else if isControl c then none
    else longBasic false (c :: done) rest
  | [] => none

/-- Between three single quotes. -/
def longLiteral (done : List Char) : List Char → StringRest
  | '\'' :: '\'' :: '\'' :: '\'' :: '\'' :: rest => finished ('\'' :: '\'' :: done) rest
  | '\'' :: '\'' :: '\'' :: '\'' :: rest => finished ('\'' :: done) rest
  | '\'' :: '\'' :: '\'' :: rest => finished done rest
  | '\r' :: '\n' :: rest => longLiteral ('\n' :: done) rest
  | '\n' :: rest => longLiteral ('\n' :: done) rest
  | c :: rest => if isControl c then none else longLiteral (c :: done) rest
  | [] => none

/-- A text without a line end at its head. -/
def dropLineEnd : List Char → List Char
  | '\n' :: rest => rest
  | '\r' :: '\n' :: rest => rest
  | cs => cs

/-- A string of one line. -/
def quoted? : List Char → StringRest
  | '"' :: rest => basic [] rest
  | '\'' :: rest => literal [] rest
  | _ => none

def string? : List Char → StringRest
  | '"' :: '"' :: '"' :: rest => longBasic false [] (dropLineEnd rest)
  | '\'' :: '\'' :: '\'' :: rest => longLiteral [] (dropLineEnd rest)
  | cs => quoted? cs

end DesignTokens.Toml
