import DesignTokens.Json.Decode

/-!
# JSON drafts

A draft is a JSON document of which only the syntax has been read.  A scalar in it may come to
nothing: a number may be out of range, and the escapes of a text may not pair up.

A reading takes out of a draft what its reader asks for and checks that alone.  What is not asked
for may hold scalars that come to nothing and any number of nested brackets.
-/

namespace DesignTokens.Json

/-- A document whose scalars and names have not been checked yet. -/
inductive Draft where
  | scalar (content : Option Json)
  | list (items : List Draft)
  | record (fields : List (Option String × Draft))

/-! ## Texts -/

/-- The first half of a character beyond 16 bits. -/
def isHighSurrogate (unit : Nat) : Bool := 0xD800 ≤ unit && unit < 0xDC00

/-- The second half of a character beyond 16 bits. -/
def isLowSurrogate (unit : Nat) : Bool := 0xDC00 ≤ unit && unit < 0xE000

def pairedChar (high low : Nat) : Char :=
  Char.ofNat (0x10000 + (high - 0xD800) * 0x400 + (low - 0xDC00))

/-- One more code unit after some characters, the last first, and perhaps a half. -/
def addUnit (state : Option Nat × List Char) (unit : Nat) : Option (Option Nat × List Char) :=
  match state with
  | (some high, done) =>
    if isLowSurrogate unit then some (none, pairedChar high unit :: done) else none
  | (none, done) =>
    if isHighSurrogate unit then some (some unit, done)
    else if isLowSurrogate unit then none
    else some (none, Char.ofNat unit :: done)

/-- The characters that code units stand for; halves must come in pairs. -/
def charsOfUnits? (units : List Nat) : Option (List Char) :=
  match units.foldlM addUnit (none, []) with
  | some (none, done) => some done.reverse
  | _ => none

example : charsOfUnits? [0x61, 0xD83D, 0xDE00] = some ['a', '😀'] := by decide
example : charsOfUnits? [0xD83D] = none := by decide
example : charsOfUnits? [0xD83D, 0x61] = none := by decide

/-! ## Readings -/

/-- What a reader takes out of a draft when so many more brackets may be open. -/
abbrev Reading := Nat → Draft → Option Json

namespace Draft

mutual

/-- All of a draft. -/
def whole? (depth : Nat) : Draft → Option Json
  | scalar content => content
  | list items => if 0 < depth then (wholeItems? (depth - 1) items).map .list else none
  | record fields => if 0 < depth then (wholeFields? (depth - 1) fields).map .record else none

def wholeItems? (depth : Nat) : List Draft → Option (List Json)
  | [] => some []
  | d :: ds => do
    let j ← whole? depth d
    let js ← wholeItems? depth ds
    pure (j :: js)

def wholeFields? (depth : Nat) : List (Option String × Draft) → Option Fields
  | [] => some []
  | (name, d) :: fields => do
    let n ← name
    let j ← whole? depth d
    let rest ← wholeFields? depth fields
    pure ((n, j) :: rest)

end

/-- A field if its name is known; the name of every field is checked. -/
def knownField? (known : List (String × Reading)) (depth : Nat) (field : Option String × Draft) :
    Option (Option (String × Json)) := do
  let name ← field.1
  match known.lookup name with
  | some reading => (reading depth field.2).map fun j => some (name, j)
  | none => some none

/-- An item of a list that stands for a known field. -/
def knownItem? (depth : Nat) (item : (String × Reading) × Draft) : Option Json :=
  item.1.2 depth item.2

/-- The known fields of a record, or the items of a list that gives them in order. -/
def fields? (known : List (String × Reading)) : Reading := fun depth d =>
  match d with
  | scalar content => content
  | list items =>
    if 0 < depth ∧ items.length ≤ known.length then
      ((known.zip items).mapM (knownItem? (depth - 1))).map .list
    else none
  | record fields =>
    if 0 < depth then (fields.filterMapM (knownField? known (depth - 1))).map .record else none

/-- Whether a field stands before another one; in a list it always does. -/
def standsBefore (first second : String) : Draft → Bool
  | record fields =>
    (fields.find? fun f => f.1 == some first || f.1 == some second).all fun f =>
      f.1 == some first
  | _ => true

end Draft

end DesignTokens.Json
