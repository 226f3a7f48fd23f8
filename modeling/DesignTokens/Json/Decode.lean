import DesignTokens.Json.Basic

/-!
# Reading typed data from JSON

A record is read by field name: fields that are not asked for are skipped, and a field that is
asked for may occur only once.  A list is read as the record whose fields come in the order in
which they are asked for.  Integers are accepted where a double is asked for, but not the other way
round.
-/

namespace DesignTokens.Json

/-- A decoder gives nothing for a document of another shape. -/
abbrev Decoder (α : Type) := Json → Option α

def bool? : Decoder Bool
  | bool b => some b
  | _ => none

def text? : Decoder String
  | text s => some s
  | _ => none

def real? : Decoder Double
  | real x => some x
  | integer n => 
    let size := Float.ofNat n.natAbs
    some (.ofFloat (if n < 0 then -size else size))
  | _ => none

/-- A natural number below a bound. -/
def below? (bound : Nat) : Decoder Nat
  | integer n => if 0 ≤ n ∧ n < bound then some n.toNat else none
  | _ => none

/-- A count: a natural number of 64 bits. -/
def count? : Decoder Nat := below? (Nat.pow 2 64)

def items? {α : Type} (decode : Decoder α) : Decoder (List α)
  | list js => js.mapM decode
  | _ => none

/-- The name of a constant: a text, or a record with that one name and no content. -/
def constant? {α : Type} (ofId? : String → Option α) : Decoder α
  | text s => ofId? s
  | record [(s, null)] => ofId? s
  | _ => none

/-! ## Records -/

abbrev Fields := List (String × Json)

/-- Whether no name of a list occurs twice among the fields. -/
def Fields.distinctOn (fields : Fields) (names : List String) : Bool :=
  names.all fun n => (fields.filter fun f => f.1 == n).length ≤ 1

def fields? (names : List String) : Decoder Fields
  | record fields => if Fields.distinctOn fields names then some fields else none
  | list js => if js.length ≤ names.length then some (names.zip js) else none
  | _ => none

/-- The content of a field, cut by the rule for its name if there is one. -/
def cutField (rules : List (String × (Json → Json))) (name : String) (j : Json) : Json :=
  match rules.lookup name with
  | some cut => cut j
  | none => j

/-- The document without the items of a list that lie past the named fields; the fields that have a
rule of their own are cut by it. -/
def cutTo (names : List String) (rules : List (String × (Json → Json))) : Json → Json
  | record fields => record (fields.map fun f => (f.1, cutField rules f.1 f.2))
  | list js => list (List.zipWith (cutField rules) names js)
  | j => j

namespace Fields

variable {α : Type}

def required (fields : Fields) (name : String) (decode : Decoder α) : Option α :=
  (fields.lookup name).bind decode

/-- The content of a field, or a fallback when there is no such field. -/
def orElse (fields : Fields) (name : String) (fallback : α) (decode : Decoder α) : Option α :=
  match fields.lookup name with
  | some j => decode j
  | none => some fallback

/-- The content of a field that may be missing or `null`. -/
def optional (fields : Fields) (name : String) (decode : Decoder α) : Option (Option α) :=
  match fields.lookup name with
  | some null | none => some none
  | some j => (decode j).map some

end Fields

end DesignTokens.Json
