import DesignTokens.Store.Basic

/-!
# Following references to a value

`Store.valueAt?` follows the references of one token from link to link, as long as each link is
one whole reference, and gives up after 32 links.

`Store.resolve` settles all tokens at once.  A token that refers to nothing is settled with its
own value; in rounds over the others, in store order, a token is settled once all it refers to is.
A token on a cycle, or one that refers to a missing path, is never settled.
-/

namespace DesignTokens

/-- Whether the text is one whole reference to the target: a brace group or the bare path. -/
def Reference.isWhole (text target : String) : Bool :=
  (Reference.pure? text).isSome || Text.trim text == target

namespace Store

variable {locked : String → Bool}

/-- The path that the text of a token leads to if the text is one whole reference. -/
def nextLink? (text : String) (targets : List String) : Option String :=
  match Reference.pure? text, targets with
  | some target, _ => some target
  | none, [target] => if Text.trim text = target then some target else none
  | none, _ => none

/-- The value at the end of the chain of whole references that starts at a token, if it is no
longer than `links`. -/
def follow? (s : Store locked) : Nat → Token → Option Value
  | 0, _ => none
  | links + 1, t =>
    match t.resolved, t.value.text? with
    | some v, _ => some v
    | none, none => some t.value
    | none, some text =>
      match t.targets s.contains with
      | [] => some t.value
      | target :: more =>
        match (nextLink? text (target :: more)).bind s.get? with
        | some next => s.follow? links next
        | none => none

/-- The longest chain of references that is followed for one value. -/
def maxLinks : Nat := 32

/-- The value at the end of the chain that starts at a path. -/
def valueAt? (s : Store locked) (path : String) : Option Value :=
  (s.get? path).bind (s.follow? maxLinks)

end Store

/-! ## Settling all tokens -/

/-- A token that waits for the tokens it refers to. -/
structure Waiting where
  path : String
  text : String
  targets : List String
  deriving DecidableEq, Repr

/-- The values settled so far, by path, and the paths settled in rounds, in order. -/
structure Settled where
  values : List (String × Value)
  order : List String
  deriving Repr

namespace Settled

def value? (k : Settled) (path : String) : Option Value := k.values.lookup path

def add (k : Settled) (path : String) (v : Value) : Settled :=
  ⟨k.values ++ [(path, v)], k.order ++ [path]⟩

end Settled

namespace Waiting

/-- The value of a waiting token, once all it refers to is settled.  One whole reference takes
over the value that it leads to; other texts are read again with the values written in. -/
def value? (w : Waiting) (k : Settled) : Option Value :=
  match w.targets with
  | [target] =>
    if Reference.isWhole w.text target then k.value? target
    else (Reference.substitute? w.text fun p => (k.value? p).map Value.render).map Value.infer
  | _ => (Reference.substitute? w.text fun p => (k.value? p).map Value.render).map Value.infer

/-- One round over the waiting tokens: what is settled after it and who waits on. -/
def round : List Waiting → Settled → Settled × List Waiting
  | [], k => (k, [])
  | w :: ws, k =>
    match w.value? k with
    | some v => round ws (k.add w.path v)
    | none =>
      let (k', rest) := round ws k
      (k', w :: rest)

theorem length_round_le (ws : List Waiting) (k : Settled) :
    (round ws k).2.length ≤ ws.length := by
  induction ws generalizing k with
  | nil => simp [round]
  | cons w ws ih =>
    unfold round
    split
    · exact Nat.le_succ_of_le (ih _)
    · simpa using ih k

/-- Rounds until one of them settles nothing. -/
def settle (ws : List Waiting) (k : Settled) : Settled × List Waiting :=
  let next := round ws k
  if next.2.length < ws.length then settle next.2 next.1 else next
termination_by ws.length

end Waiting

/-- What a resolution did: the paths that got a value, in order, and those that did not. -/
structure Resolution where
  resolved : List String
  unresolved : List String
  deriving DecidableEq, Repr

namespace Store

variable {locked : String → Bool}

/-- The tokens that refer to something. -/
def waiting (s : Store locked) : List Waiting :=
  s.tokens.filterMap fun t =>
    match t.targets s.contains with
    | [] => none
    | targets => some ⟨t.path, t.raw, targets⟩

/-- The tokens that refer to nothing, each with its own value. -/
def literals (s : Store locked) : List (String × Value) :=
  s.tokens.filterMap fun t =>
    if (t.targets s.contains).isEmpty then some (t.path, t.value) else none

/-- The settled values of a store and the tokens that wait for ever. -/
def settled (s : Store locked) : Settled × List Waiting :=
  Waiting.settle s.waiting ⟨s.literals, []⟩

/-- The store with the resolved value of every token that a resolution settles. -/
def resolve (s : Store locked) : Store locked × Resolution :=
  let (k, stuck) := s.settled
  let store := k.order.foldl (fun s path =>
    match k.value? path with
    | some v => s.edit path fun t => { t with resolved := some v }
    | none => s) s
  (store, ⟨k.order, stuck.map Waiting.path⟩)

end Store

end DesignTokens
