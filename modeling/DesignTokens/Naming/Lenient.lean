import DesignTokens.Naming.Strict

/-!
# Lenient reading of paths

A path that is not canonical is read in two further ways.  The first keeps the strict grammar but
accepts an alias for the property class.  The second looks for the first place where a property
class is spelled, by identifier or alias, skips what stands before it, and then gives each later
segment to the first axis that still lacks a value and knows the word; what no axis knows is
listed as unrecognised.

Both work on the path in small ASCII letters, so letter case decides nothing but whether the
strict reading succeeds.
-/

namespace DesignTokens.Naming

inductive Strategy where
  | strict
  | firstSegment
  | scan
  deriving DecidableEq, Repr

def Strategy.id : Strategy → String
  | strict => "strict"
  | firstSegment => "first-segment"
  | scan => "scan"

/-- A segment that was read through an alias. -/
structure AliasUse where
  axis : Axis
  word : String
  canonical : String
  deriving DecidableEq, Repr

structure Reading where
  name : Name
  strategy : Strategy
  aliases : List AliasUse := []
  -- The segments before the property class.
  skipped : List String := []
  -- The segments that no axis took.
  unrecognized : List String := []
  deriving DecidableEq, Repr

namespace Reading

/-- The number of aliases on axes other than the property class. -/
def otherAliases (r : Reading) : Nat :=
  (r.aliases.filter fun a => a.axis ≠ .propertyClass).length

end Reading

/-! ## The property class -/

/-- A property class spelled at the head of some segments, the alias that spelled it if it was
one, and the segments after it. -/
structure ClassHit where
  propertyClass : PropertyClass
  aliasWord : Option String
  rest : List String
  deriving DecidableEq, Repr

/-- The alias uses of a hit: one if the class was spelled by an alias. -/
def ClassHit.aliases (h : ClassHit) : List AliasUse :=
  (h.aliasWord.map fun a => ⟨.propertyClass, a, h.propertyClass.id⟩).toList

/-- The class alias at the head of some segments; an alias of two segments goes first. -/
def aliasAhead? : List String → Option ClassHit
  | [] => none
  | [s] => (Vocabulary.classAlias? s).map fun c => ⟨c, some s, []⟩
  | s :: next :: rest =>
    match Vocabulary.classAlias? (compound s next) with
    | some c => some ⟨c, some (compound s next), rest⟩
    | none => (Vocabulary.classAlias? s).map fun c => ⟨c, some s, next :: rest⟩

/-- The property class at the head of some segments, by identifier or else by alias. -/
def hitAhead? (segs : List String) : Option ClassHit :=
  match classAhead? segs with
  | some (c, rest) => some ⟨c, none, rest⟩
  | none => aliasAhead? segs

/-- The segments before the first property class, and the class. -/
def firstHit? : List String → Option (List String × ClassHit)
  | [] => none
  | s :: rest =>
    match hitAhead? (s :: rest) with
    | some h => some ([], h)
    | none => (firstHit? rest).map fun (before, h) => (s :: before, h)

/-! ## The other axes -/

/-- The axes filled so far while the segments after the class are read.  The context keeps the
word that filled it. -/
structure Tail where
  context : Option (UxContext × String) := none
  intent : Option Intent := none
  modifier : Option Emphasis := none
  state : Option InteractionState := none
  aliases : List AliasUse := []
  unrecognized : List String := []
  deriving DecidableEq, Repr

namespace Tail

/-- The axis value that a word stands for, if the axis is free: by identifier or else by alias. -/
def offer? {α β : Type} (taken : Option β) (ofId? ofAlias? : String → Option α) (word : String) :
    Option (α × Bool) :=
  if taken.isSome then none
  else
    match ofId? word with
    | some a => some (a, false)
    | none => (ofAlias? word).map fun a => (a, true)

/-- The record of an alias, when one was used. -/
def used (aliased : Bool) (axis : Axis) (word canonical : String) : List AliasUse :=
  if aliased then [⟨axis, word, canonical⟩] else []

/-- One more segment: the first free axis that knows the word takes it. -/
def read (t : Tail) (word : String) : Tail :=
  match offer? t.context UxContext.ofId? Vocabulary.contextAlias? word with
  | some (c, a) =>
    { t with
      context := some (c, word)
      aliases := t.aliases ++ used a .uxContext word c.id }
  | none =>
    match offer? t.intent Intent.ofId? Vocabulary.intentAlias? word with
    | some (i, a) =>
      { t with
        intent := some i
        aliases := t.aliases ++ used a .intent word i.id }
    | none =>
      match offer? t.modifier Emphasis.ofId? (fun _ => none) word with
      | some (m, _) => { t with modifier := some m }
      | none =>
        match offer? t.state InteractionState.ofId? Vocabulary.stateAlias? word with
        | some (s, a) =>
          { t with
            state := some s
            aliases := t.aliases ++ used a .state word s.id }
        | none => { t with unrecognized := t.unrecognized ++ [word] }

/-- The context and the intent of a name.  Without an intent, a word that filled the context but
is also an alias of an intent goes over to the intent; failing that the intent is the base one. -/
def contextAndIntent (t : Tail) : Option UxContext × Intent :=
  match t.intent with
  | some i => (t.context.map Prod.fst, i)
  | none =>
    match t.context.bind fun c => Vocabulary.intentAlias? c.2 with
    | some i => (none, i)
    | none => (t.context.map Prod.fst, .base)

end Tail

/-! ## The two lenient readings -/

/-- The reading that keeps the strict grammar after a class at the head of the path. -/
def readFirstSegment? (segs : List String) : Option Reading :=
  match hitAhead? segs with
  | none => none
  | some hit =>
    (nameOfTail? hit.propertyClass hit.rest).map fun name =>
      { name, strategy := .firstSegment, aliases := hit.aliases }

/-- The reading that looks for a class anywhere in the path. -/
def readScan? (segs : List String) : Option Reading :=
  match firstHit? segs with
  | none => none
  | some (skipped, hit) =>
    let t := hit.rest.foldl Tail.read { aliases := hit.aliases }
    let (context, intent) := t.contextAndIntent
    some
      { name :=
          { propertyClass := hit.propertyClass
            context
            intent
            modifier := t.modifier
            state := t.state }
        strategy := .scan
        aliases := t.aliases
        skipped
        unrecognized := t.unrecognized }

/-- The best reading of a path, if anything in it spells a property class. -/
def read? (path : String) : Option Reading :=
  match strict? path with
  | some name => some { name, strategy := .strict }
  | none =>
    let segs := (segments path).map Text.lower
    match readFirstSegment? segs with
    | some r => some r
    | none => readScan? segs

def read (path : String) : Except NamingError Reading :=
  match read? path with
  | some r => .ok r
  | none => .error (.noPropertyClass path)

def suggestedPath? (path : String) : Option String := (read? path).map fun r => r.name.path

end DesignTokens.Naming
