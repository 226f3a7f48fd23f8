import DesignTokens.Migration.Action
import DesignTokens.Naming.Lenient
import DesignTokens.Store.Basic

/-!
# Running one action

An action is run target by target.  What happens to a target is recorded as an operation, and a
target that cannot be worked on fails on its own without disturbing the others.  Only a store that
refuses a change whose conditions have been checked stops the action.

In a dry run every operation is worked out on the store as it is and nothing is changed.
-/

namespace DesignTokens

inductive Fault where
  | notFound (path : String)
  | noCanonicalPath (path : String)
  | outsideScheme (path : String)
  | pathTaken (path : String)
  | tooFewToMerge (count : Nat)
  | survivorMissing (path : String)
  | stillReferenced (path : String) (referrers : List String)
  deriving DecidableEq, Repr

def Fault.message : Fault → String
  | notFound path => s!"token {path} not found"
  | noCanonicalPath path => s!"no canonical path can be inferred for {path}"
  | outsideScheme path => s!"{path} does not follow the naming scheme"
  | pathTaken path => s!"path {path} already exists"
  | tooFewToMerge count => s!"merge needs at least 2 targets, got {count}"
  | survivorMissing path => s!"merge target {path} not found"
  | stillReferenced path referrers =>
    "reference exists: " ++ ", ".intercalate referrers ++ s!" still reference {path}"

inductive Remark where
  | alreadyCanonical
  | inlined
  | manualSplit
  | describedBefore
  | noDescription
  | described (text : String)
  -- A dry run would find these references in the way.
  | referencesRemain (referrers : List String)
  deriving DecidableEq, Repr

def Remark.message : Remark → String
  | alreadyCanonical => "already canonical"
  | inlined => "value inlined into survivor"
  | manualSplit => "manual split required"
  | describedBefore => "description already present"
  | noDescription => "no canonical description"
  | described text => text
  | referencesRemain referrers => "reference exists: " ++ ", ".intercalate referrers

/-- What an action did to one target. -/
structure Operation where
  kind : ActionKind
  path : String
  -- Where the token went, for moves and merges.
  newPath : Option String := none
  fault : Option Fault := none
  remark : Option Remark := none
  -- The tokens whose references were rewritten.
  updated : List String := []
  deriving DecidableEq, Repr

namespace Operation

def succeeded (o : Operation) : Bool := o.fault.isNone

/-- The path that the operation wrote to. -/
def touched (o : Operation) : String := o.newPath.getD o.path

end Operation

/-! ## Rewriting references -/

namespace Token

/-- The token with its references to `old` turned into references to `new`.  A resolved value is
dropped when the text changes. -/
def redirect (old new : String) (t : Token) : Token :=
  match t.value.text?.bind fun s => Reference.redirect? s old new with
  | some s => { t with value := t.value.withText s, resolved := none }
  | none => t

/-- The token with its references to a path replaced by a value.  One whole reference takes the
value over; a reference among other text is replaced by the text of the value. -/
def inline (source : String) (v : Value) (t : Token) : Token :=
  match t.value.text? with
  | none => t
  | some s =>
    if Text.trim s = source ∨ Reference.pure? s = some source then
      { t with value := v, resolved := none }
    else
      let replace (p : String) : String := if p = source then v.render else "\x7b" ++ p ++ "\x7d"
      match Reference.substitute? s fun p => some (replace p) with
      | some s' => { t with value := t.value.withText s', resolved := none }
      | none => t

end Token

namespace Store

variable {locked : String → Bool}

/-- The paths of the tokens that refer to a path, in store order. -/
def referrers (s : Store locked) (target : String) : List String :=
  (s.tokens.filter fun t => t.references target).map Token.path

/-- The store with the references to `old` that some tokens hold turned into references to
`new`. -/
def redirectAll (s : Store locked) (referrers : List String) (old new : String) : Store locked :=
  referrers.foldl (fun s p => s.edit p (Token.redirect old new)) s

/-- The store with the references that one token holds to another replaced by its value. -/
def inline (s : Store locked) (keep source : String) : Store locked :=
  match s.get? source with
  | some t => s.edit keep (Token.inline source t.value)
  | none => s

/-! ## Target by target -/

/-- The store after a step, and what the step did or why the store refused it. -/
abbrev Step (locked : String → Bool) (α : Type) := Store locked × Except StoreError α

/-- The same step for each target in turn, until the store refuses one. -/
def forTargets {β : Type} (step : Store locked → β → Step locked Operation) :
    List β → Store locked → Step locked (List Operation)
  | [], s => (s, .ok [])
  | b :: bs, s =>
    match step s b with
    | (s', .error e) => (s', .error e)
    | (s', .ok op) =>
      match forTargets step bs s' with
      | (s'', .error e) => (s'', .error e)
      | (s'', .ok ops) => (s'', .ok (op :: ops))

/-- A failed operation changes nothing. -/
def failed (s : Store locked) (kind : ActionKind) (path : String) (fault : Fault) :
    Step locked Operation :=
  (s, .ok { kind, path, fault := some fault })

/-- Moves a token after redirecting all references to it. -/
def relocate (s : Store locked) (dry : Bool) (kind : ActionKind) (source target : String) :
    Step locked Operation :=
  if source = target then (s, .ok { kind, path := source, remark := some .alreadyCanonical })
  else if s.contains target then s.failed kind source (.pathTaken target)
  else
    let referrers := s.referrers source
    let op : Operation := { kind, path := source, newPath := some target, updated := referrers }
    if dry then (s, .ok op)
    else
      let redirected := s.redirectAll referrers source target
      match redirected.move source target with
      | .ok moved => (moved, .ok op)
      | .error e => (redirected, .error e)

/-- Renames one target, to the given path or else to the canonical path that it is read as. -/
def renameTarget (dry : Bool) (s : Store locked) (target : String × Option String) :
    Step locked Operation :=
  let (path, newPath) := target
  if !s.contains path then s.failed .rename path (.notFound path)
  else
    match newPath.orElse fun _ => Naming.suggestedPath? path with
    | some newPath => s.relocate dry .rename path newPath
    | none => s.failed .rename path (.noCanonicalPath path)

/-- Moves one compliant target to its canonical path. -/
def restructureTarget (dry : Bool) (s : Store locked) (path : String) : Step locked Operation :=
  if !s.contains path then s.failed .restructure path (.notFound path)
  else
    match Naming.strict? path with
    | some n => s.relocate dry .restructure path n.path
    | none => s.failed .restructure path (.outsideScheme path)

/-- Folds one token into the survivor: references to it are redirected, except that those of the
survivor are replaced by its value. -/
def mergeSource (dry : Bool) (keep : String) (s : Store locked) (source : String) :
    Step locked Operation :=
  if !s.contains source then s.failed .merge source (.notFound source)
  else
    let inlines := (s.get? keep).any fun t => t.references source
    let referrers := (s.referrers source).filter fun p => p != keep
    let op : Operation :=
      { kind := .merge
        path := source
        newPath := some keep
        remark := if inlines then some .inlined else none
        updated := referrers }
    if dry then (s, .ok op)
    else
      let inlined := if inlines then s.inline keep source else s
      ((inlined.redirectAll referrers source keep).erase source, .ok op)

/-- Marks one target for splitting by hand. -/
def splitTarget (dry : Bool) (note : String) (s : Store locked) (path : String) :
    Step locked Operation :=
  if !s.contains path then s.failed .split path (.notFound path)
  else
    let op : Operation := { kind := .split, path, remark := some .manualSplit }
    if dry then (s, .ok op) else (s.edit path fun t => { t with description := some note }, .ok op)

/-- Removes one target unless something refers to it. -/
def deleteTarget (dry : Bool) (s : Store locked) (path : String) : Step locked Operation :=
  if !s.contains path then s.failed .delete path (.notFound path)
  else
    let referrers := s.referrers path
    if dry then
      let remark := if referrers.isEmpty then none else some (.referencesRemain referrers)
      (s, .ok { kind := .delete, path, remark })
    else if !referrers.isEmpty then s.failed .delete path (.stillReferenced path referrers)
    else (s.erase path, .ok { kind := .delete, path })

/-- Puts a new token at one target path. -/
def createTarget (dry : Bool) (value description : String) (s : Store locked) (path : String) :
    Step locked Operation :=
  if s.contains path then s.failed .create path (.pathTaken path)
  else if dry then (s, .ok { kind := .create, path })
  else
    match s.insertNew { Token.ofRaw path value with description := some description } with
    | .ok s' => (s', .ok { kind := .create, path })
    | .error e => (s, .error e)

/-- Gives one target the description of its name, if it has none. -/
def describeTarget (dry : Bool) (s : Store locked) (path : String) : Step locked Operation :=
  match s.get? path with
  | none => s.failed .updateReferences path (.notFound path)
  | some t =>
    let op (r : Remark) : Operation := { kind := .updateReferences, path, remark := some r }
    if t.description.any fun d => d ≠ "" then (s, .ok (op .describedBefore))
    else
      match Naming.strict? path with
      | none => (s, .ok (op .noDescription))
      | some n =>
        let text := n.describe
        if dry then (s, .ok (op (.described text)))
        else (s.edit path fun t => { t with description := some text }, .ok (op (.described text)))

/-! ## Actions -/

/-- Each target of a rename with its explicit new path, if it has one. -/
def renameTargets (a : Action) : List (String × Option String) :=
  a.targets.zipIdx.map fun (p, i) => (p, a.newPaths[i]?)

/-- Folds all targets but the first into the first. -/
def merge (s : Store locked) (dry : Bool) (targets : List String) :
    Step locked (List Operation) :=
  let refused (path : String) (f : Fault) : Step locked (List Operation) :=
    (s, .ok [{ kind := .merge, path, fault := some f }])
  match targets with
  | [] => refused "" (.tooFewToMerge 0)
  | [keep] => refused keep (.tooFewToMerge 1)
  | keep :: sources =>
    if !s.contains keep then refused keep (.survivorMissing keep)
    else forTargets (mergeSource dry keep) sources s

/-- The targets of a description pass; without targets it means all compliant tokens. -/
def describeTargets (s : Store locked) (targets : List String) : List String :=
  if targets.isEmpty then s.paths.filter fun p => (Naming.strict? p).isSome else targets

def runAction (s : Store locked) (dry : Bool) (a : Action) : Step locked (List Operation) :=
  match a.kind with
  | .rename => forTargets (renameTarget dry) (renameTargets a) s
  | .merge => s.merge dry a.targets
  | .split => forTargets (splitTarget dry ("Manual split required: " ++ a.description)) a.targets s
  | .restructure => forTargets (restructureTarget dry) a.targets s
  | .delete => forTargets (deleteTarget dry) a.targets s
  | .create => forTargets (createTarget dry (a.value.getD "") a.description) a.targets s
  | .updateReferences => forTargets (describeTarget dry) (s.describeTargets a.targets) s

/-- The targets whose new path is inferred when a rename runs on the store. -/
def inferredTargets (dry : Bool) : List (String × Option String) → Store locked → List String
  | [], _ => []
  | (path, newPath) :: rest, s =>
    let here := if s.contains path && newPath.isNone then [path] else []
    match s.renameTarget dry (path, newPath) with
    | (_, .error _) => here
    | (s', .ok _) => here ++ inferredTargets dry rest s'

end Store

end DesignTokens
