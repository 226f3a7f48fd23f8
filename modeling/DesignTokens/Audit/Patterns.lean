import DesignTokens.Audit.Named
import DesignTokens.Severity
import DesignTokens.Store.Resolution
import DesignTokens.Text.Ordered
import DesignTokens.Text.Search

/-!
# Anti-patterns

Five habits that a token set should not have: a compliant token that spells out a hex colour,
paths of one class that mix separators, tokens of one class and intent with the same value,
colours under one keyword that lie far apart, and a hover state without a default state.
-/

namespace DesignTokens

inductive AntiPattern where
  | primitiveLeakage (path color : String)
  | namingInconsistency (propertyClass : String) (styles paths : List String)
  | redundantTokens (propertyClass intent value : String) (paths : List String)
  | semanticDrift (keyword : String) (spread : Nat) (paths : List String)
  | missingVariant (base : String) (paths : List String)
  deriving DecidableEq, Repr

namespace AntiPattern

def id : AntiPattern → String
  | primitiveLeakage _ _ => "primitive-leakage"
  | namingInconsistency _ _ _ => "naming-inconsistency"
  | redundantTokens _ _ _ _ => "redundant-tokens"
  | semanticDrift _ _ _ => "semantic-drift"
  | missingVariant _ _ => "missing-variant"

def severity : AntiPattern → Severity
  | missingVariant _ _ => .error
  | _ => .warning

def paths : AntiPattern → List String
  | primitiveLeakage path _ => [path]
  | namingInconsistency _ _ paths | redundantTokens _ _ _ paths | semanticDrift _ _ paths
  | missingVariant _ paths => paths

def message : AntiPattern → String
  | primitiveLeakage path color =>
    s!"{path} hard-codes {color} instead of referencing a primitive"
  | namingInconsistency c styles _ =>
    s!"{c} tokens mix separator styles " ++ ", ".intercalate (styles.map fun s => s!"'{s}'")
  | redundantTokens c intent value paths =>
    s!"{paths.length} {c}/{intent} tokens share the value {value}"
  | semanticDrift keyword spread _ =>
    s!"'{keyword}' colors diverge by {spread} in the red channel"
  | missingVariant base _ => s!"{base} defines a hover state but no default"

def suggestion : AntiPattern → String
  | primitiveLeakage _ _ => "Reference a palette token such as \x7bcolor.blue.500\x7d"
  | namingInconsistency _ _ _ => "Use '.' between every path segment"
  | redundantTokens _ _ _ paths => "Merge into " ++ paths.headD ""
  | semanticDrift keyword _ _ => s!"Point every '{keyword}' token at one palette color"
  | missingVariant base _ => s!"Create {base}"

end AntiPattern

structure PatternReport where
  patterns : List AntiPattern
  deriving DecidableEq, Repr

namespace PatternReport

def count (r : PatternReport) (s : Severity) : Nat :=
  (r.patterns.filter fun p => p.severity = s).length

def errors (r : PatternReport) : Nat := r.count .error

def warnings (r : PatternReport) : Nat := r.count .warning

/-- The groups of paths that hold the same value. -/
def redundantGroups (r : PatternReport) : List (List String) :=
  r.patterns.filterMap fun
    | .redundantTokens _ _ _ paths => some paths
    | _ => none

def missingVariants (r : PatternReport) : List (List String) :=
  r.patterns.filterMap fun
    | .missingVariant _ paths => some paths
    | _ => none

end PatternReport

namespace Store

variable {locked : String → Bool}

/-! ## The detectors -/

/-- A compliant token that spells out a hex colour. -/
def leakage? (t : NamedToken) : Option AntiPattern :=
  match t.token.value.text? with
  | none => none
  | some text =>
    let bare := Text.trim text
    if t.compliant && !t.token.hasEmbedded && (Rgb.ofText? bare).isSome then
      some (.primitiveLeakage t.path bare)
    else none

/-- The separators that occur in a path. -/
def separatorStyle (path : String) : String :=
  String.ofList (['.', '/', '_'].filter fun c => path.toList.contains c)

/-- The classes whose paths mix separators. -/
def inconsistencies (named : List NamedToken) : List AntiPattern :=
  (Text.groupBy (fun t => [t.name.propertyClass.id]) named).filterMap fun (key, members) =>
    let paths := members.map NamedToken.path
    let styles := Text.sorted ((paths.map separatorStyle).filter fun s => s ≠ "")
    if styles.length < 2 then none
    else some (.namingInconsistency (String.join key) styles paths)

/-- What tells the value of a token from others: its hex colour, or else its text. -/
def valueKey? (s : Store locked) (t : NamedToken) : Option String :=
  (s.valueAt? t.path).map fun v => v.hexColor?.getD v.render

/-- The groups of one class and intent whose values are the same. -/
def redundancies (s : Store locked) (named : List NamedToken) : List AntiPattern :=
  let keyed := named.filterMap fun t => (s.valueKey? t).map fun v => (t, v)
  let groups := Text.groupBy
    (fun (t, v) => [t.name.propertyClass.id, t.name.intent.id, v]) keyed
  groups.filterMap fun (key, members) =>
    match key with
    | [c, intent, value] =>
      if members.length < 2 then none
      else some (.redundantTokens c intent value (members.map fun m => m.1.path))
    | _ => none

/-- The colours whose paths hold a keyword, if their red channels lie too far apart. -/
def drift? (s : Store locked) (threshold : Nat) (keyword : String) : Option AntiPattern :=
  let members := s.tokens.filterMap fun t =>
    if Text.occurs (Text.lower keyword) (Text.lower t.path) then
      (((s.valueAt? t.path).bind Value.hexColor?).bind Rgb.ofText?).map fun c => (t.path, c.red)
    else none
  match members.map Prod.snd with
  | [] => none
  | red :: reds =>
    let spread := reds.foldl max red - reds.foldl min red
    if spread ≤ threshold then none
    else some (.semanticDrift keyword spread (members.map Prod.fst))

/-- The names that differ only in their state and of which all are hover states. -/
def hoversOnly (named : List NamedToken) : List AntiPattern :=
  (Text.groupBy (fun t => [{ t.name with state := none }.path]) named).filterMap
    fun (key, members) =>
      if members.all fun t => t.name.effectiveState = .hover then
        some (.missingVariant (String.join key) (members.map NamedToken.path))
      else none

/-- The anti-patterns of a store, detector by detector. -/
def antiPatterns (s : Store locked) (driftKeywords : List String) (driftThreshold : Nat) :
    PatternReport :=
  let named := s.named
  ⟨named.filterMap leakage? ++ inconsistencies named ++ s.redundancies named ++
    driftKeywords.filterMap (s.drift? driftThreshold) ++ hoversOnly named⟩

end Store

end DesignTokens
