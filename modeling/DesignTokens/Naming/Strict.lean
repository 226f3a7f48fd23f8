import DesignTokens.Naming.Vocabulary
import DesignTokens.Text.Search

/-!
# Strict reading of paths

A path is cut into segments at points, slashes and hyphens.  The strict reading takes the
identifiers of the axes in their canonical order and accepts nothing else: a property class of one
or two segments, a context if there is one, an intent, a modifier if there is one, a state if
there is one, and then the end.

An intent of one's own is accepted only without a context, and only if it is made of small ASCII
letters and digits and is no word of the vocabulary.
-/

namespace DesignTokens.Naming

/-- The characters between segments. -/
def isSeparator (c : Char) : Bool := c == '.' || c == '/' || c == '-'

/-- The segments of a path, the empty ones left out. -/
def segments (path : String) : List String :=
  (Text.wordsBy isSeparator path.toList).map String.ofList

/-- Two segments written as the one identifier that they may stand for. -/
def compound (first second : String) : String := first ++ "-" ++ second

/-- The property class that a list of segments begins with, and the rest.  An identifier of two
segments goes before one of a single segment. -/
def classAhead? : List String → Option (PropertyClass × List String)
  | [] => none
  | [s] => (PropertyClass.ofId? s).map fun c => (c, [])
  | s :: next :: rest =>
    match PropertyClass.ofId? (compound s next) with
    | some c => some (c, rest)
    | none => (PropertyClass.ofId? s).map fun c => (c, next :: rest)

/-- The first segment if it is on an axis, and the segments after it. -/
def takeId {α : Type} (ofId? : String → Option α) : List String → Option α × List String
  | [] => (none, [])
  | s :: rest =>
    match ofId? s with
    | some a => (some a, rest)
    | none => (none, s :: rest)

/-- Whether a word is made of small ASCII letters and digits. -/
def isPlainWord (word : String) : Bool :=
  word.toList.all fun c => ('a' ≤ c && c ≤ 'z') || ('0' ≤ c && c ≤ '9')

/-- The intent that a segment stands for. -/
def intentOf? (context : Option UxContext) (word : String) : Option Intent :=
  match Intent.ofId? word with
  | some i => some i
  | none =>
    if context.isNone && isPlainWord word && !Vocabulary.isKnown word then some (.custom word)
    else none

/-- The name with a given class whose other axes fill the segments. -/
def nameOfTail? (c : PropertyClass) (tail : List String) : Option Name :=
  let (context, rest) := takeId UxContext.ofId? tail
  match rest with
  | [] => none
  | word :: rest =>
    match intentOf? context word with
    | none => none
    | some intent =>
      let (modifier, rest) := takeId Emphasis.ofId? rest
      let (state, rest) := takeId InteractionState.ofId? rest
      if rest.isEmpty then some { propertyClass := c, context, intent, modifier, state } else none

def nameOfSegments? (segs : List String) : Option Name :=
  match classAhead? segs with
  | some (c, tail) => nameOfTail? c tail
  | none => none

/-- The name that a path spells. -/
def strict? (path : String) : Option Name := nameOfSegments? (segments path)

/-- Whether a path is the canonical path of the name that it spells. -/
def isCanonical (path : String) : Bool := (strict? path).any fun n => n.path == path

def strict (path : String) : Except NamingError Name :=
  match strict? path with
  | some n => .ok n
  | none => .error (.nonCanonical path)

end DesignTokens.Naming
