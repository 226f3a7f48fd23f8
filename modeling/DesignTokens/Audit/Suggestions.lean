import DesignTokens.Naming.Grading
import DesignTokens.Store.Basic

/-!
# Suggested renames

Every path that is not compliant but can be read is suggested to become the canonical path of its
name, unless the reading is not certain enough or the canonical path is taken, by a token or by a
better suggestion.
-/

namespace DesignTokens

structure Suggestion (α : Type) where
  source : String
  target : String
  confidence : α
  aliases : List Naming.AliasUse
  skipped : List String
  unrecognized : List String
  reason : String
  deriving DecidableEq, Repr

namespace Suggestion

variable {α : Type} [Scalar α]

/-- Why a reading is suggested. -/
def reasonFor (path : String) (r : Naming.Reading) : String :=
  let inferred := s!"Inferred {r.name.propertyClass.id} from {path}"
  if r.aliases.isEmpty then inferred
  else
    inferred ++ " via " ++ ", ".intercalate (r.aliases.map fun a => s!"{a.word}→{a.canonical}")

/-- The suggestion that a reading of a path comes to. -/
def ofReading (g : Naming.Grading α) (path : String) (r : Naming.Reading) : Suggestion α where
  source := path
  target := r.name.path
  confidence := g.grade r
  aliases := r.aliases
  skipped := r.skipped
  unrecognized := r.unrecognized
  reason := reasonFor path r

def ofPath? (g : Naming.Grading α) (path : String) : Option (Suggestion α) :=
  match Naming.read? path with
  | none => none
  | some r => if r.strategy = .strict then none else some (ofReading g path r)

/-- The more certain suggestion goes first, and of two equally certain ones that with the smaller
source. -/
def ranksBefore (a b : Suggestion α) : Bool :=
  if Scalar.precedes b.confidence a.confidence then true
  else if Scalar.precedes a.confidence b.confidence then false
  else decide (a.source ≤ b.source)

end Suggestion

namespace Store

variable {locked : String → Bool} {α : Type} [Scalar α]

/-- The suggestions that are certain enough, the best first. -/
def candidates (s : Store locked) (g : Naming.Grading α) (least : α) : List (Suggestion α) :=
  ((s.paths.filterMap (Suggestion.ofPath? g)).filter fun c =>
    !decide (c.confidence < least)).mergeSort Suggestion.ranksBefore

/-- The candidates whose targets are free and not claimed by an earlier one. -/
def suggestions (s : Store locked) (g : Naming.Grading α) (least : α) : List (Suggestion α) :=
  (s.candidates g least).foldl (fun kept c =>
    if c.target = c.source || s.contains c.target || kept.any (fun k => k.target == c.target)
    then kept else kept ++ [c]) []

end Store

end DesignTokens
