import DesignTokens.Audit.Structure

/-!
# Coverage

Every context requires some property classes.  A cell of the matrix of contexts and classes is
present when a compliant path names both; a required cell that is not present is a gap, and the
gap's path is the canonical path with the base intent.
-/

namespace DesignTokens

structure CoverageCell where
  context : UxContext
  propertyClass : PropertyClass
  required : Bool
  present : Bool
  deriving DecidableEq, Repr

namespace CoverageCell

def isGap (c : CoverageCell) : Bool := c.required && !c.present

/-- The canonical path of a token that would fill the cell. -/
def suggestedPath (c : CoverageCell) : String :=
  Name.path { propertyClass := c.propertyClass, context := some c.context, intent := .base }

end CoverageCell

structure ContextCoverage (α : Type) where
  context : UxContext
  required : Nat
  present : Nat
  score : α
  deriving DecidableEq, Repr

/-- The coverage matrix of a store, context by context. -/
structure CoverageReport where
  cells : List CoverageCell
  deriving DecidableEq, Repr

namespace CoverageReport

variable {α : Type} [Scalar α]

def gaps (r : CoverageReport) : List CoverageCell := r.cells.filter CoverageCell.isGap

def requiredTotal (r : CoverageReport) : Nat := (r.cells.filter CoverageCell.required).length

def requiredPresent (r : CoverageReport) : Nat :=
  (r.cells.filter fun c => c.required && c.present).length

/-- The share of the required cells that are present. -/
def score (r : CoverageReport) : α := Scalar.ratio r.requiredPresent r.requiredTotal

def cell? (r : CoverageReport) (context : UxContext) (c : PropertyClass) : Option CoverageCell :=
  r.cells.find? fun cell => cell.context = context && cell.propertyClass = c

def contextCoverage (r : CoverageReport) (context : UxContext) : ContextCoverage α :=
  let own := r.cells.filter fun c => c.context = context && c.required
  let present := own.filter CoverageCell.present
  { context
    required := own.length
    present := present.length
    score := Scalar.ratio present.length own.length }

def contexts (r : CoverageReport) : List (ContextCoverage α) :=
  UxContext.all.map r.contextCoverage

/-- The contexts with a cell that is present. -/
def covered (r : CoverageReport) : List UxContext :=
  UxContext.all.filter fun x => r.cells.any fun c => c.context = x && c.present

end CoverageReport

def Store.coverage {locked : String → Bool} (s : Store locked) : CoverageReport :=
  let names := s.names
  ⟨UxContext.all.flatMap fun x =>
    PropertyClass.all.map fun c =>
      { context := x
        propertyClass := c
        required := x.required.contains c
        present := names.any fun n => n.context = some x && n.propertyClass = c }⟩

end DesignTokens
