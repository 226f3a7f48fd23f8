import DesignTokens.Audit.Coverage

/-!
# Comparing a store with a reference set

Three similarities, each between zero and one: of the shares of the property classes, of the
compliance rates, and of the contexts that are covered.  Their mean is the overall similarity.
-/

namespace DesignTokens

structure ReferenceComparison (α : Type) where
  currentReport : StructureReport α
  referenceReport : StructureReport α
  currentContexts : List UxContext
  referenceContexts : List UxContext
  deriving DecidableEq, Repr

namespace ReferenceComparison

variable {α : Type} [Scalar α]

def classShare (r : StructureReport α) (c : String) : α :=
  Scalar.ofNat ((r.byClass.lookup c).getD 0) / Scalar.ofNat (max r.compliant 1)

/-- One less half the sum of the differences between the shares of the classes. -/
def structureSimilarity (c : ReferenceComparison α) : α :=
  let a := c.currentReport
  let b := c.referenceReport
  if a.compliant = 0 ∧ b.compliant = 0 then 1
  else
    let classes := Text.sorted (a.byClass.map Prod.fst ++ b.byClass.map Prod.fst)
    let distance := classes.foldl
      (fun sum k => sum + Scalar.magnitude (classShare a k - classShare b k)) (0 : α)
    Scalar.clamp 0 1 (1 - distance / 2)

def namingSimilarity (c : ReferenceComparison α) : α :=
  1 - Scalar.magnitude (c.currentReport.complianceRate - c.referenceReport.complianceRate)

def shared (c : ReferenceComparison α) : List UxContext :=
  c.currentContexts.filter c.referenceContexts.contains

def missing (c : ReferenceComparison α) : List UxContext :=
  c.referenceContexts.filter fun x => !c.currentContexts.contains x

def extra (c : ReferenceComparison α) : List UxContext :=
  c.currentContexts.filter fun x => !c.referenceContexts.contains x

/-- The share of the covered contexts that both sets cover. -/
def contextOverlap (c : ReferenceComparison α) : α :=
  Scalar.ratio c.shared.length (c.shared.length + c.missing.length + c.extra.length)

def similarity (c : ReferenceComparison α) : α :=
  (c.structureSimilarity + c.namingSimilarity + c.contextOverlap) / 3

/-! ## Remarks -/

/-- How far the compliance of the current set trails that of the reference. -/
def complianceGap (c : ReferenceComparison α) : α :=
  c.referenceReport.complianceRate - c.currentReport.complianceRate

def trails (c : ReferenceComparison α) : Bool := decide (0 < c.complianceGap)

def differs (c : ReferenceComparison α) : Bool := decide (c.structureSimilarity < (0.5 : α))

def contextNames (contexts : List UxContext) : String :=
  ", ".intercalate (contexts.map UxContext.id)

def insights (c : ReferenceComparison α) : List String :=
  let a := c.currentReport
  let b := c.referenceReport
  [s!"{a.compliant} of {a.total} tokens are compliant against {b.compliant} of {b.total} " ++
      "in the reference"] ++
    (if c.trails then
      [s!"Naming compliance trails the reference by {Scalar.toFixed 0 (c.complianceGap * 100)}%"]
    else []) ++
    (if c.differs then ["Property class mix differs substantially from the reference"] else []) ++
    (if c.missing.isEmpty then []
    else ["Reference covers contexts this set lacks: " ++ contextNames c.missing]) ++
    (if c.extra.isEmpty then [] else ["Only this set covers: " ++ contextNames c.extra])

def recommendations (c : ReferenceComparison α) : List String :=
  (if c.trails then ["Apply the suggested renames to close the naming gap"] else []) ++
    (if c.differs then ["Review which property classes the reference relies on"] else []) ++
    (if c.missing.isEmpty then [] else ["Add tokens for " ++ contextNames c.missing])

end ReferenceComparison

def Store.compareWith {α : Type} [Scalar α] {locked locked' : String → Bool}
    (current : Store locked) (reference : Store locked') : ReferenceComparison α where
  currentReport := current.structureReport
  referenceReport := reference.structureReport
  currentContexts := current.coverage.covered
  referenceContexts := reference.coverage.covered

end DesignTokens
