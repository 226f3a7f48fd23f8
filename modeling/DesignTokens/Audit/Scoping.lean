import DesignTokens.Naming.Strict
import DesignTokens.Severity
import DesignTokens.Store.Resolution

/-!
# Scoping

A compliant name makes a promise: its value is of the kind of its property class, its class
belongs to its context, and it refers to no token of another context.
-/

namespace DesignTokens

/-- A broken promise of a name. -/
inductive ScopingIssue where
  | kindMismatch (path : String) (propertyClass : PropertyClass) (kind : Kind)
  | classOutsideContext (path : String) (propertyClass : PropertyClass) (context : UxContext)
  | crossContext (path : String) (context : UxContext) (target : String) (other : UxContext)
  deriving DecidableEq, Repr

namespace ScopingIssue

def id : ScopingIssue → String
  | kindMismatch _ _ _ => "value-kind-mismatch"
  | classOutsideContext _ _ _ => "class-outside-context"
  | crossContext _ _ _ _ => "cross-context-reference"

def severity : ScopingIssue → Severity
  | kindMismatch _ _ _ => .error
  | classOutsideContext _ _ _ | crossContext _ _ _ _ => .warning

def path : ScopingIssue → String
  | kindMismatch p _ _ | classOutsideContext p _ _ | crossContext p _ _ _ => p

def message : ScopingIssue → String
  | kindMismatch p c k => s!"{p} is a {c.id} token but holds a {k.id} value"
  | classOutsideContext _ c x => s!"{c.id} is not part of the {x.id} context surface"
  | crossContext p x t y => s!"{p} ({x.id}) references {t} ({y.id})"

end ScopingIssue

structure ScopingReport where
  issues : List ScopingIssue
  deriving DecidableEq, Repr

namespace ScopingReport

def count (r : ScopingReport) (s : Severity) : Nat :=
  (r.issues.filter fun i => i.severity = s).length

def errors (r : ScopingReport) : Nat := r.count .error

def warnings (r : ScopingReport) : Nat := r.count .warning

end ScopingReport

/-- Whether a value of a kind cannot belong to a property class. -/
def PropertyClass.contradicts (c : PropertyClass) (k : Kind) : Bool :=
  if c.isDimension then k == .color else k == .dimension || k == .number

namespace Store

variable {locked : String → Bool}

/-- The issue of a value whose kind does not suit the class. -/
def kindIssues (s : Store locked) (t : Token) (n : Name) : List ScopingIssue :=
  match s.valueAt? t.path with
  | none => []
  | some v =>
    let kind := t.declared.getD v.kind
    if n.propertyClass.contradicts kind then [.kindMismatch t.path n.propertyClass kind] else []

/-- The issue of a class that the context has no use for. -/
def surfaceIssues (t : Token) (n : Name) (context : UxContext) : List ScopingIssue :=
  if context.allowed.contains n.propertyClass then []
  else [.classOutsideContext t.path n.propertyClass context]

/-- The issues of references that leave the context. -/
def crossingIssues (s : Store locked) (t : Token) (context : UxContext) : List ScopingIssue :=
  (t.targets s.contains).filterMap fun target =>
    match (Naming.strict? target).bind Name.context with
    | some other => if other = context then none else some (.crossContext t.path context target other)
    | none => none

/-- The issues of one token; a token whose path is not compliant promises nothing. -/
def scopingIssues (s : Store locked) (t : Token) : List ScopingIssue :=
  match Naming.strict? t.path with
  | none => []
  | some n =>
    s.kindIssues t n ++
      match n.context with
      | none => []
      | some context => surfaceIssues t n context ++ s.crossingIssues t context

def scopingReport (s : Store locked) : ScopingReport := ⟨s.tokens.flatMap s.scopingIssues⟩

end Store

end DesignTokens
