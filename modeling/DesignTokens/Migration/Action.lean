import DesignTokens.Text.Blank
import DesignTokens.Text.Search

/-!
# Migration plans

A scenario is a list of phases and a phase a list of actions, both in the order in which they are
run.  An action names its targets; what happens to each is up to its kind.
-/

namespace DesignTokens

/-- The three templates of a migration, from the least to the most invasive. -/
inductive Approach where
  | conservative
  | progressive
  | comprehensive
  deriving DecidableEq, Repr

namespace Approach

def all : List Approach := [conservative, progressive, comprehensive]

def id : Approach → String
  | conservative => "conservative"
  | progressive => "progressive"
  | comprehensive => "comprehensive"

def ofId? (s : String) : Option Approach := all.find? fun a => a.id == s

/-- The approach that a text names, up to letter case and blanks around it. -/
def ofText? (s : String) : Option Approach := ofId? (Text.lower (Text.trim s))

/-- The refusal of a text that names no approach. -/
def unknownMessage (s : String) : String := "unknown approach: " ++ s

end Approach

/-- What an action does to its targets. -/
inductive ActionKind where
  -- Moves tokens to new paths and rewrites the references to them.
  | rename
  -- Folds all targets into the first.
  | merge
  -- Marks tokens that need to be split by hand.
  | split
  -- Moves compliant tokens to their canonical paths.
  | restructure
  -- Removes tokens that nothing refers to.
  | delete
  -- Puts new tokens at free paths.
  | create
  -- Fills in missing descriptions.
  | updateReferences
  deriving DecidableEq, Repr

namespace ActionKind

def all : List ActionKind :=
  [rename, merge, split, restructure, delete, create, updateReferences]

def id : ActionKind → String
  | rename => "rename"
  | merge => "merge"
  | split => "split"
  | restructure => "restructure"
  | delete => "delete"
  | create => "create"
  | updateReferences => "update-references"

def ofId? (s : String) : Option ActionKind := all.find? fun k => k.id == s

end ActionKind

/-- A property of the store that is checked after an action. -/
inductive Check where
  | noCycles
  | noBrokenReferences
  | namingCompliance
  deriving DecidableEq, Repr

namespace Check

def all : List Check := [noCycles, noBrokenReferences, namingCompliance]

def id : Check → String
  | noCycles => "no-circular-dependencies"
  | noBrokenReferences => "no-broken-references"
  | namingCompliance => "naming-convention-compliance"

def ofId? (s : String) : Option Check := all.find? fun c => c.id == s

def name : Check → String
  | noCycles => "no circular dependencies"
  | noBrokenReferences => "no broken references"
  | namingCompliance => "naming convention compliance"

end Check

structure Action where
  id : String
  kind : ActionKind
  description : String
  targets : List String
  -- Where a rename moves each target; a missing path is inferred.
  newPaths : List String := []
  -- The raw value of created tokens.
  value : Option String := none
  checks : List Check := []
  deriving DecidableEq, Repr

structure Phase where
  id : String
  name : String
  description : String
  actions : List Action
  effortHours : Nat
  dependencies : List String
  rollbackPlan : String
  deriving DecidableEq, Repr

structure Scenario (α : Type) where
  approach : Approach
  name : String
  description : String
  -- From zero to a hundred.
  risk : α
  phases : List Phase
  effortHours : Nat
  days : Nat
  successProbability : α
  benefits : List String
  challenges : List String
  prerequisites : List String
  deriving DecidableEq, Repr

namespace Scenario

variable {α : Type}

def actions (s : Scenario α) : List Action := s.phases.flatMap Phase.actions

def phase? (s : Scenario α) (id : String) : Option Phase := s.phases.find? fun p => p.id == id

end Scenario

end DesignTokens
