import DesignTokens.CommandLine.Arguments
import DesignTokens.Migration.Document
import DesignTokens.Settings.Toml
import DesignTokens.TokenFile

/-!
# Running a command

A command reads its settings, then its token files, and prints one document.  A migration that is
applied may also write the tokens it leaves behind.

Files are read through a function from paths to texts, and the file to write is part of the
outcome, so running a command is a function of what is on the disk.
-/

namespace DesignTokens.CommandLine

inductive Failure where
  | config (path : String)
  | unreadable (path : String)
  | malformed (path : String)
  | unwritable (path : String)
  -- The settings make the reading of some path impossible to grade.
  | ungradable (path : String)
  deriving DecidableEq, Repr

namespace Failure

def message : Failure → String
  | config path => "failed to load config " ++ path
  | unreadable path => "failed to read " ++ path
  | malformed path => "failed to parse " ++ path
  | unwritable path => "failed to write " ++ path
  | ungradable path => "the lenient floor is above one, so " ++ path ++ " has no confidence"

def exitCode : Failure → Nat
  | ungradable _ => 101
  | _ => 1

end Failure

/-- A text to be written to a file. -/
structure Writing where
  path : String
  text : String
  deriving DecidableEq, Repr

structure Outcome where
  exitCode : Nat := 0
  -- The document that is printed.
  document : Option Json := none
  writing : Option Writing := none
  failure : Option Failure := none

namespace Outcome

def failed (f : Failure) : Outcome := { exitCode := f.exitCode, failure := some f }

/-- The outcome when the file cannot be written: the document has been printed by then. -/
def withoutWriting (o : Outcome) : Outcome :=
  match o.writing with
  | some w =>
    let f := Failure.unwritable w.path
    { o with exitCode := f.exitCode, writing := none, failure := some f }
  | none => o

end Outcome

/-- The texts of the files that can be read. -/
abbrev Disk := String → Option String

def loadSettings (disk : Disk) : Option String → Except Failure (Settings Double)
  | none => .ok .standard
  | some path =>
    match (disk path).bind Settings.ofToml? with
    | some c => .ok c
    | none => .error (.config path)

def loadTokens (disk : Disk) (path : String) : Except Failure OpenStore :=
  match disk path with
  | none => .error (.unreadable path)
  | some text => (TokenFile.read text).mapError fun _ => .malformed path

/-- A computation that needs gradable paths. -/
def graded {α : Type} (result : Except Ungradable α) : Except Failure α :=
  result.mapError fun e => .ungradable e.path

namespace Command

def run (disk : Disk) (c : Settings Double) : Command → Except Failure Outcome
  | audit tokens => do
    let s ← loadTokens disk tokens
    let audit ← graded (s.audit? c Contrast.standard)
    pure { document := some audit.toJson }
  | plan tokens => do
    let s ← loadTokens disk tokens
    let plan ← graded (s.plan? c Contrast.standard)
    pure { document := some plan.toJson }
  | compare tokens reference => do
    let current ← loadTokens disk tokens
    let reference ← loadTokens disk reference
    pure { document := some (current.compareWith reference : ReferenceComparison Double).toJson }
  | migrate tokens approach apply validate stopOnError output => do
    let s ← loadTokens disk tokens
    let options : RunOptions :=
      { dryRun := !apply, validate, stopOnError, createSnapshot := apply }
    let (after, execution) ← graded (s.migrate? c Contrast.standard approach options)
    pure
      { exitCode := if execution.status = .failed then 1 else 0
        document := some execution.toJson
        writing := output.map fun path => ⟨path, (TokenFile.ofStore after).pretty⟩ }

end Command

namespace Invocation

/-- The files that an invocation may read. -/
def inputs (i : Invocation) : List String :=
  i.config.toList ++
    match i.command with
    | .audit tokens | .plan tokens | .migrate tokens _ _ _ _ _ => [tokens]
    | .compare tokens reference => [tokens, reference]

def outcome (i : Invocation) (disk : Disk) : Outcome :=
  match (loadSettings disk i.config).bind fun c => i.command.run disk c with
  | .ok o => o
  | .error f => .failed f

def print (i : Invocation) (j : Json) : String := if i.compact then j.compact else j.pretty

end Invocation

end DesignTokens.CommandLine
