import DesignTokens.CommandLine.Run

/-!
# The program

Reads its files, prints its document and writes its output; everything else is decided by
`Invocation.outcome`.
-/

namespace DesignTokens.CommandLine

def usage : String :=
  "Semantic design-token audit and migration planner\n\n" ++
  "Usage: semtok [OPTIONS] <COMMAND>\n\n" ++
  "Commands:\n" ++
  "  audit FILE         Audit a token file and print the health report\n" ++
  "  plan FILE          Generate and rank migration scenarios\n" ++
  "  migrate FILE       Run one migration scenario (preview unless --apply)\n" ++
  "  compare FILE FILE  Compare a token file against a reference design system\n\n" ++
  "Options:\n" ++
  "  -c, --config FILE        Settings (TOML)\n" ++
  "  -v, --verbose            Tell which files are read\n" ++
  "      --compact            Single-line JSON output\n" ++
  "  -h, --help               Print help\n" ++
  "  -V, --version            Print version\n\n" ++
  "Options of migrate:\n" ++
  "  -a, --approach APPROACH  conservative, progressive or comprehensive\n" ++
  "      --apply              Change the tokens instead of previewing\n" ++
  "      --validate           Run checks after each action\n" ++
  "      --stop-on-error      Stop at the first failed action\n" ++
  "  -o, --output FILE        Where to write the migrated token file\n"

def readText? (path : String) : IO (Option String) := do
  try
    let bytes ← IO.FS.readBinFile path
    pure (String.fromUTF8? bytes)
  catch _ => pure none

/-- Writes a file and tells whether that worked. -/
def tryWrite (w : Writing) : IO Bool := do
  try
    IO.FS.writeFile w.path w.text
    pure true
  catch _ => pure false

def perform (i : Invocation) : IO UInt32 := do
  let texts ← i.inputs.mapM fun path => do
    if i.verbose then IO.eprintln ("reading " ++ path)
    pure (path, ← readText? path)
  let outcome := i.outcome fun path => (texts.lookup path).join
  match outcome.document with
  | some j => IO.println (i.print j)
  | none => pure ()
  let written ← match outcome.writing with
    | some w => tryWrite w
    | none => pure true
  let outcome := if written then outcome else outcome.withoutWriting
  match outcome.failure with
  | some f => IO.eprintln ("Error: " ++ f.message)
  | none => pure ()
  pure (UInt32.ofNat outcome.exitCode)

end DesignTokens.CommandLine

open DesignTokens.CommandLine in
def main (args : List String) : IO UInt32 := do
  match Invocation.ofArguments args with
  | .ok i => perform i
  | .error .help =>
    IO.print usage
    pure 0
  | .error .version =>
    IO.println "semtok 0.1.0"
    pure 0
  | .error (.usage e) =>
    IO.eprintln ("error: " ++ e.message)
    IO.eprint usage
    pure 2
