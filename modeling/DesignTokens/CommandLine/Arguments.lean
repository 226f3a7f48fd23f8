import DesignTokens.Migration.Action

/-!
# Command line arguments

Arguments are taken one at a time, from left to right.  The first word names a command; what
stands before it are switches of the program, and what comes after it are switches and files of
the command.  Three switches are known on both sides, and the one after the command counts.

The first fault ends the reading, and so does a call for help.  After `--` everything is a file.
-/

namespace DesignTokens.CommandLine

inductive Command where
  | audit (tokens : String)
  | plan (tokens : String)
  | migrate (tokens : String) (approach : Approach) (apply validate stopOnError : Bool)
      (output : Option String)
  | compare (tokens reference : String)
  deriving DecidableEq, Repr

/-- A command with the switches that every command has. -/
structure Invocation where
  config : Option String
  -- Tell which files are read.
  verbose : Bool
  -- Print the document on one line.
  compact : Bool
  command : Command
  deriving DecidableEq, Repr

inductive UsageError where
  | unexpected (arg : String)
  | repeated (switch : String)
  | valueMissing (switch : String)
  | valueUnexpected (switch : String)
  | invalidValue (what value : String)
  | required (what : String)
  deriving DecidableEq, Repr

def UsageError.message : UsageError → String
  | unexpected arg => "unexpected argument '" ++ arg ++ "' found"
  | repeated switch => "the argument '--" ++ switch ++ "' cannot be used multiple times"
  | valueMissing switch => "a value is required for '--" ++ switch ++ "' but none was supplied"
  | valueUnexpected switch => "no value is allowed for '--" ++ switch ++ "'"
  | invalidValue what value => "invalid value '" ++ value ++ "' for '" ++ what ++ "'"
  | required what => "the required argument '" ++ what ++ "' was not provided"

/-- What ends the reading of arguments before their end. -/
inductive Stop where
  | help
  | version
  | usage (e : UsageError)
  deriving DecidableEq, Repr

/-! ## Switches -/

/-- A switch; some are followed by a value. -/
structure Switch where
  name : String
  short : Option Char
  hasValue : Bool
  deriving DecidableEq, Repr

def Switch.help : Switch := ⟨"help", some 'h', false⟩

def Switch.version : Switch := ⟨"version", some 'V', false⟩

/-- The switches on both sides of the command. -/
def sharedSwitches : List Switch :=
  [⟨"config", some 'c', true⟩, ⟨"verbose", some 'v', false⟩, ⟨"compact", none, false⟩,
    Switch.help]

inductive CommandName where
  | audit
  | plan
  | migrate
  | compare
  -- Shows how a command is used.
  | help
  deriving DecidableEq, Repr

namespace CommandName

def all : List CommandName := [audit, plan, migrate, compare, help]

def id : CommandName → String
  | audit => "audit"
  | plan => "plan"
  | migrate => "migrate"
  | compare => "compare"
  | help => "help"

def ofId? (s : String) : Option CommandName := all.find? fun c => c.id == s

/-- The files that a command takes. -/
def files : CommandName → List String
  | audit | plan | migrate => ["TOKENS"]
  | compare => ["TOKENS", "REFERENCE"]
  | help => []

def switches : CommandName → List Switch
  | migrate =>
    [⟨"approach", some 'a', true⟩, ⟨"apply", none, false⟩, ⟨"validate", none, false⟩,
      ⟨"stop-on-error", none, false⟩, ⟨"output", some 'o', true⟩] ++ sharedSwitches
  | audit | plan | compare => sharedSwitches
  | help => []

end CommandName

/-! ## Reading -/

/-- The switches and files given on one side of the command. -/
structure Given where
  flags : List String := []
  values : List (String × String) := []
  files : List String := []
  deriving DecidableEq, Repr

namespace Given

def has (g : Given) (name : String) : Bool := g.flags.contains name || (g.values.lookup name).isSome

end Given

/-- How far the arguments have been read. -/
structure Progress where
  before : Given := {}
  command : Option (CommandName × Given) := none
  -- A switch that waits for its value.
  pending : Option Switch := none
  -- Whether everything that comes is a file.
  onlyFiles : Bool := false
  deriving DecidableEq, Repr

namespace Progress

/-- What has been given on the side that is being read. -/
def here (p : Progress) : Given :=
  match p.command with
  | some (_, g) => g
  | none => p.before

def setHere (p : Progress) (g : Given) : Progress :=
  match p.command with
  | some (name, _) => { p with command := some (name, g) }
  | none => { p with before := g }

def switches (p : Progress) : List Switch :=
  match p.command with
  | some (name, _) => name.switches
  | none => Switch.version :: sharedSwitches

def flag (p : Progress) (s : Switch) : Except Stop Progress :=
  if s = Switch.help then .error .help
  else if s = Switch.version then .error .version
  else if p.here.has s.name then .error (.usage (.repeated s.name))
  else .ok (p.setHere { p.here with flags := p.here.flags ++ [s.name] })

/-- Whether a value can follow a switch. -/
def accepts (s : Switch) (value : String) : Bool :=
  if s.name = "approach" then (Approach.ofText? value).isSome else value ≠ ""

def value (p : Progress) (s : Switch) (v : String) : Except Stop Progress :=
  if p.here.has s.name then .error (.usage (.repeated s.name))
  else if accepts s v then
    .ok { p.setHere { p.here with values := p.here.values ++ [(s.name, v)] } with pending := none }
  else .error (.usage (.invalidValue ("--" ++ s.name) v))

/-- Notes a switch written with two dashes, which may be joined to its value by an equals sign. -/
def long (p : Progress) (body : List Char) : Except Stop Progress :=
  let name := String.ofList (body.takeWhile fun c => c != '=')
  let joined := body.dropWhile fun c => c != '='
  match p.switches.find? fun s => s.name == name with
  | none => .error (.usage (.unexpected ("--" ++ name)))
  | some s =>
    match s.hasValue, joined with
    | true, [] => .ok { p with pending := some s }
    | true, _ :: v => p.value s (String.ofList v)
    | false, [] => p.flag s
    | false, _ :: _ => .error (.usage (.valueUnexpected s.name))

/-- Notes switches of one letter each, written behind one dash.  What follows the letter of a
switch with a value is that value. -/
def short (p : Progress) : List Char → Except Stop Progress
  | [] => .ok p
  | c :: rest =>
    match p.switches.find? fun s => s.short == some c with
    | none => .error (.usage (.unexpected ("-" ++ c.toString)))
    | some s =>
      if s.hasValue then
        match rest with
        | [] => .ok { p with pending := some s }
        | '=' :: v => p.value s (String.ofList v)
        | v => p.value s (String.ofList v)
      else (p.flag s).bind fun p => p.short rest

/-- Notes a word: the name of the command, or else one of its files. -/
def word (p : Progress) (w : String) : Except Stop Progress :=
  match p.command with
  | none =>
    match CommandName.ofId? w with
    | some name => if p.onlyFiles then .error (.usage (.unexpected w))
      else .ok { p with command := some (name, {}) }
    | none => .error (.usage (.unexpected w))
  | some (.help, g) =>
    if g.files = [] ∧ (CommandName.ofId? w).isSome then
      .ok (p.setHere { g with files := [w] })
    else .error (.usage (.unexpected w))
  | some (name, g) =>
    if name.files.length ≤ g.files.length then .error (.usage (.unexpected w))
    else if w = "" then .error (.usage (.invalidValue "file" w))
    else .ok (p.setHere { g with files := g.files ++ [w] })

def take (p : Progress) (arg : String) : Except Stop Progress :=
  let isHelp := p.command.any fun c => c.1 = .help
  if p.onlyFiles || isHelp then p.word arg
  else
    match p.pending, arg.toList with
    | some s, '-' :: _ :: _ => .error (.usage (.valueMissing s.name))
    | some s, _ => p.value s arg
    | none, ['-', '-'] => .ok { p with onlyFiles := true }
    | none, '-' :: '-' :: body => p.long body
    | none, '-' :: c :: rest => p.short (c :: rest)
    | none, _ => p.word arg

/-- The value of a switch, taken from behind the command if it is there. -/
def sharedValue? (p : Progress) (name : String) : Option String :=
  (p.here.values.lookup name).or (p.before.values.lookup name)

def sharedFlag (p : Progress) (name : String) : Bool := p.here.has name || p.before.has name

/-- The command, once all its files have been given. -/
def command? (p : Progress) : Except Stop Command :=
  match p.command with
  | none => .error (.usage (.required "COMMAND"))
  | some (.help, _) => .error .help
  | some (.audit, { files := [tokens], .. }) => .ok (.audit tokens)
  | some (.plan, { files := [tokens], .. }) => .ok (.plan tokens)
  | some (.compare, { files := [tokens, reference], .. }) => .ok (.compare tokens reference)
  | some (.migrate, g) =>
    let output := g.values.lookup "output"
    match g.files with
    | [tokens] =>
      if output.isSome && !g.has "apply" then .error (.usage (.required "--apply"))
      else
        let approach := ((g.values.lookup "approach").bind Approach.ofText?).getD .progressive
        .ok (.migrate tokens approach (g.has "apply") (g.has "validate") (g.has "stop-on-error")
          output)
    | _ => .error (.usage (.required "TOKENS"))
  | some (name, g) =>
    .error (.usage (.required ((name.files.drop g.files.length).headD "TOKENS")))

def finish (p : Progress) : Except Stop Invocation :=
  match p.pending with
  | some s => .error (.usage (.valueMissing s.name))
  | none =>
    p.command?.map fun command =>
      { config := p.sharedValue? "config"
        verbose := p.sharedFlag "verbose"
        compact := p.sharedFlag "compact"
        command }

end Progress

def Invocation.ofArguments (args : List String) : Except Stop Invocation :=
  (args.foldlM Progress.take {}).bind Progress.finish

end DesignTokens.CommandLine
