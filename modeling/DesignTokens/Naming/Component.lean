import DesignTokens.Naming.Vocabulary
import DesignTokens.Text.Blank
import DesignTokens.Text.Search

/-!
# Component surfaces

The surface of a component is the set of tokens that a complete set defines for it.  It follows
the context that the component belongs to, with a few exceptions by component.

A component is found by its registered name.  Failing that, the longest registered name that
contains the given one or is contained in it is taken, the last in the registry of equally long
ones.
-/

namespace DesignTokens

/-- The token surface of a component. -/
structure ComponentSurface where
  component : String
  matched : String
  exact : Bool
  context : UxContext
  classes : List PropertyClass
  states : List InteractionState
  intents : List Intent
  deriving DecidableEq, Repr

namespace ComponentSurface

def contextStates : UxContext → List InteractionState
  | .action => [.resting, .hover, .active, .focus, .disabled]
  | .input => [.resting, .hover, .focus, .disabled]
  | .navigation => [.resting, .hover, .active, .selected]
  | .data => [.resting, .hover, .selected]
  | .surface | .feedback => [.resting]

def contextIntents : UxContext → List Intent
  | .action => [.accent, .base, .danger]
  | .feedback => [.success, .warning, .danger, .info]
  | .input | .surface | .navigation | .data => [.base, .muted]

/-- The exceptions that hold for single components. -/
def adjusted (s : ComponentSurface) : ComponentSurface :=
  match s.matched with
  | "icon-button" => { s with classes := [.background, .icon, .outline] }
  | "link" => { s with classes := [.text, .outline], intents := [.accent] }
  | "badge" | "progress" => { s with classes := [.background, .text] }
  | "tooltip" => { s with classes := [.background, .text], intents := [.inverted] }
  | "checkbox" | "radio" | "switch" => { s with states := s.states ++ [.selected] }
  | _ => s

/-- The registered components with their contexts, in registry order. -/
def registry : List (UxContext × String) :=
  UxContext.all.flatMap fun c => c.components.map fun name => (c, name)

/-- The longest entry, the last of equally long ones. -/
def longest? (entries : List (UxContext × String)) : Option (UxContext × String) :=
  entries.foldl (fun best e =>
    match best with
    | none => some e
    | some b => if b.2.utf8ByteSize ≤ e.2.utf8ByteSize then some e else some b) none

/-- The registered component that a name stands for, and whether it is that very name. -/
def find? (name : String) : Option (UxContext × String × Bool) :=
  match registry.find? fun e => e.2 == name with
  | some (c, matched) => some (c, matched, true)
  | none =>
    (longest? (registry.filter fun e => Text.occurs e.2 name || Text.occurs name e.2)).map
      fun (c, matched) => (c, matched, false)

def ofName? (component : String) : Option ComponentSurface :=
  let name := Text.lower (Text.trim component)
  if name = "" then none
  else
    (find? name).map fun (context, matched, exact) =>
      adjusted
        { component, matched, exact, context
          classes := context.required
          states := contextStates context
          intents := contextIntents context }

/-- The canonical paths of all tokens of a surface. -/
def expectedPaths (s : ComponentSurface) : List String :=
  s.classes.flatMap fun c =>
    s.intents.flatMap fun i =>
      s.states.map fun st =>
        Name.path { propertyClass := c, context := some s.context, intent := i, state := some st }

end ComponentSurface

end DesignTokens
