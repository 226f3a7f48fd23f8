import DesignTokens.Naming.Axis

/-!
# Semantic names

The canonical path of a name is its property class, its context if there is one, its intent, and
then the modifier and the state unless they are the default ones, joined by points.
-/

namespace DesignTokens

structure Name where
  propertyClass : PropertyClass
  context : Option UxContext := none
  intent : Intent
  modifier : Option Emphasis := none
  state : Option InteractionState := none
  deriving DecidableEq, Repr

namespace Name

/-- The modifier, which is the normal one if none is given. -/
def effectiveModifier (n : Name) : Emphasis := n.modifier.getD .normal

/-- The state, which is the resting one if none is given. -/
def effectiveState (n : Name) : InteractionState := n.state.getD .resting

/-- The same name with the default modifier and the default state left out. -/
def normalized (n : Name) : Name :=
  { n with
    modifier := n.modifier.filter fun m => !m.isDefault
    state := n.state.filter fun s => !s.isDefault }

/-- The identifiers that make up the canonical path. -/
def segments (n : Name) : List String :=
  [n.propertyClass.id] ++ (n.context.map UxContext.id).toList ++ [n.intent.id] ++
    (n.normalized.modifier.map Emphasis.id).toList ++
    (n.normalized.state.map InteractionState.id).toList

def path (n : Name) : String := ".".intercalate n.segments

/-- The key of the names that are read against each other: all axes but the property class. -/
def groupKey (n : Name) : String :=
  "::".intercalate
    [(n.context.map UxContext.id).getD "global", n.intent.id, n.effectiveModifier.id,
      n.effectiveState.id]

end Name

end DesignTokens
