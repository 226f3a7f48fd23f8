import DesignTokens.Audit.Contrast
import DesignTokens.Audit.Named
import DesignTokens.Store.Resolution
import DesignTokens.Text.Ordered

/-!
# Contrast pairs

The colours that are read against each other are the backgrounds and the foregrounds whose names
agree in every axis but the property class.  Each background of such a group is paired with each
foreground; a group that lacks one side leaves its tokens unpaired.
-/

namespace DesignTokens

/-- A background and a foreground that are read against each other. -/
structure ContrastPair (α : Type) where
  group : String
  background : String
  foreground : String
  backgroundColor : Option String
  foregroundColor : Option String
  -- The comparison, if both colours are known and can be compared.
  contrast : Option (Contrast α)
  ratioTooLow : Bool
  lightnessTooLow : Bool
  deriving DecidableEq, Repr

namespace ContrastPair

variable {α : Type}

def computable (p : ContrastPair α) : Bool := p.contrast.isSome

def fails (p : ContrastPair α) : Bool := p.computable && (p.ratioTooLow || p.lightnessTooLow)

end ContrastPair

/-- The contrast pairs of a store, and the colours that found no partner. -/
structure PairingReport (α : Type) where
  pairs : List (ContrastPair α)
  unpaired : List String
  deriving DecidableEq, Repr

namespace PairingReport

variable {α : Type}

def total (r : PairingReport α) : Nat := r.pairs.length

def computable (r : PairingReport α) : Nat := (r.pairs.filter ContrastPair.computable).length

def ratioFailures (r : PairingReport α) : Nat :=
  (r.pairs.filter fun p => p.computable && p.ratioTooLow).length

def lightnessFailures (r : PairingReport α) : Nat :=
  (r.pairs.filter fun p => p.computable && p.lightnessTooLow).length

def failing (r : PairingReport α) : Nat := (r.pairs.filter ContrastPair.fails).length

/-- The share of the computable pairs that do not fail. -/
def passRate {β : Type} [Scalar β] (r : PairingReport α) : β :=
  Scalar.ratio (r.computable - r.failing) r.computable

end PairingReport

namespace Store

variable {locked : String → Bool} {α : Type} [Scalar α]

/-- Whether a token is a colour by itself or by what its references lead to. -/
def holdsColor (s : Store locked) (t : Token) : Bool :=
  t.isColor || (s.valueAt? t.path).any Value.isColorLiteral

def isPairable (s : Store locked) (t : NamedToken) : Bool :=
  (t.name.propertyClass == .background || t.name.propertyClass.isForeground) &&
    s.holdsColor t.token

/-- The hex colour that the references of a path lead to. -/
def colorAt? (s : Store locked) (path : String) : Option String :=
  (s.valueAt? path).bind Value.hexColor?

def contrastPair (s : Store locked) (check : ContrastChecker α) (minRatio minLightness : α)
    (group background foreground : String) : ContrastPair α :=
  let backgroundColor := s.colorAt? background
  let foregroundColor := s.colorAt? foreground
  let contrast := match foregroundColor, backgroundColor with
    | some f, some b => check f b
    | _, _ => none
  { group, background, foreground, backgroundColor, foregroundColor, contrast
    ratioTooLow := contrast.any fun c => decide (c.ratio < minRatio)
    lightnessTooLow := contrast.any fun c =>
      decide (Scalar.magnitude c.lightness < minLightness) }

/-- The pairable tokens of a store by what their names agree in. -/
def pairingGroups (s : Store locked) : List (List String × List NamedToken) :=
  Text.groupBy (fun t => [t.name.groupKey]) (s.named.filter s.isPairable)

def isBackground (t : NamedToken) : Bool := t.name.propertyClass == .background

def pairing (s : Store locked) (check : ContrastChecker α) (minRatio minLightness : α) :
    PairingReport α :=
  let sides := s.pairingGroups.map fun (key, members) =>
    (String.join key, (members.filter isBackground).map NamedToken.path,
      (members.filter fun t => !isBackground t).map NamedToken.path)
  { pairs := sides.flatMap fun (group, backgrounds, foregrounds) =>
      backgrounds.flatMap fun b =>
        foregrounds.map fun f => s.contrastPair check minRatio minLightness group b f
    unpaired := sides.flatMap fun (_, backgrounds, foregrounds) =>
      if backgrounds.isEmpty || foregrounds.isEmpty then backgrounds ++ foregrounds else [] }

end Store

end DesignTokens
