import DesignTokens.Naming.Lenient
import DesignTokens.Store.Basic

/-!
# Tokens with the names read from their paths

The analyses that compare tokens with each other work on every token whose path can be read at
all, strictly or not.
-/

namespace DesignTokens

/-- A token and the name that its path is read as. -/
structure NamedToken where
  token : Token
  name : Name
  compliant : Bool
  deriving DecidableEq, Repr

namespace NamedToken

def path (t : NamedToken) : String := t.token.path

def ofToken? (t : Token) : Option NamedToken :=
  (Naming.read? t.path).map fun r => ⟨t, r.name, r.strategy = .strict⟩

end NamedToken

def Store.named {locked : String → Bool} (s : Store locked) : List NamedToken :=
  s.tokens.filterMap NamedToken.ofToken?

end DesignTokens
