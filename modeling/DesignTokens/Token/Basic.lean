import DesignTokens.Token.Reference
import DesignTokens.Token.Value

/-!
# Design tokens

A token is a value under a path.  The raw value is the source of truth; the resolved value, when
there is one, is what the raw value comes to once its references are followed.
-/

namespace DesignTokens

structure Token where
  path : String
  value : Value
  resolved : Option Value := none
  declared : Option Kind := none
  description : Option String := none
  deriving BEq, DecidableEq, Repr

namespace Token

/-- The token that a raw text gives at a path. -/
def ofRaw (path raw : String) : Token := { path, value := Value.infer raw }

/-- The resolved value if there is one, and the raw value otherwise. -/
def effective (t : Token) : Value := t.resolved.getD t.value

/-- The declared kind, or else the kind of the effective value. -/
def kind (t : Token) : Kind := t.declared.getD t.effective.kind

def raw (t : Token) : String := t.value.render

/-- Whether the token is a colour by declaration, by value or by resolution. -/
def isColor (t : Token) : Bool :=
  t.declared == some .color || t.value.kind == .color ||
    t.resolved.any fun v => v.kind == .color || v.isColorLiteral

/-- Whether the raw value holds a brace group that names a path. -/
def hasEmbedded (t : Token) : Bool := t.value.text?.any Reference.hasEmbedded

/-- Whether the raw value refers to a path other than the token's own. -/
def references (t : Token) (target : String) : Bool :=
  t.path != target && t.value.text?.any fun s => Reference.mentions s target

/-- The paths that the raw value refers to. -/
def targets (t : Token) (known : String → Bool) : List String :=
  match t.value.text? with
  | some s => Reference.extract t.path s known
  | none => []

end Token

end DesignTokens
