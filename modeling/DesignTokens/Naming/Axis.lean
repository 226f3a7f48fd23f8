/-!
# Naming axes

A semantic name is a point on five axes.  Four of them are closed lists of identifiers; an intent
may also be a word of one's own.  Each list is given in catalogue order.
-/

namespace DesignTokens

/-! ## Property classes -/

/-- Where a value lands in a style sheet. -/
inductive PropertyClass where
  | background
  | text
  | icon
  | border
  | outline
  | shadow
  | spacingInline
  | spacingBlock
  | gap
  | sizing
  | radius
  deriving DecidableEq, Repr

namespace PropertyClass

def all : List PropertyClass :=
  [background, text, icon, border, outline, shadow, spacingInline, spacingBlock, gap, sizing,
    radius]

def id : PropertyClass → String
  | background => "background"
  | text => "text"
  | icon => "icon"
  | border => "border"
  | outline => "outline"
  | shadow => "shadow"
  | spacingInline => "spacing-inline"
  | spacingBlock => "spacing-block"
  | gap => "gap"
  | sizing => "sizing"
  | radius => "radius"

def ofId? (s : String) : Option PropertyClass := all.find? fun c => c.id == s

/-- Classes that hold lengths; the others hold colours or shadows. -/
def isDimension : PropertyClass → Bool
  | spacingInline | spacingBlock | gap | sizing | radius => true
  | background | text | icon | border | outline | shadow => false

/-- Classes that paint. -/
def isColor (c : PropertyClass) : Bool := !c.isDimension

/-- Classes that are read against a background. -/
def isForeground : PropertyClass → Bool
  | text | icon => true
  | _ => false

end PropertyClass

/-! ## Contexts -/

/-- The part of an interface a token serves. -/
inductive UxContext where
  | action
  | input
  | surface
  | feedback
  | navigation
  | data
  deriving DecidableEq, Repr

namespace UxContext

def all : List UxContext := [action, input, surface, feedback, navigation, data]

def id : UxContext → String
  | action => "action"
  | input => "input"
  | surface => "surface"
  | feedback => "feedback"
  | navigation => "navigation"
  | data => "data"

def ofId? (s : String) : Option UxContext := all.find? fun c => c.id == s

end UxContext

/-! ## Interaction states -/

inductive InteractionState where
  | resting
  | hover
  | active
  | focus
  | disabled
  | selected
  deriving DecidableEq, Repr

namespace InteractionState

def all : List InteractionState := [resting, hover, active, focus, disabled, selected]

def id : InteractionState → String
  | resting => "default"
  | hover => "hover"
  | active => "active"
  | focus => "focus"
  | disabled => "disabled"
  | selected => "selected"

def ofId? (s : String) : Option InteractionState := all.find? fun c => c.id == s

def isDefault (s : InteractionState) : Bool := s == resting

end InteractionState

/-! ## Emphasis -/

inductive Emphasis where
  | normal
  | strong
  | soft
  | plain
  deriving DecidableEq, Repr

namespace Emphasis

def all : List Emphasis := [normal, strong, soft, plain]

def id : Emphasis → String
  | normal => "default"
  | strong => "strong"
  | soft => "soft"
  | plain => "plain"

def ofId? (s : String) : Option Emphasis := all.find? fun c => c.id == s

def isDefault (m : Emphasis) : Bool := m == normal

end Emphasis

/-! ## Intents -/

/-- The meaning of a token: one of the catalogue, or a word of one's own. -/
inductive Intent where
  | base
  | accent
  | muted
  | inverted
  | success
  | warning
  | danger
  | info
  | custom (word : String)
  deriving DecidableEq, Repr

namespace Intent

def catalog : List Intent := [base, accent, muted, inverted, success, warning, danger, info]

def id : Intent → String
  | base => "base"
  | accent => "accent"
  | muted => "muted"
  | inverted => "inverted"
  | success => "success"
  | warning => "warning"
  | danger => "danger"
  | info => "info"
  | custom word => word

def ofId? (s : String) : Option Intent := catalog.find? fun i => i.id == s

/-- The intent that a word names; a word outside the catalogue names itself. -/
def ofWord (s : String) : Intent := (ofId? s).getD (custom s)

def isCatalog : Intent → Bool
  | custom _ => false
  | _ => true

end Intent

/-! ## The axes themselves -/

inductive Axis where
  | propertyClass
  | uxContext
  | intent
  | modifier
  | state
  deriving DecidableEq, Repr

def Axis.id : Axis → String
  | propertyClass => "property-class"
  | uxContext => "ux-context"
  | intent => "intent"
  | modifier => "modifier"
  | state => "state"

/-! ## Errors -/

inductive NamingError where
  -- An identifier that is not on the axis.
  | unknownIdentifier (axis id : String)
  -- A path outside the canonical grammar.
  | nonCanonical (path : String)
  -- A path without any sign of a property class.
  | noPropertyClass (path : String)
  deriving DecidableEq, Repr

def NamingError.message : NamingError → String
  | unknownIdentifier axis id => s!"unknown {axis} identifier: {id}"
  | nonCanonical path => s!"non-canonical token path: {path}"
  | noPropertyClass path => s!"no property class found in path: {path}"

/-- The look-up of an identifier on a named axis. -/
def NamingError.require {α : Type} (axis : String) (ofId? : String → Option α) (id : String) :
    Except NamingError α :=
  match ofId? id with
  | some a => .ok a
  | none => .error (.unknownIdentifier axis id)

def PropertyClass.ofId (s : String) : Except NamingError PropertyClass :=
  NamingError.require "property class" PropertyClass.ofId? s

def UxContext.ofId (s : String) : Except NamingError UxContext :=
  NamingError.require "ux context" UxContext.ofId? s

def InteractionState.ofId (s : String) : Except NamingError InteractionState :=
  NamingError.require "interaction state" InteractionState.ofId? s

def Emphasis.ofId (s : String) : Except NamingError Emphasis :=
  NamingError.require "emphasis modifier" Emphasis.ofId? s

end DesignTokens
