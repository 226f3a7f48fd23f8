import DesignTokens.Naming.Name

/-!
# The vocabulary

The catalogue entries of each axis, and the aliases: words that stand for an identifier of one
axis without being one.
-/

namespace DesignTokens

/-! ## Catalogue -/

namespace PropertyClass

def label : PropertyClass → String
  | background => "Background"
  | text => "Text"
  | icon => "Icon"
  | border => "Border"
  | outline => "Outline"
  | shadow => "Shadow"
  | spacingInline => "Inline spacing"
  | spacingBlock => "Block spacing"
  | gap => "Gap"
  | sizing => "Sizing"
  | radius => "Radius"

/-- The style properties that a class drives. -/
def cssProperties : PropertyClass → List String
  | background => ["background-color"]
  | text => ["color"]
  | icon => ["color", "fill"]
  | border => ["border-color"]
  | outline => ["outline-color"]
  | shadow => ["box-shadow"]
  | spacingInline => ["padding-inline"]
  | spacingBlock => ["padding-block"]
  | gap => ["gap"]
  | sizing => ["width", "height"]
  | radius => ["border-radius"]

def description : PropertyClass → String
  | background => "Fill color behind content"
  | text => "Foreground color of text"
  | icon => "Foreground color of icons"
  | border => "Stroke color of borders"
  | outline => "Focus ring color"
  | shadow => "Elevation shadow"
  | spacingInline => "Horizontal padding"
  | spacingBlock => "Vertical padding"
  | gap => "Space between children"
  | sizing => "Element dimensions"
  | radius => "Corner rounding"

end PropertyClass

namespace UxContext

def description : UxContext → String
  | action => "Interactive controls that trigger something"
  | input => "Form controls that accept data"
  | surface => "Containers and layers that hold content"
  | feedback => "Status communication to the user"
  | navigation => "Wayfinding between views"
  | data => "Structured data display"

/-- The classes that a complete token set defines in a context. -/
def required : UxContext → List PropertyClass
  | action => [.background, .text, .border]
  | input => [.background, .text, .border, .outline]
  | surface => [.background, .border, .shadow]
  | feedback => [.background, .text, .icon]
  | navigation => [.background, .text]
  | data => [.text, .border]

/-- The classes that make sense in a context. -/
def allowed : UxContext → List PropertyClass
  | action =>
    [.background, .text, .icon, .border, .outline, .shadow, .spacingInline, .spacingBlock, .gap,
      .sizing, .radius]
  | input =>
    [.background, .text, .icon, .border, .outline, .spacingInline, .spacingBlock, .gap, .sizing,
      .radius]
  | surface =>
    [.background, .text, .border, .shadow, .spacingInline, .spacingBlock, .gap, .radius]
  | feedback =>
    [.background, .text, .icon, .border, .spacingInline, .spacingBlock, .gap, .radius]
  | navigation =>
    [.background, .text, .icon, .border, .outline, .spacingInline, .spacingBlock, .gap]
  | data =>
    [.background, .text, .icon, .border, .spacingInline, .spacingBlock, .gap, .sizing]

def components : UxContext → List String
  | action => ["button", "icon-button", "link", "toggle", "fab"]
  | input => ["text-field", "select", "checkbox", "radio", "switch", "slider"]
  | surface => ["card", "modal", "popover", "sheet", "tooltip"]
  | feedback => ["alert", "toast", "badge", "banner", "progress"]
  | navigation => ["tabs", "menu", "breadcrumb", "sidebar", "pagination"]
  | data => ["table", "list", "chart", "tree", "avatar"]

end UxContext

def InteractionState.description : InteractionState → String
  | resting => "Resting state"
  | hover => "Pointer is over the element"
  | active => "Element is being pressed"
  | focus => "Element has keyboard focus"
  | disabled => "Element cannot be interacted with"
  | selected => "Element is chosen or current"

def Emphasis.description : Emphasis → String
  | normal => "Normal emphasis"
  | strong => "Higher emphasis"
  | soft => "Lower emphasis"
  | plain => "No fill, content only"

def Intent.description : Intent → String
  | base => "Neutral baseline"
  | accent => "Brand emphasis"
  | muted => "De-emphasized content"
  | inverted => "Contrasting surfaces"
  | success => "Positive outcome"
  | warning => "Needs attention"
  | danger => "Destructive action or error"
  | info => "Informational"
  | custom _ => ""

def Name.describe (n : Name) : String :=
  let context := (n.context.map fun c => s!"in {c.id} elements").toList
  let modifier := (n.normalized.modifier.map fun m => s!"{m.id} emphasis").toList
  let state := (n.normalized.state.map fun s => s!"{s.id} state").toList
  ", ".intercalate
    ([n.propertyClass.description] ++ context ++ [s!"{n.intent.id} intent"] ++ modifier ++ state)

/-! ## Aliases -/

namespace Vocabulary

def classAliases : List (String × PropertyClass) :=
  [("bg", .background), ("fill", .background), ("color", .text), ("fg", .text),
    ("foreground", .text), ("font", .text), ("stroke", .border), ("ring", .outline),
    ("focus-ring", .outline), ("elevation", .shadow), ("px", .spacingInline),
    ("padding-x", .spacingInline), ("py", .spacingBlock), ("padding-y", .spacingBlock),
    ("gutter", .gap), ("size", .sizing), ("width", .sizing), ("height", .sizing),
    ("rounded", .radius), ("corner", .radius)]

def intentAliases : List (String × Intent) :=
  [("primary", .accent), ("brand", .accent), ("secondary", .muted), ("subtle", .muted),
    ("error", .danger), ("critical", .danger), ("destructive", .danger), ("positive", .success),
    ("caution", .warning), ("warn", .warning), ("neutral", .base), ("inverse", .inverted),
    ("informational", .info)]

def contextAliases : List (String × UxContext) :=
  [("button", .action), ("btn", .action), ("cta", .action), ("form", .input), ("field", .input),
    ("card", .surface), ("container", .surface), ("page", .surface), ("alert", .feedback),
    ("notification", .feedback), ("status", .feedback), ("nav", .navigation),
    ("menu", .navigation), ("table", .data), ("chart", .data)]

def stateAliases : List (String × InteractionState) :=
  [("hovered", .hover), ("pressed", .active), ("focused", .focus), ("inactive", .disabled),
    ("checked", .selected), ("current", .selected), ("rest", .resting), ("idle", .resting)]

def classAlias? (word : String) : Option PropertyClass := classAliases.lookup word

def intentAlias? (word : String) : Option Intent := intentAliases.lookup word

def contextAlias? (word : String) : Option UxContext := contextAliases.lookup word

def stateAlias? (word : String) : Option InteractionState := stateAliases.lookup word

/-- Whether a word is an identifier or an alias on any axis. -/
def isKnown (word : String) : Bool :=
  (PropertyClass.ofId? word).isSome || (UxContext.ofId? word).isSome ||
    (Intent.ofId? word).isSome || (Emphasis.ofId? word).isSome ||
    (InteractionState.ofId? word).isSome || (classAlias? word).isSome ||
    (intentAlias? word).isSome || (contextAlias? word).isSome || (stateAlias? word).isSome

end Vocabulary

end DesignTokens
