import DesignTokens.Json.Decode
import DesignTokens.Naming.Component
import DesignTokens.Naming.Grading

/-!
# Names, readings and catalogues as JSON
-/

namespace DesignTokens

namespace Name

def toJson (n : Name) : Json :=
  .record
    ([("propertyClass", .text n.propertyClass.id)] ++
      Json.optionalField "uxContext" (fun c => .text c.id) n.context ++
      [("intent", .text n.intent.id)] ++
      Json.optionalField "modifier" (fun m => .text m.id) n.modifier ++
      Json.optionalField "state" (fun s => .text s.id) n.state)

def ofJson? : Json.Decoder Name := fun j => do
  let fields ← j.fields? ["propertyClass", "uxContext", "intent", "modifier", "state"]
  let propertyClass ← fields.required "propertyClass" (Json.constant? PropertyClass.ofId?)
  let context ← fields.optional "uxContext" (Json.constant? UxContext.ofId?)
  let intent ← fields.required "intent" Json.text?
  let modifier ← fields.optional "modifier" (Json.constant? Emphasis.ofId?)
  let state ← fields.optional "state" (Json.constant? InteractionState.ofId?)
  pure { propertyClass, context, intent := .ofWord intent, modifier, state }

end Name

namespace Naming

def AliasUse.toJson (a : AliasUse) : Json :=
  .record
    [("axis", .text a.axis.id), ("alias", .text a.word), ("canonical", .text a.canonical)]

def Reading.fields (r : Reading) (confidence : Double) : Json.Fields :=
  [("name", r.name.toJson), ("confidence", .real confidence), ("strategy", .text r.strategy.id),
    ("aliases", .list (r.aliases.map AliasUse.toJson)), ("skippedPrefix", .texts r.skipped),
    ("unrecognized", .texts r.unrecognized)]

namespace Grading

def toJson (g : Grading Double) : Json :=
  .record
    [("base_confidence", .real g.base), ("alias_penalty", .real g.aliasPenalty),
      ("prefix_penalty", .real g.skipPenalty),
      ("non_property_alias_penalty", .real g.otherAliasPenalty), ("floor", .real g.floor)]

def fieldNames : List String :=
  ["base_confidence", "alias_penalty", "prefix_penalty", "non_property_alias_penalty", "floor"]

def ofJson? : Json.Decoder (Grading Double) := fun j => do
  let fields ← j.fields? fieldNames
  let d : Grading Double := standard
  let base ← fields.orElse "base_confidence" d.base Json.real?
  let aliasPenalty ← fields.orElse "alias_penalty" d.aliasPenalty Json.real?
  let skipPenalty ← fields.orElse "prefix_penalty" d.skipPenalty Json.real?
  let otherAliasPenalty ←
    fields.orElse "non_property_alias_penalty" d.otherAliasPenalty Json.real?
  let floor ← fields.orElse "floor" d.floor Json.real?
  pure { base, aliasPenalty, skipPenalty, otherAliasPenalty, floor }

end Grading

end Naming

def ComponentSurface.fields (s : ComponentSurface) : Json.Fields :=
  [("component", .text s.component), ("matched", .text s.matched), ("exact", .bool s.exact),
    ("context", .text s.context.id), ("property_classes", .texts (s.classes.map PropertyClass.id)),
    ("states", .texts (s.states.map InteractionState.id)),
    ("intents", .texts (s.intents.map Intent.id))]

/-! ## Catalogues -/

namespace Catalog

def described (id description : String) : Json :=
  .record [("id", .text id), ("description", .text description)]

def propertyClasses : Json :=
  .list (PropertyClass.all.map fun c =>
    .record
      [("id", .text c.id), ("label", .text c.label), ("css_properties", .texts c.cssProperties),
        ("description", .text c.description)])

def intents : Json := .list (Intent.catalog.map fun i => described i.id i.description)

def contexts : Json :=
  .list (UxContext.all.map fun c =>
    .record
      [("id", .text c.id), ("description", .text c.description),
        ("required_classes", .texts (c.required.map PropertyClass.id)),
        ("allowed_classes", .texts (c.allowed.map PropertyClass.id)),
        ("components", .texts c.components)])

def states : Json := .list (InteractionState.all.map fun s => described s.id s.description)

def modifiers : Json := .list (Emphasis.all.map fun m => described m.id m.description)

end Catalog

end DesignTokens
