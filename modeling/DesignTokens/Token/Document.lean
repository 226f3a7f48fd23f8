import DesignTokens.Json.Decode
import DesignTokens.Token.Basic

/-!
# Tokens as JSON
-/

namespace DesignTokens

namespace Value

def contentJson : Value → Json
  | color s | fontFamily s | shadow s | text s => .text s
  | dimension size unit => .record [("value", .real (.ofFloat size)), ("unit", .text unit)]
  | number size => .real (.ofFloat size)

def toJson (v : Value) : Json :=
  .record [("kind", .text v.kind.id), ("value", v.contentJson)]

def ofContent? (kind : Kind) (content : Json) : Option Value :=
  match kind with
  | .color => content.text?.map color
  | .fontFamily => content.text?.map fontFamily
  | .shadow => content.text?.map shadow
  | .text => content.text?.map text
  | .number => content.real?.map fun x => number x.toFloat
  | .dimension => do
    let fields ← content.fields? ["value", "unit"]
    let size ← fields.required "value" Json.real?
    let unit ← fields.required "unit" Json.text?
    pure (dimension size.toFloat unit)

def ofJson? : Json.Decoder Value := fun j => do
  let fields ← j.fields? ["kind", "value"]
  let kind ← fields.required "kind" (Json.constant? Kind.ofId?)
  fields.required "value" (ofContent? kind)

end Value

namespace Token

def toJson (t : Token) : Json :=
  .record
    ([("path", .text t.path), ("value", t.value.toJson)] ++
      Json.optionalField "resolvedValue" Value.toJson t.resolved ++
      Json.optionalField "type" (fun k => .text k.id) t.declared ++
      Json.optionalField "description" .text t.description)

def ofJson? : Json.Decoder Token := fun j => do
  let fields ← j.fields? ["path", "value", "resolvedValue", "type", "description"]
  let path ← fields.required "path" Json.text?
  let value ← fields.required "value" Value.ofJson?
  let resolved ← fields.optional "resolvedValue" Value.ofJson?
  let declared ← fields.optional "type" (Json.constant? Kind.ofId?)
  let description ← fields.optional "description" Json.text?
  pure { path, value, resolved, declared, description }

end Token

end DesignTokens
