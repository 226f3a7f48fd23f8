import DesignTokens.Json.Reader
import DesignTokens.Token.Document

/-!
# Reading a token from a text

Of the text of a token only the fields of tokens, values and dimensions are taken.  Fields with
other names must be well formed and are not looked into.
-/

namespace DesignTokens

/-- What is taken of the content of a value whose kind is known. -/
def Value.contentReading : Json.Reading :=
  Json.Draft.fields? [("value", Json.Draft.whole?), ("unit", Json.Draft.whole?)]

/-- What is taken of a value.  Content that comes before its kind is taken as a whole, since it is
not known yet which of its fields matter. -/
def Value.reading : Json.Reading := fun depth d =>
  let content :=
    if d.standsBefore "kind" "value" then contentReading else Json.Draft.whole?
  Json.Draft.fields? [("kind", Json.Draft.whole?), ("value", content)] depth d

namespace Token

/-- What is taken of a token. -/
def reading : Json.Reading :=
  Json.Draft.fields?
    [("path", Json.Draft.whole?), ("value", Value.reading), ("resolvedValue", Value.reading),
      ("type", Json.Draft.whole?), ("description", Json.Draft.whole?)]

def read? (text : String) : Option Token := (Json.readWith? reading text).bind ofJson?

end Token

end DesignTokens
