import DesignTokens.Settings.Document
import DesignTokens.Toml.Reader

/-!
# Settings files

A settings file is more tolerant than a settings document: a section that is given as a list may
have items past its last field, whatever they are.
-/

namespace DesignTokens

def AuditSettings.cutSurplus : Json → Json :=
  Json.cutTo fieldNames
    [("weights", Json.cutTo HealthWeights.fieldNames []),
      ("penalties", Json.cutTo Penalties.fieldNames [])]

def Teams.cutSurplus : Json → Json :=
  Json.cutTo fieldNames (fieldNames.map fun name => (name, Json.cutTo Team.fieldNames []))

def MigrationSettings.cutSurplus : Json → Json :=
  Json.cutTo fieldNames
    [("capacities", Teams.cutSurplus), ("comparator", Json.cutTo ComparisonWeights.fieldNames [])]

namespace Settings

/-- The document without the items that lie past the last field of a section. -/
def cutSurplus : Json → Json :=
  Json.cutTo fieldNames
    [("lenient", Json.cutTo Naming.Grading.fieldNames []),
      ("graph", Json.cutTo LinkThresholds.fieldNames []), ("audit", AuditSettings.cutSurplus),
      ("migration", MigrationSettings.cutSurplus)]

/-- The settings that a TOML text gives. -/
def ofToml? (text : String) : Option (Settings Double) :=
  (Toml.read? text).bind fun j => ofJson? (cutSurplus j)

end Settings

end DesignTokens
