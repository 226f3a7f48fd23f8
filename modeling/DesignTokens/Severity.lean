/-!
# Severity of findings
-/

namespace DesignTokens

/-- How pressing a finding is. -/
inductive Severity where
  | error
  | warning
  | info
  deriving DecidableEq, Repr

def Severity.id : Severity → String
  | error => "error"
  | warning => "warning"
  | info => "info"

end DesignTokens
