/-! Outcomes of looking at a call. -/

namespace ScriptFlow

/-- How a call was decided. -/
inductive Decision where
  | pending
  | resolved
  | noMatch
  | privacyViolation
  | special
  | simulated
deriving DecidableEq, Inhabited

def Decision.name : Decision → String
  | .pending => "Pending"
  | .resolved => "Resolved"
  | .noMatch => "NoMatch"
  | .privacyViolation => "PrivacyViolation"
  | .special => "Special"
  | .simulated => "Simulated"

end ScriptFlow
