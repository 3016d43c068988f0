/-!
Why a configuration is refused.
-/

namespace SinkTrace

/-- Bounds of a numeric setting, both included, and why they are what they are. -/
structure Bounds where
  setting : String
  low : Nat
  high : Nat
  hint : String
deriving Repr, DecidableEq, Inhabited

inductive ConfigError where
  | range (bounds : Bounds) (value : Nat)
  | missingVersion
  | unsupportedVersion (found : Nat)
  | unknownPreset (name : String)
  | invalidPattern (pattern : String)
  | unreadable
  | malformed
deriving Repr, DecidableEq, Inhabited

/-- Refuses a value outside the bounds. -/
def Bounds.check (b : Bounds) (value : Nat) : Except ConfigError Unit :=
  if b.low ≤ value ∧ value ≤ b.high then .ok () else .error (.range b value)

namespace ConfigError

def message : ConfigError → String
  | range b value =>
    b.setting ++ " = " ++ toString value ++ " is outside " ++ toString b.low ++ "..="
      ++ toString b.high ++ ": " ++ b.hint
  | missingVersion => "Configuration file has no 'version' field (expected 'version: 1')"
  | unsupportedVersion found =>
    "Configuration version " ++ toString found ++ " is not supported (supported: [1])"
  | unknownPreset name =>
    "Unknown preset '" ++ name ++ "' (expected fast, balanced, thorough or custom)"
  | invalidPattern pattern => "Invalid external method pattern '" ++ pattern ++ "'"
  | unreadable => "Cannot read configuration file"
  | malformed => "Malformed configuration YAML"

end ConfigError

end SinkTrace
