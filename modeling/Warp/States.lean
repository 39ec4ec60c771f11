import Warp.Text

/-!
# State codes

Values saved to employees and policy conditions are always the two-letter code.
-/

namespace Warp

def stateCodes : List String :=
  ["AL", "AK", "AZ", "AR", "CA", "CO", "CT", "DE", "FL", "GA", "HI", "ID", "IL", "IN", "IA", "KS",
    "KY", "LA", "ME", "MD", "MA", "MI", "MN", "MS", "MO", "MT", "NE", "NV", "NH", "NJ", "NM", "NY",
    "NC", "ND", "OH", "OK", "OR", "PA", "RI", "SC", "SD", "TN", "TX", "UT", "VT", "VA", "WA", "WV",
    "WI", "WY", "AS", "GU", "MP", "PR", "VI", "DC"]

/-- The code, or nothing where the source raises "must be a valid two-letter U.S. state or
territory code". -/
def normalizeStateCode (value : String) : Option String :=
  let normalized := Text.upper (Text.strip value)
  if normalized ∈ stateCodes then some normalized else none

end Warp
