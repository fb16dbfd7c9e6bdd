/-!
Why an analysis, or a configuration, is refused. Causes are data; each has one text.
-/

namespace PathCompletion

inductive ConfigError where
  | outOfRange (field value least greatest hint : String)
  | unknownPreset (name : String)
  | invalidOption (option value : String) (expected : List String)
  | unreadable
  /-- The document is not a mapping with fields of the right types. -/
  | malformed
  deriving DecidableEq

def ConfigError.message : ConfigError → String
  | .outOfRange field value least greatest hint =>
      s!"Invalid range for field '{field}': {value} not in {least}..={greatest}. {hint}"
  | .unknownPreset name =>
      s!"Unknown preset '{name}'. Valid presets: fast, balanced, thorough"
  | .invalidOption option value expected =>
      s!"Invalid value '{value}' for option '{option}'. Expected one of: " ++
        ", ".intercalate expected
  | .unreadable => "IO error"
  | .malformed => "YAML parsing error"

inductive AnalysisError where
  | cancelled
  | targetNotResolved (targetType method : String)
  | graphUnavailable (procedure : String)
  | notConverged (procedure : String) (iterations : Nat)
  | invalidGraph (reason : String)
  | config (cause : ConfigError)
  /-- An operation's own id names no place in the arena it is stored in. -/
  | strayOperation (operation : String)
  deriving DecidableEq

namespace AnalysisError

def message : AnalysisError → String
  | .cancelled => "Analysis cancelled"
  | .targetNotResolved targetType method => s!"Target not resolved: {targetType}.{method}"
  | .graphUnavailable procedure => s!"CFG unavailable for procedure '{procedure}'"
  | .notConverged procedure iterations =>
      s!"Fixpoint did not converge for '{procedure}' after {iterations} iterations"
  | .invalidGraph reason => s!"Invalid graph: {reason}"
  | .config cause => "Configuration error: " ++ cause.message
  | .strayOperation operation => s!"Operation {operation} lies outside its arena"

/-- A soft error means that one procedure cannot be analyzed; the others still can. -/
def isSoft : AnalysisError → Bool
  | .targetNotResolved .. | .graphUnavailable _ | .notConverged .. => true
  | .cancelled | .invalidGraph _ | .config _ | .strayOperation _ => false

end AnalysisError

end PathCompletion
