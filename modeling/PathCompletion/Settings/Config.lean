import PathCompletion.Text.Basic
import PathCompletion.Error

/-!
Budgets and modes of an analysis. Presets cover the common cases.
-/

namespace PathCompletion

structure Config where
  interprocedural : Bool
  /-- The longest call chain that is followed. -/
  maxDepth : Nat
  maxIterations : Nat
  /-- Treat the first content of an instance field as a creation. -/
  trackFields : Bool
  deriving DecidableEq

inductive Preset where
  | fast
  | balanced
  | thorough
  deriving DecidableEq

namespace Preset

instance : Inhabited Preset := ⟨.balanced⟩

def name : Preset → String
  | .fast => "fast"
  | .balanced => "balanced"
  | .thorough => "thorough"

def parse (s : String) : Except ConfigError Preset :=
  match [fast, balanced, thorough].find? fun preset => Text.eqIgnoreCase s preset.name with
  | some preset => .ok preset
  | none => .error (.unknownPreset s)

def config : Preset → Config
  | .fast => ⟨false, 1, 200, false⟩
  | .balanced => ⟨true, 3, 1000, false⟩
  | .thorough => ⟨true, 8, 10000, true⟩

end Preset

namespace Config

instance : Inhabited Config := ⟨Preset.balanced.config⟩

def label : String := "CompletionConfig"

def defaultLabel : String := "Config"

def depthLimit : Nat := 16

def iterationLimit : Nat := 100000

def rangeError? (field : String) (value limit : Nat) (hint : String) : Option ConfigError :=
  if value < 1 ∨ limit < value then
    some (.outOfRange field (toString value) "1" (toString limit) hint)
  else none

def error? (c : Config) : Option ConfigError :=
  rangeError? "max_interprocedural_depth" c.maxDepth depthLimit
      "Set interprocedural: false to disable callee analysis instead" <|>
    rangeError? "max_iterations" c.maxIterations iterationLimit
      "Typical CFGs converge in fewer than 10 passes"

def validate (c : Config) : Except ConfigError Config :=
  match c.error? with
  | some error => .error error
  | none => .ok c

end Config

end PathCompletion
