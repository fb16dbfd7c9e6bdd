import PathCompletion.Text.Basic
import PathCompletion.Error

/-!
Options of a rule, read from keys and values as an editor configuration gives them. The
key with the rule's id is tried first, then the key without it, then the bare name. A
value that cannot be read counts as absent.
-/

namespace PathCompletion

inductive AnalysisKind where
  /-- Definite and possible violations on paths without exceptions. -/
  | nonExceptionPaths
  | onlyNotCompleted
  deriving DecidableEq

namespace AnalysisKind

instance : Inhabited AnalysisKind := ⟨.nonExceptionPaths⟩

def all : List AnalysisKind := [.nonExceptionPaths, .onlyNotCompleted]

def name : AnalysisKind → String
  | .nonExceptionPaths => "NonExceptionPaths"
  | .onlyNotCompleted => "NonExceptionPathsOnlyNotCompleted"

def names : List String := all.map name

def reportsMaybe : AnalysisKind → Bool
  | .nonExceptionPaths => true
  | .onlyNotCompleted => false

def parse (option value : String) : Except ConfigError AnalysisKind :=
  if Text.eqIgnoreCase value (name .nonExceptionPaths) then .ok .nonExceptionPaths
  else if Text.eqIgnoreCase value (name .onlyNotCompleted) then .ok .onlyNotCompleted
  else .error (.invalidOption option value names)

end AnalysisKind

def parseBool (option value : String) : Except ConfigError Bool :=
  if Text.eqIgnoreCase value "true" then .ok true
  else if Text.eqIgnoreCase value "false" then .ok false
  else .error (.invalidOption option value ["true", "false"])

structure Options where
  /-- An instance passed to a constructor is the constructor's from then on. -/
  transferAtConstructor : Bool := false
  /-- An instance passed to a method is the method's from then on. -/
  transferAtMethodCall : Bool := false
  analysisKind : AnalysisKind := .nonExceptionPaths
  deriving DecidableEq

namespace Options

def transferAtConstructorKey : String := "completion_ownership_transfer_at_constructor"

def transferAtMethodCallKey : String := "completion_ownership_transfer_at_method_call"

def analysisKindKey : String := "completion_analysis_kind"

def scope : String := "dotnet_code_quality"

def keys (rule name : String) : List String :=
  [scope ++ "." ++ rule ++ "." ++ name, scope ++ "." ++ name, name]

/-- The value of a key; a later pair of the list replaces an earlier one. -/
def lookup (values : List (String × String)) (key : String) : Option String :=
  values.reverse.lookup key

/-- The first value found decides: where it cannot be read, the default stands. -/
def readOr {α : Type} (values : List (String × String)) (rule name : String) (default : α)
    (parse : String → String → Except ConfigError α) : α :=
  match (keys rule name).findSome? (lookup values) with
  | none => default
  | some raw =>
      match parse name (Text.trim raw) with
      | .ok value => value
      | .error _ => default

def read (values : List (String × String)) (rule : String) : Options where
  transferAtConstructor := readOr values rule transferAtConstructorKey false parseBool
  transferAtMethodCall := readOr values rule transferAtMethodCallKey false parseBool
  analysisKind := readOr values rule analysisKindKey .nonExceptionPaths AnalysisKind.parse

end Options

end PathCompletion
