import PathCompletion.Analysis.Run
import PathCompletion.Text.Json

/-!
Findings: the allocations of a procedure whose completion is not certain at its exit.
-/

namespace PathCompletion

inductive Severity where
  /-- Left uncompleted on some path without exceptions. -/
  | definite
  /-- Completed, or escaped, on some paths only. -/
  | maybe
  deriving DecidableEq

namespace Severity

def all : List Severity := [.definite, .maybe]

def name : Severity → String
  | .definite => "Definite"
  | .maybe => "Maybe"

def verdict : Severity → String
  | .definite => "not completed"
  | .maybe => "may not be completed"

end Severity

structure Finding where
  location : SourceLocation
  /-- The first line of the source text of the creation. -/
  snippet : String
  severity : Severity
  rule : String
  procedure : String
  kind : Kind
  deriving DecidableEq

namespace Finding

def isDefinite (f : Finding) : Bool := f.severity = .definite

def render (f : Finding) : String :=
  f.location.render ++ ": " ++ f.rule ++ " [" ++ f.kind.name ++ "] '" ++ f.snippet ++ "' " ++
    f.severity.verdict ++ " on all normal paths (in " ++ f.procedure ++ ")"

def spanJson (span : Span) : Json :=
  .object [("start_line", .number span.startLine), ("start_col", .number span.startCol),
    ("end_line", .number span.endLine), ("end_col", .number span.endCol)]

def toJson (f : Finding) : Json :=
  .object
    [("location", .object
        [("file_path", .text f.location.file), ("span", spanJson f.location.span)]),
      ("snippet", .text f.snippet), ("severity", .text f.severity.name),
      ("rule_id", .text f.rule), ("procedure", .text f.procedure), ("kind", .text f.kind.name)]

def renderAll (findings : List Finding) : String :=
  (Json.array (findings.map toJson)).render 0

def sort (findings : List Finding) : List Finding :=
  findings.mergeSort fun a b => !decide (Key.Before b.location a.location)

end Finding

namespace Procedure

def creation? (p : Procedure) (l : Location) : Option OperationId :=
  match l.creation? with
  | some site => if site.procedure = p.id then some site.operation else none
  | none => none

/-- All that completed the instance, or let it escape, is inside handlers of this procedure,
and the creation is not. -/
def onlyInCatch (p : Procedure) (creation : OperationId) (v : Value) : Bool :=
  !v.evidence.isEmpty && !p.insideCatch creation &&
    v.evidence.toList.all fun site => site.procedure = p.id && p.insideCatch site.operation

def severity? (p : Procedure) (analysisKind : AnalysisKind) (creation : OperationId)
    (v : Value) : Option Severity :=
  if v.kind = .nonTarget then none
  else if v.kind = .notCompleted || p.onlyInCatch creation v then some .definite
  else if (v.kind = .maybeCompleted || v.kind = .notCompletedOrEscaped) &&
      analysisKind.reportsMaybe then some .maybe
  else none

/-- The finding for one entry of the exit state. An allocation without source text has
none. -/
def finding? (p : Procedure) (rule : String) (analysisKind : AnalysisKind) (l : Location)
    (v : Value) : Option Finding := do
  let creation ← p.creation? l
  let severity ← p.severity? analysisKind creation v
  let op ← p.operation? creation
  let fragment ← op.source
  return {
    location := ⟨p.file, fragment.span⟩
    snippet := fragment.firstLine
    severity
    rule
    procedure := p.name
    kind := v.kind }

/-- The findings of an exit state: definite ones first, each group by location. -/
def findings (p : Procedure) (exit : Option State) (rule : String)
    (analysisKind : AnalysisKind) : List Finding :=
  let all := ((exit.map SortedMap.entries).getD []).filterMap fun (l, v) =>
    p.finding? rule analysisKind l v
  Finding.sort (all.filter Finding.isDefinite) ++
    Finding.sort (all.filter fun f => !f.isDefinite)

end Procedure

end PathCompletion
