import PathCompletion.PointsTo.Local
import PathCompletion.Report.Finding
import PathCompletion.Text.Basic

/-!
Sessions: one rule over one compilation, procedure after procedure. A session remembers
the target it resolved, the locations it has reported, and whether it was cancelled.
-/

namespace PathCompletion

/-! ### Bodies by method -/

def Body.render (b : Body) : String :=
  "CalleeBody \x7b procedure: " ++ Text.quoted b.procedure.name ++ ", .. \x7d"

structure Registry where
  bodies : SortedMap MethodId Body := ∅

namespace Registry

/-- Registers a body under its method; a body without one cannot be called. -/
def registerBody (r : Registry) (body : Body) : Registry :=
  match body.procedure.method with
  | some method => ⟨r.bodies.insert method body⟩
  | none => r

def register (r : Registry) (p : Procedure) : Except AnalysisError Registry := do
  let oracle ← p.localOracle?
  return r.registerBody ⟨p, oracle⟩

def body? (r : Registry) (method : MethodId) : Option Body := r.bodies.get? method

def size (r : Registry) : Nat := r.bodies.size

def isEmpty (r : Registry) : Bool := r.bodies.isEmpty

end Registry

/-! ### Reported locations -/

structure Reported where
  locations : SortedSet SourceLocation := ∅

namespace Reported

def contains (r : Reported) (l : SourceLocation) : Bool := r.locations.contains l

def claim (r : Reported) (l : SourceLocation) : Bool × Reported :=
  (!r.contains l, ⟨r.locations.insert l⟩)

def claimAll (r : Reported) : List Finding → List Finding × Reported
  | [] => ([], r)
  | f :: rest =>
      let (free, next) := r.claim f.location
      let (kept, last) := next.claimAll rest
      (if free then f :: kept else kept, last)

def size (r : Reported) : Nat := r.locations.size

def isEmpty (r : Reported) : Bool := r.locations.isEmpty

end Reported

/-! ### Reports -/

structure ProcedureReport where
  procedure : String
  findings : List Finding := []
  /-- Absent when the procedure was skipped. -/
  stats : Option Stats := none
  deriving DecidableEq

def ProcedureReport.wasAnalyzed (r : ProcedureReport) : Bool := r.stats.isSome

structure BatchReport where
  findings : List Finding := []
  analyzed : Nat := 0
  skipped : Nat := 0
  interproceduralCalls : Nat := 0
  deriving DecidableEq

namespace BatchReport

def definiteCount (r : BatchReport) : Nat := r.findings.countP Finding.isDefinite

def ofReports (reports : List ProcedureReport) : BatchReport where
  findings := Finding.sort (reports.flatMap ProcedureReport.findings)
  analyzed := reports.countP ProcedureReport.wasAnalyzed
  skipped := reports.countP fun r => !r.wasAnalyzed
  interproceduralCalls := Stats.total Stats.interproceduralCalls
    (reports.filterMap ProcedureReport.stats)

end BatchReport

/-! ### Sessions -/

structure Session where
  rule : Rule
  symbols : Resolver
  provider : Provider
  config : Config := default
  options : Options := {}
  resolutions : Resolutions := {}
  reported : Reported := {}
  cancelled : Bool := false

namespace Session

def cancel (s : Session) : Session := { s with cancelled := true }

def resolveTarget (s : Session) : Except AnalysisError Target × Session :=
  let (target, resolutions) := s.resolutions.get s.symbols s.rule
  let next := { s with resolutions }
  match target with
  | some target => (.ok target, next)
  | none => (.error (.targetNotResolved s.rule.targetType s.rule.completionMethod), next)

/-- A soft error skips the procedure; any other error stands. -/
def skipOnSoft (p : Procedure) (error : AnalysisError) : Except AnalysisError ProcedureReport :=
  if error.isSoft then .ok { procedure := p.name } else .error error

def context (s : Session) (target : Target) (body : Body) : Context :=
  { env := ⟨s.symbols, s.provider, target, s.options, s.config⟩, body }

def analyzeBody (s : Session) (body : Body) : Except AnalysisError ProcedureReport × Session :=
  let p := body.procedure
  if s.cancelled then (.error .cancelled, s)
  else match s.resolveTarget with
    | (.error error, s) => (skipOnSoft p error, s)
    | (.ok target, s) =>
        if !p.mayCreateTarget s.symbols target.type then (.ok { procedure := p.name }, s)
        else match (s.context target body).analyze false with
          | (.error error, cancelled) => (skipOnSoft p error, { s with cancelled })
          | (.ok result, cancelled) =>
              let (findings, reported) := s.reported.claimAll
                (p.findings result.exitState? s.rule.id s.options.analysisKind)
              (.ok { procedure := p.name, findings, stats := some result.stats },
                { s with reported, cancelled })

def analyze (s : Session) (p : Procedure) : Except AnalysisError ProcedureReport × Session :=
  match p.localOracle? with
  | .error error => (.error error, s)
  | .ok oracle => s.analyzeBody ⟨p, oracle⟩

def analyzeEach (s : Session) : List Procedure →
    Except AnalysisError (List ProcedureReport) × Session
  | [] => (.ok [], s)
  | p :: rest =>
      match s.analyze p with
      | (.error error, s) => (.error error, s)
      | (.ok report, s) =>
          match s.analyzeEach rest with
          | (.error error, s) => (.error error, s)
          | (.ok reports, s) => (.ok (report :: reports), s)

def analyzeAll (s : Session) (procedures : List Procedure) :
    Except AnalysisError BatchReport × Session :=
  let (reports, s) := s.analyzeEach procedures
  (reports.map BatchReport.ofReports, s)

end Session

end PathCompletion
