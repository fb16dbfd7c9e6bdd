import Mathlib.Data.List.Forall2
import PathCompletion.Proofs.Report.Verdict

/-!
What a session reports, over all its requests. From a new session on, each location is
reported once, whichever of the requests finds it; a location is reported exactly if one of
the bodies analyzed has a finding there; and of the findings of one body at one location a
definite one is kept before any other.
-/

namespace PathCompletion

/-- Definite findings come before all others. -/
theorem Procedure.findings_ordered (p : Procedure) (exit : Option State) (rule : String)
    (analysisKind : AnalysisKind) :
    (p.findings exit rule analysisKind).Pairwise fun f g =>
      g.isDefinite = true → f.isDefinite = true := by
  refine (p.findings_inOrder exit rule analysisKind).imp fun ordered definite => ?_
  rw [Finding.isDefinite_iff] at definite ⊢
  exact ordered.1 definite

inductive Request where
  /-- A procedure with alias information from elsewhere. -/
  | body (b : Body)
  | procedure (p : Procedure)
  | batch (procedures : List Procedure)

def Request.bodies : Request → List Body
  | .body b => [b]
  | .procedure p => [p.body]
  | .batch procedures => procedures.map Procedure.body

namespace Session

def serve (s : Session) : Request → Except AnalysisError (List Finding) × Session
  | .body b => ((s.analyzeBody b).1.map ProcedureReport.findings, (s.analyzeBody b).2)
  | .procedure p => ((s.analyze p).1.map ProcedureReport.findings, (s.analyze p).2)
  | .batch procedures =>
      ((s.analyzeAll procedures).1.map BatchReport.findings, (s.analyzeAll procedures).2)

def serveAll (s : Session) : List Request → Except AnalysisError (List (List Finding)) × Session
  | [] => (.ok [], s)
  | request :: rest =>
      match s.serve request with
      | (.error error, s) => (.error error, s)
      | (.ok findings, s) =>
          match s.serveAll rest with
          | (.error error, s) => (.error error, s)
          | (.ok answers, s) => (.ok (findings :: answers), s)

/-- The report on a body keeps of what is found there, and of the findings at one location a
definite one if there is any. -/
def Keeps (s : Session) (b : Body) (report : ProcedureReport) : Prop :=
  ∀ f ∈ report.findings, ∃ all, s.Finds b all ∧ f ∈ all ∧
    ∀ g ∈ all, g.location = f.location → g.isDefinite = true → f.isDefinite = true

variable {s next last : Session} {b : Body}

/-! ### One request -/

theorem serve_accounts {request : Request} {findings : List Finding}
    (ran : s.serve request = (.ok findings, next)) :
    s.Accounts request.bodies findings next := by
  cases request with
  | body b =>
      obtain ⟨report, served, rfl⟩ := ok_of_map ran
      exact analyzeBody_accounts served
  | procedure p =>
      obtain ⟨report, served, rfl⟩ := ok_of_map ran
      exact analyzeBody_accounts (analyzeBody_of_analyze served)
  | batch procedures =>
      obtain ⟨report, served, rfl⟩ := ok_of_map ran
      exact analyzeAll_accounts served

theorem analyzeBody_keeps {report : ProcedureReport}
    (ran : s.analyzeBody b = (.ok report, next)) : s.Keeps b report := by
  obtain ⟨verdict, judged, rfl, -⟩ := analyzeBody_ok ran
  cases verdict with
  | none => exact nofun
  | some verdict =>
      have finds := finds_of_judge judged
      intro f kept
      refine ⟨verdict.findings, finds, Reported.mem_of_mem_claimAll kept, ?_⟩
      intro g member same definite
      obtain ⟨-, result, -, -, -, -, all⟩ := finds
      have ordered := b.procedure.findings_ordered result.exitState? s.rule.id
        s.options.analysisKind
      rw [← all] at ordered
      rcases Reported.first_of_mem_claimAll ordered kept member same with rfl | first
      · exact definite
      · exact first definite

theorem Continues.keeps {report : ProcedureReport} (continues : s.Continues next)
    (keeps : next.Keeps b report) : s.Keeps b report := by
  intro f member
  obtain ⟨all, finds, rest⟩ := keeps f member
  exact ⟨all, continues.finds_iff.mp finds, rest⟩

theorem analyzeEach_keeps {procedures : List Procedure} {reports : List ProcedureReport}
    (ran : s.analyzeEach procedures = (.ok reports, next)) :
    List.Forall₂ (fun p report => s.Keeps p.body report) procedures reports := by
  induction procedures generalizing s reports with
  | nil =>
      cases ran
      exact .nil
  | cons first rest ih =>
      obtain ⟨report, middle, later, ranFirst, ranRest, rfl⟩ := analyzeEach_cons_ok ran
      have served := analyzeBody_of_analyze ranFirst
      have continues := (analyzeBody_accounts served).continues
      exact .cons (analyzeBody_keeps served) ((ih ranRest).imp fun _ _ => continues.keeps)

/-! ### All requests -/

theorem serveAll_accounts {requests : List Request} {answers : List (List Finding)}
    (ran : s.serveAll requests = (.ok answers, next)) :
    s.Accounts (requests.flatMap Request.bodies) answers.flatten next := by
  induction requests generalizing s answers with
  | nil =>
      cases ran
      exact .nothing _
  | cons first rest ih =>
      rw [serveAll] at ran
      split at ran
      · cases ran
      · next findings middle served =>
        split at ran
        · cases ran
        · next later after servedRest =>
          cases ran
          exact (serve_accounts served).append (ih servedRest)

/-- Over all requests that a new session serves, no location is reported twice, and a location
is reported exactly if a finding of one of the bodies is there. Whatever requests came before,
the report on a body keeps a definite finding wherever there is one. -/
theorem locations_are_reported_once (unreported : s.reported = {}) {requests : List Request}
    {answers : List (List Finding)} (ran : s.serveAll requests = (.ok answers, last)) :
    (answers.flatten.map Finding.location).Nodup ∧
    (∀ l, l ∈ answers.flatten.map Finding.location ↔
      ∃ b ∈ requests.flatMap Request.bodies, ∃ all, s.Finds b all ∧ ∃ f ∈ all, f.location = l) ∧
    (∀ b report next, last.analyzeBody b = (.ok report, next) → s.Keeps b report) ∧
    (∀ p report next, last.analyze p = (.ok report, next) → s.Keeps p.body report) ∧
    ∀ procedures reports next, last.analyzeEach procedures = (.ok reports, next) →
      List.Forall₂ (fun p report => s.Keeps p.body report) procedures reports := by
  have accounts := serveAll_accounts ran
  have keeps {b : Body} {report : ProcedureReport} : last.Keeps b report → s.Keeps b report :=
    accounts.continues.keeps
  refine ⟨accounts.distinct, fun l => ?_, fun b report next served => ?_,
    fun p report next served => ?_, fun procedures reports next served => ?_⟩
  · have free : s.reported.contains l = false := by
      rw [unreported]
      rfl
    rw [accounts.mem_locations_iff]
    exact and_iff_right free
  · exact keeps (analyzeBody_keeps served)
  · exact keeps (analyzeBody_keeps (analyzeBody_of_analyze served))
  · exact (analyzeEach_keeps served).imp fun _ _ => keeps

/-- Two instances are created at one place. One of them is completed on one of two paths, the
other never. -/
def creatingTwice : Procedure :=
  { creating ⟨2⟩ .entry with
    operations :=
      [{ id := ⟨0⟩, kind := .objectCreation ⟨0⟩ [], ty := some ⟨0⟩
         source := some ⟨⟨2, 0, 2, 11⟩, "new Scope()"⟩ },
        { id := ⟨1⟩, kind := .objectCreation ⟨0⟩ [], ty := some ⟨0⟩
          source := some ⟨⟨2, 0, 2, 11⟩, "new Scope()"⟩ },
        { id := ⟨2⟩, kind := .invocation ⟨1⟩ (some ⟨0⟩) [] }]
    graph :=
      { blocks :=
          [{ id := ⟨0⟩, kind := .entry, operations := [⟨0⟩, ⟨1⟩],
             successors := [⟨⟨0⟩, ⟨1⟩, .always⟩, ⟨⟨0⟩, ⟨2⟩, .always⟩] },
            { id := ⟨1⟩, kind := .exit },
            { id := ⟨2⟩, kind := .block, operations := [⟨2⟩],
              successors := [⟨⟨2⟩, ⟨1⟩, .always⟩] }]
        regions := []
        entry := ⟨0⟩
        exit := ⟨1⟩ } }

def repeatedRequests : List Request :=
  [.procedure (creating ⟨0⟩ .entry), .batch [creatingTwice, creating ⟨0⟩ .entry],
    .body creatingTwice.body]

theorem repeatedRequests_are_reported_once :
    newSession.reported = {} ∧
    ∃ answers last, newSession.serveAll repeatedRequests = (.ok answers, last) ∧
      answers.map (·.map Finding.location) =
        [[⟨"Run.cs", ⟨0, 0, 0, 11⟩⟩], [⟨"Run.cs", ⟨2, 0, 2, 11⟩⟩], []] ∧
      (answers.flatten.map Finding.location).Nodup ∧
      (∃ b ∈ repeatedRequests.flatMap Request.bodies, ∃ all, newSession.Finds b all ∧
        ∃ f ∈ all, f.location = ⟨"Run.cs", ⟨2, 0, 2, 11⟩⟩) ∧
      ∀ report next, newSession.analyze creatingTwice = (.ok report, next) →
        newSession.Keeps creatingTwice.body report := by
  have served : (newSession.serveAll repeatedRequests).1.toOption.map
      (·.map (·.map Finding.location)) =
        some [[⟨"Run.cs", ⟨0, 0, 0, 11⟩⟩], [⟨"Run.cs", ⟨2, 0, 2, 11⟩⟩], []] := by decide +kernel
  rcases ran : newSession.serveAll repeatedRequests with ⟨error | answers, last⟩
  · rw [ran] at served
    contradiction
  · rw [ran] at served
    have located : answers.map (·.map Finding.location) =
        [[⟨"Run.cs", ⟨0, 0, 0, 11⟩⟩], [⟨"Run.cs", ⟨2, 0, 2, 11⟩⟩], []] := Option.some.inj served
    obtain ⟨once, found, -⟩ := locations_are_reported_once rfl ran
    refine ⟨rfl, answers, last, rfl, located, once, ?_, ?_⟩
    · apply (found _).mp
      rw [List.map_flatten, located]
      decide
    · intro report next asked
      have nothing : newSession.serveAll [] = (.ok [], newSession) := rfl
      exact (locations_are_reported_once rfl nothing).2.2.2.1 creatingTwice report next asked

end Session

end PathCompletion
