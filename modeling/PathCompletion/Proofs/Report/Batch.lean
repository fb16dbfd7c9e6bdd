import PathCompletion.Proofs.Report.Classified
import PathCompletion.Report.Session

/-!
Batches and the locations they claim. A request claims exactly the locations of the findings
that it makes, also when it is one of a batch whose report never appears. So a batch that
fails leaves behind the claims of the procedures before the failing one, and what they would
have reported is not reported by any later request.
-/

namespace PathCompletion

/-! ### Claims -/

namespace Reported

theorem ext {r t : Reported} (same : ∀ l, r.contains l = true ↔ t.contains l = true) : r = t := by
  cases r
  cases t
  exact congrArg Reported.mk (SortedSet.ext same)

theorem contains_claim (r : Reported) (l other : SourceLocation) :
    (r.claim l).2.contains other = true ↔ r.contains other = true ∨ l = other := by
  change other ∈ r.locations.insert l ↔ other ∈ r.locations ∨ l = other
  rw [SortedSet.mem_insert, or_comm, eq_comm]

theorem claimAll_cons (r : Reported) (f : Finding) (rest : List Finding) :
    r.claimAll (f :: rest) =
      (if r.contains f.location then ((r.claim f.location).2.claimAll rest).1
        else f :: ((r.claim f.location).2.claimAll rest).1,
      ((r.claim f.location).2.claimAll rest).2) := by
  by_cases taken : r.contains f.location = true <;> simp [claimAll, claim, taken]

theorem contains_claimAll (r : Reported) (findings : List Finding) (l : SourceLocation) :
    (r.claimAll findings).2.contains l = true ↔
      r.contains l = true ∨ ∃ f ∈ (r.claimAll findings).1, f.location = l := by
  induction findings generalizing r with
  | nil => simp [claimAll]
  | cons f rest ih =>
      rw [claimAll_cons, ih, contains_claim]
      by_cases taken : r.contains f.location = true
      · -- The location was taken, so to claim it again adds nothing.
        simp only [taken, ↓reduceIte]
        constructor
        · rintro ((old | rfl) | kept)
          · exact .inl old
          · exact .inl taken
          · exact .inr kept
        · rintro (old | kept)
          · exact .inl (.inl old)
          · exact .inr kept
      · simp [taken, or_assoc]

theorem free_of_mem_claimAll {r : Reported} {findings : List Finding} {f : Finding}
    (kept : f ∈ (r.claimAll findings).1) : r.contains f.location = false := by
  induction findings generalizing r with
  | nil => simp [claimAll] at kept
  | cons first rest ih =>
      have later (member : f ∈ ((r.claim first.location).2.claimAll rest).1) :
          r.contains f.location = false := by
        have free := ih member
        rw [Bool.eq_false_iff, ne_eq, contains_claim] at free
        simpa using fun taken => free (.inl taken)
      rw [claimAll_cons] at kept
      by_cases taken : r.contains first.location = true
      · exact later (by simpa [taken] using kept)
      · simp only [taken, Bool.false_eq_true, ↓reduceIte, List.mem_cons] at kept
        rcases kept with rfl | member
        · simpa using taken
        · exact later member

theorem mem_of_mem_claimAll {r : Reported} {findings : List Finding} {f : Finding}
    (kept : f ∈ (r.claimAll findings).1) : f ∈ findings := by
  induction findings generalizing r with
  | nil => exact kept
  | cons first rest ih =>
      rw [claimAll_cons] at kept
      split at kept
      · exact List.mem_cons_of_mem first (ih kept)
      · rcases List.mem_cons.mp kept with rfl | later
        · exact List.mem_cons_self
        · exact List.mem_cons_of_mem first (ih later)

theorem contains_claimAll_of_mem (r : Reported) {findings : List Finding} {f : Finding}
    (member : f ∈ findings) : (r.claimAll findings).2.contains f.location = true := by
  induction findings generalizing r with
  | nil => contradiction
  | cons first rest ih =>
      rw [claimAll_cons]
      rcases List.mem_cons.mp member with rfl | later
      · exact (contains_claimAll _ rest _).mpr (.inl ((contains_claim ..).mpr (.inr rfl)))
      · exact ih _ later

/-- What is kept after a location was claimed is not at that location. -/
theorem ne_of_mem_claimAll_claim {r : Reported} {l : SourceLocation} {findings : List Finding}
    {f : Finding} (kept : f ∈ ((r.claim l).2.claimAll findings).1) : l ≠ f.location := by
  intro same
  have free := free_of_mem_claimAll kept
  rw [Bool.eq_false_iff, ne_eq, contains_claim] at free
  exact free (.inr same)

theorem nodup_claimAll (r : Reported) (findings : List Finding) :
    ((r.claimAll findings).1.map Finding.location).Nodup := by
  induction findings generalizing r with
  | nil => exact List.nodup_nil
  | cons first rest ih =>
      rw [claimAll_cons]
      split
      · exact ih _
      · refine List.nodup_cons.mpr ⟨fun again => ?_, ih _⟩
        obtain ⟨f, kept, same⟩ := List.mem_map.mp again
        exact ne_of_mem_claimAll_claim kept same.symm

/-- Of the findings at one location the first is kept. -/
theorem first_of_mem_claimAll {r : Reported} {findings : List Finding} {f g : Finding}
    {before : Finding → Finding → Prop} (ordered : findings.Pairwise before)
    (kept : f ∈ (r.claimAll findings).1) (member : g ∈ findings) (same : g.location = f.location) :
    f = g ∨ before f g := by
  induction findings generalizing r with
  | nil => contradiction
  | cons first rest ih =>
      obtain ⟨ahead, later⟩ := List.pairwise_cons.mp ordered
      have beyond (kept : f ∈ ((r.claim first.location).2.claimAll rest).1) :
          f = g ∨ before f g := by
        have elsewhere := ne_of_mem_claimAll_claim kept
        rcases List.mem_cons.mp member with rfl | inside
        · exact absurd same elsewhere
        · exact ih later kept inside
      rw [claimAll_cons] at kept
      split at kept
      · exact beyond kept
      · rcases List.mem_cons.mp kept with rfl | inside
        · rcases List.mem_cons.mp member with rfl | inside
          · exact .inl rfl
          · exact .inr (ahead g inside)
        · exact beyond inside

end Reported

namespace Session

/-! ### Requests that end well -/

/-- From one session to the next, exactly the locations of these findings were claimed, and
all of them were free. -/
structure Claims (s : Session) (findings : List Finding) (next : Session) : Prop where
  reported : ∀ l, next.reported.contains l = true ↔
    s.reported.contains l = true ∨ ∃ f ∈ findings, f.location = l
  free : ∀ f ∈ findings, s.reported.contains f.location = false

variable {s middle next : Session}

theorem Claims.nothing (same : next.reported = s.reported) : s.Claims [] next :=
  ⟨fun l => by simp [same], nofun⟩

theorem Claims.append {first second : List Finding} (before : s.Claims first middle)
    (after : middle.Claims second next) : s.Claims (first ++ second) next := by
  constructor
  · intro l
    rw [after.reported, before.reported]
    simp [or_assoc, or_and_right, exists_or]
  · intro f member
    rcases List.mem_append.mp member with early | late
    · exact before.free f early
    · have free := after.free f late
      rw [Bool.eq_false_iff, ne_eq, before.reported] at free
      simpa using fun taken => free (.inl taken)

theorem Claims.reported_eq_iff {findings : List Finding} (claims : s.Claims findings next) :
    next.reported = s.reported ↔ findings = [] := by
  constructor
  · intro same
    apply List.eq_nil_iff_forall_not_mem.mpr
    intro f member
    have taken := (claims.reported f.location).mpr (.inr ⟨f, member, rfl⟩)
    rw [same, claims.free f member] at taken
    contradiction
  · rintro rfl
    exact Reported.ext fun l => by simp [claims.reported l]

/-- What was claimed before a request is not among its findings. -/
theorem Claims.fresh {findings later : List Finding} (claims : s.Claims findings middle)
    (after : middle.Claims later next) : ∀ f ∈ findings, ∀ g ∈ later, g.location ≠ f.location := by
  intro f made g reported same
  have taken := (claims.reported f.location).mpr (.inr ⟨f, made, rfl⟩)
  rw [← same, after.free g reported] at taken
  contradiction

theorem reported_resolveTarget (s : Session) : s.resolveTarget.2.reported = s.reported := by
  unfold resolveTarget
  dsimp only
  split <;> rfl

/-- A request that fails claims nothing; one that ends well claims the locations of the
findings it reports. -/
def Settles (s : Session) : Except AnalysisError ProcedureReport × Session → Prop
  | (.error _, next) => next.reported = s.reported
  | (.ok report, next) => s.Claims report.findings next

theorem skipOnSoft_settles (same : next.reported = s.reported) (p : Procedure)
    (error : AnalysisError) : s.Settles (skipOnSoft p error, next) := by
  unfold skipOnSoft
  split
  · exact .nothing same
  · exact same

theorem analyzeBody_settles (s : Session) (body : Body) : s.Settles (s.analyzeBody body) := by
  have resolved := s.reported_resolveTarget
  unfold analyzeBody
  dsimp only
  split
  · rfl
  split
  · next error found unresolved =>
    rw [unresolved] at resolved
    exact skipOnSoft_settles resolved _ error
  · next target found resolution =>
    rw [resolution] at resolved
    split
    · exact .nothing resolved
    split
    · next error cancelled _ =>
      have same : ({ found with cancelled } : Session).reported = s.reported := resolved
      exact skipOnSoft_settles same _ error
    · next result cancelled _ =>
      have same : found.reported = s.reported := resolved
      constructor
      · intro l
        rw [← same]
        exact found.reported.contains_claimAll _ l
      · intro f member
        rw [← same]
        exact Reported.free_of_mem_claimAll member

theorem analyze_settles (s : Session) (p : Procedure) : s.Settles (s.analyze p) := by
  unfold analyze
  cases p.localOracle? with
  | error error => rfl
  | ok oracle => exact s.analyzeBody_settles ⟨p, oracle⟩

theorem analyze_ok {p : Procedure} {report : ProcedureReport}
    (ran : s.analyze p = (.ok report, next)) : s.Claims report.findings next := by
  have settles := s.analyze_settles p
  rwa [ran] at settles

theorem analyze_error {p : Procedure} {error : AnalysisError}
    (ran : s.analyze p = (.error error, next)) : next.reported = s.reported := by
  have settles := s.analyze_settles p
  rwa [ran] at settles

/-- If a batch ends well, its first procedure does, and then the rest of it. -/
theorem analyzeEach_cons_ok {first : Procedure} {rest : List Procedure}
    {reports : List ProcedureReport} (ran : s.analyzeEach (first :: rest) = (.ok reports, next)) :
    ∃ report middle later, s.analyze first = (.ok report, middle) ∧
      middle.analyzeEach rest = (.ok later, next) ∧ reports = report :: later := by
  rw [analyzeEach] at ran
  split at ran
  · cases ran
  · next report middle ranFirst =>
    split at ran
    · cases ran
    · next later last ranRest =>
      cases ran
      exact ⟨report, middle, later, ranFirst, ranRest, rfl⟩

theorem analyzeEach_ok {procedures : List Procedure} {reports : List ProcedureReport}
    (ran : s.analyzeEach procedures = (.ok reports, next)) :
    s.Claims (reports.flatMap ProcedureReport.findings) next := by
  induction procedures generalizing s reports with
  | nil =>
      cases ran
      exact .nothing rfl
  | cons first rest ih =>
      obtain ⟨report, middle, later, ranFirst, ranRest, rfl⟩ := analyzeEach_cons_ok ran
      exact (analyze_ok ranFirst).append (ih ranRest)

theorem ok_of_map {α β : Type} {outcome : Except AnalysisError α × Session} {f : α → β} {b : β}
    (ran : (outcome.1.map f, outcome.2) = (.ok b, next)) :
    ∃ a, outcome = (.ok a, next) ∧ b = f a := by
  obtain ⟨error | a, after⟩ := outcome
  · cases ran
  · cases ran
    exact ⟨a, rfl, rfl⟩

theorem analyzeAll_reports {procedures : List Procedure} {report : BatchReport}
    (ran : s.analyzeAll procedures = (.ok report, next)) :
    ∃ reports, s.analyzeEach procedures = (.ok reports, next) ∧
      report = BatchReport.ofReports reports :=
  ok_of_map ran

theorem analyzeAll_ok {procedures : List Procedure} {report : BatchReport}
    (ran : s.analyzeAll procedures = (.ok report, next)) : s.Claims report.findings next := by
  obtain ⟨reports, each, rfl⟩ := analyzeAll_reports ran
  have claims := analyzeEach_ok each
  constructor
  · intro l
    rw [claims.reported]
    simp only [BatchReport.ofReports, Finding.mem_sort]
  · exact fun f member => claims.free f (Finding.mem_sort.mp member)

/-! ### Batches that fail -/

theorem analyzeEach_error {procedures : List Procedure} {error : AnalysisError}
    (ran : s.analyzeEach procedures = (.error error, next)) :
    ∃ before failing rest reports middle, procedures = before ++ failing :: rest ∧
      s.analyzeEach before = (.ok reports, middle) ∧
      middle.analyze failing = (.error error, next) := by
  induction procedures generalizing s with
  | nil => cases ran
  | cons first rest ih =>
      rw [analyzeEach] at ran
      split at ran
      · next ranFirst =>
        cases ran
        exact ⟨[], first, rest, [], s, rfl, rfl, ranFirst⟩
      · next report middle ranFirst =>
        split at ran
        · next ranRest =>
          cases ran
          obtain ⟨before, failing, later, reports, last, division, ranBefore, failed⟩ := ih ranRest
          refine ⟨first :: before, failing, later, report :: reports, last, ?_, ?_, failed⟩
          · rw [division, List.cons_append]
          · rw [analyzeEach, ranFirst]
            simp only [ranBefore]
        · cases ran

/-- A batch that fails has claimed the locations of the findings of all procedures before the
failing one, and keeps them. The session is as it was exactly when those procedures had
nothing new to report; what else they had to report, no later request reports. -/
theorem failed_batch_keeps_claims {procedures : List Procedure} {error : AnalysisError}
    (failed : s.analyzeAll procedures = (.error error, next)) :
    ∃ before failing rest reports middle, procedures = before ++ failing :: rest ∧
      s.analyzeEach before = (.ok reports, middle) ∧
      middle.analyze failing = (.error error, next) ∧
      (∀ l, next.reported.contains l = true ↔ s.reported.contains l = true ∨
        ∃ report ∈ reports, ∃ f ∈ report.findings, f.location = l) ∧
      (next.reported = s.reported ↔ ∀ report ∈ reports, report.findings = []) ∧
      ∀ report ∈ reports, ∀ f ∈ report.findings,
        (∀ p report' last, next.analyze p = (.ok report', last) →
          ∀ g ∈ report'.findings, g.location ≠ f.location) ∧
        ∀ batch report' last, next.analyzeAll batch = (.ok report', last) →
          ∀ g ∈ report'.findings, g.location ≠ f.location := by
  unfold analyzeAll at failed
  rcases each : s.analyzeEach procedures with ⟨cause | reports, after⟩
  · rw [each] at failed
    cases failed
    obtain ⟨before, failing, rest, reports, middle, division, ran, stopped⟩ :=
      analyzeEach_error each
    -- A procedure that fails claims nothing, so all claims come from the reports before it.
    have made := analyzeEach_ok ran
    have kept : middle.Claims [] next := .nothing (analyze_error stopped)
    have claims := made.append kept
    rw [List.append_nil] at claims
    refine ⟨before, failing, rest, reports, middle, division, ran, stopped, ?_, ?_, ?_⟩
    · intro l
      rw [claims.reported]
      simp only [List.mem_flatMap, ← exists_and_right, and_assoc]
      rw [exists_comm]
      simp only [← exists_and_left]
    · rw [claims.reported_eq_iff, List.flatMap_eq_nil_iff]
    · intro report listed f member
      have found : f ∈ reports.flatMap ProcedureReport.findings :=
        List.mem_flatMap.mpr ⟨report, listed, member⟩
      exact ⟨fun p report' last later => claims.fresh (analyze_ok later) f found,
        fun batch report' last later => claims.fresh (analyzeAll_ok later) f found⟩
  · simp [each, Except.map] at failed

/-- A procedure that creates an instance and leaves it at that. Its graph begins with a block
of the given kind, which must be an entry. -/
def creating (id : ProcedureId) (first : BlockKind) : Procedure where
  id := id
  method := none
  name := "Run"
  file := "Run.cs"
  isConstructor := false
  parameters := []
  operations :=
    [{ id := ⟨0⟩, kind := .objectCreation ⟨0⟩ [], ty := some ⟨0⟩
       source := some ⟨⟨id.index, 0, id.index, 11⟩, "new Scope()"⟩ }]
  owners := [some ⟨0⟩]
  graph :=
    { blocks :=
        [{ id := ⟨0⟩, kind := first, operations := [⟨0⟩], successors := [⟨⟨0⟩, ⟨1⟩, .always⟩] },
          { id := ⟨1⟩, kind := .exit }]
      regions := []
      entry := ⟨0⟩
      exit := ⟨1⟩ }

def newSession : Session where
  rule := .transactionScope
  symbols :=
    { compilation := ⟨0⟩
      resolveType := fun _ => some ⟨0⟩
      findInstanceMethod := fun _ _ => some ⟨1⟩
      isTarget := fun ty target => ty = target
      typeKind := fun _ => some .classType
      method := fun _ => none }
  provider := { body? := fun _ => none }

def refusedBatch : List Procedure := [creating ⟨0⟩ .entry, creating ⟨1⟩ .block]

theorem refused_batch_keeps_claims :
    ∃ error next, newSession.analyzeAll refusedBatch = (.error error, next) ∧
      ∀ p report last, next.analyze p = (.ok report, last) →
        ∀ f ∈ report.findings, f.location ≠ ⟨"Run.cs", ⟨0, 0, 0, 11⟩⟩ := by
  have refused : (newSession.analyzeAll refusedBatch).1.isOk = false := by decide +kernel
  have claimed : (newSession.analyzeAll refusedBatch).2.reported.contains
      ⟨"Run.cs", ⟨0, 0, 0, 11⟩⟩ = true := by decide +kernel
  rcases ran : newSession.analyzeAll refusedBatch with ⟨error | report, next⟩
  · rw [ran] at claimed
    refine ⟨error, next, rfl, ?_⟩
    obtain ⟨-, -, -, reports, -, -, -, -, reported, -, lost⟩ := failed_batch_keeps_claims ran
    rcases (reported _).mp claimed with before | ⟨report, listed, f, member, here⟩
    · exact absurd before (by decide)
    · rw [← here]
      exact (lost report listed f member).1
  · rw [ran] at refused
    cases refused

/-- A batch that fails does not leave the session as it was: afterwards the procedure before
the failing one reports nothing, although it has a finding to report. -/
theorem failed_batch_loses_finding :
    (newSession.analyzeAll refusedBatch).1.isOk = false ∧
    newSession.reported.isEmpty = true ∧
    (newSession.analyzeAll refusedBatch).2.reported.isEmpty = false ∧
    (newSession.analyze (creating ⟨0⟩ .entry)).1.toOption.map (·.findings.length) = some 1 ∧
    ((newSession.analyzeAll refusedBatch).2.analyze (creating ⟨0⟩ .entry)).1.toOption.map
      (·.findings.length) = some 0 := by
  decide +kernel

end Session

end PathCompletion
