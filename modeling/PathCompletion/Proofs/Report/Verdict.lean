import PathCompletion.Proofs.Report.Batch

/-!
Verdicts on bodies. What a session finds in a body depends on its rule, its symbols, its
settings and the bodies of callees, and on nothing that earlier requests leave behind, as long
as the session is not cancelled. Earlier requests only decide which of the findings are still
free. So a run of requests claims exactly the locations that are found in the bodies it
analyzes.
-/

namespace PathCompletion

theorem Resolutions.get_again (r : Resolutions) (resolver : Resolver) (rule : Rule) :
    ((r.get resolver rule).2.get resolver rule).1 = (r.get resolver rule).1 := by
  unfold get
  dsimp only
  cases found : r.entries.lookup
      (resolver.compilation, rule.targetType, rule.completionMethod) with
  | some target => simp only [found]
  | none => simp only [List.lookup_cons, BEq.rfl]

def Procedure.body (p : Procedure) : Body := ⟨p, p.localOracle⟩

namespace Session

def target? (s : Session) : Option Target := (s.resolutions.get s.symbols s.rule).1

def Finds (s : Session) (b : Body) (findings : List Finding) : Prop :=
  ∃ target result cancelled, s.target? = some target ∧
    b.procedure.mayCreateTarget s.symbols target.type = true ∧
    (s.context target b).analyze false = (.ok result, cancelled) ∧
    findings = b.procedure.findings result.exitState? s.rule.id s.options.analysisKind

/-! ### Verdicts -/

structure Verdict where
  findings : List Finding
  stats : Stats

/-- The verdict on a body, which there is none of if the body is skipped; and whether the
session is cancelled afterwards. -/
def judge (s : Session) (b : Body) : Except AnalysisError (Option Verdict) × Bool :=
  match s.target? with
  | none => (.ok none, false)
  | some target =>
      if !b.procedure.mayCreateTarget s.symbols target.type then (.ok none, false)
      else match (s.context target b).analyze false with
        | (.error error, cancelled) => (if error.isSoft then .ok none else .error error, cancelled)
        | (.ok result, cancelled) =>
            (.ok (some ⟨b.procedure.findings result.exitState? s.rule.id s.options.analysisKind,
              result.stats⟩), cancelled)

theorem Finds.judge {s : Session} {b : Body} {findings : List Finding}
    (finds : s.Finds b findings) :
    ∃ stats cancelled, s.judge b = (.ok (some ⟨findings, stats⟩), cancelled) := by
  obtain ⟨target, result, cancelled, resolved, creates, ran, rfl⟩ := finds
  refine ⟨result.stats, cancelled, ?_⟩
  simp [Session.judge, resolved, creates, ran]

theorem finds_of_judge {s : Session} {b : Body} {verdict : Verdict} {cancelled : Bool}
    (judged : s.judge b = (.ok (some verdict), cancelled)) : s.Finds b verdict.findings := by
  unfold judge at judged
  split at judged
  · cases judged
  · next target resolved =>
    split at judged
    · cases judged
    · next creates =>
      split at judged
      · next error _ _ =>
        -- An error gives no verdict, soft or not.
        have same := congrArg Prod.fst judged
        dsimp only at same
        split at same <;> cases same
      · next result _ ran =>
        cases judged
        exact ⟨target, result, cancelled, resolved, by simpa using creates, ran, rfl⟩

def answer (s : Session) (p : Procedure) : Option Verdict → ProcedureReport × Reported
  | none => ({ procedure := p.name }, s.reported)
  | some verdict =>
      ({ procedure := p.name
         findings := (s.reported.claimAll verdict.findings).1
         stats := some verdict.stats },
        (s.reported.claimAll verdict.findings).2)

def after (s : Session) (reported : Reported) (cancelled : Bool) : Session :=
  { s with resolutions := (s.resolutions.get s.symbols s.rule).2, reported, cancelled }

theorem judge_after (s : Session) (reported : Reported) (cancelled : Bool) (b : Body) :
    (s.after reported cancelled).judge b = s.judge b := by
  have same : (s.after reported cancelled).target? = s.target? :=
    s.resolutions.get_again s.symbols s.rule
  unfold judge
  rw [same]
  rfl

/-- A session that is not cancelled judges the body and answers for the verdict. -/
theorem analyzeBody_eq {s : Session} (uncancelled : s.cancelled = false) (b : Body) :
    s.analyzeBody b = match s.judge b with
      | (.error error, cancelled) => (.error error, s.after s.reported cancelled)
      | (.ok verdict, cancelled) =>
          (.ok (s.answer b.procedure verdict).1,
            s.after (s.answer b.procedure verdict).2 cancelled) := by
  obtain ⟨rule, symbols, provider, config, options, resolutions, reported, cancelled⟩ := s
  cases uncancelled
  unfold analyzeBody judge resolveTarget target? after
  rcases found : resolutions.get symbols rule with ⟨target | target, later⟩
  · rfl
  · dsimp only
    cases b.procedure.mayCreateTarget symbols target.type with
    | false => rfl
    | true =>
        simp only [Bool.not_true, Bool.false_eq_true, ↓reduceIte, context]
        rcases Context.analyze _ false with ⟨error | result, cancelled⟩
        · dsimp only [skipOnSoft]
          by_cases soft : error.isSoft = true
          · simp only [soft, ↓reduceIte]
            rfl
          · simp only [soft, Bool.false_eq_true, ↓reduceIte]
        · rfl

/-! ### Requests as verdicts -/

variable {s next : Session} {b : Body} {p : Procedure} {report : ProcedureReport}

theorem uncancelled_of_analyzeBody (ran : s.analyzeBody b = (.ok report, next)) :
    s.cancelled = false := by
  cases cancelled : s.cancelled with
  | false => rfl
  | true =>
      unfold analyzeBody at ran
      simp [cancelled] at ran

/-- A request that ends well answers for the verdict on its body. -/
theorem analyzeBody_ok (ran : s.analyzeBody b = (.ok report, next)) :
    ∃ verdict, s.judge b = (.ok verdict, next.cancelled) ∧
      report = (s.answer b.procedure verdict).1 ∧
      next = s.after (s.answer b.procedure verdict).2 next.cancelled := by
  rw [analyzeBody_eq (uncancelled_of_analyzeBody ran)] at ran
  split at ran
  · cases ran
  · next verdict cancelled judged =>
    cases ran
    exact ⟨verdict, judged, rfl, rfl⟩

/-- A procedure is analyzed by its body, unless it has operations outside its arena. -/
theorem analyze_eq (s : Session) (p : Procedure) :
    s.analyze p = s.analyzeBody p.body ∨ ∃ id, p.strayOperation? = some id ∧
      s.analyze p = (.error (.strayOperation id.render), s) := by
  unfold analyze Procedure.localOracle?
  cases stray : p.strayOperation? with
  | none => exact .inl rfl
  | some id => exact .inr ⟨id, rfl, rfl⟩

theorem analyzeBody_of_analyze (ran : s.analyze p = (.ok report, next)) :
    s.analyzeBody p.body = (.ok report, next) := by
  rcases s.analyze_eq p with same | ⟨id, -, failed⟩
  · rw [← same, ran]
  · rw [failed] at ran
    cases ran

/-! ### What runs account for -/

def Continues (s next : Session) : Prop := ∀ b, next.judge b = s.judge b

theorem Continues.finds_iff (continues : s.Continues next) {findings : List Finding} :
    next.Finds b findings ↔ s.Finds b findings := by
  constructor
  · intro finds
    obtain ⟨stats, cancelled, judged⟩ := finds.judge
    exact finds_of_judge (continues b ▸ judged)
  · intro finds
    obtain ⟨stats, cancelled, judged⟩ := finds.judge
    exact finds_of_judge ((continues b).trans judged)

/-- From one session to the next these bodies were analyzed. Of what is found in them exactly
what was free is reported, each location once. -/
structure Accounts (s : Session) (bodies : List Body) (findings : List Finding) (next : Session) :
    Prop where
  continues : s.Continues next
  claims : s.Claims findings next
  distinct : (findings.map Finding.location).Nodup
  found : ∀ f ∈ findings, ∃ b ∈ bodies, ∃ all, s.Finds b all ∧ f ∈ all
  claimed : ∀ b ∈ bodies, ∀ all, s.Finds b all → ∀ f ∈ all,
    next.reported.contains f.location = true

namespace Accounts

variable {middle : Session} {bodies later : List Body} {findings others : List Finding}

theorem nothing (s : Session) : s.Accounts [] [] s :=
  ⟨fun _ => rfl, .nothing rfl, List.nodup_nil, nofun, nofun⟩

theorem append (first : s.Accounts bodies findings middle)
    (second : middle.Accounts later others next) :
    s.Accounts (bodies ++ later) (findings ++ others) next where
  continues b := (second.continues b).trans (first.continues b)
  claims := first.claims.append second.claims
  distinct := by
    rw [List.map_append, List.nodup_append]
    refine ⟨first.distinct, second.distinct, ?_⟩
    intro l early other late same
    obtain ⟨f, made, rfl⟩ := List.mem_map.mp early
    obtain ⟨g, madeToo, rfl⟩ := List.mem_map.mp late
    exact first.claims.fresh second.claims f made g madeToo same.symm
  found := by
    intro f member
    rcases List.mem_append.mp member with early | late
    · obtain ⟨b, listed, all, finds, inside⟩ := first.found f early
      exact ⟨b, List.mem_append_left _ listed, all, finds, inside⟩
    · obtain ⟨b, listed, all, finds, inside⟩ := second.found f late
      exact ⟨b, List.mem_append_right _ listed, all, first.continues.finds_iff.mp finds, inside⟩
  claimed := by
    intro b listed all finds f inside
    rcases List.mem_append.mp listed with early | late
    · exact (second.claims.reported _).mpr (.inl (first.claimed b early all finds f inside))
    · exact second.claimed b late all (first.continues.finds_iff.mpr finds) f inside

theorem perm (accounts : s.Accounts bodies findings next) (same : others.Perm findings) :
    s.Accounts bodies others next where
  continues := accounts.continues
  claims := ⟨fun l => by simp only [accounts.claims.reported, same.mem_iff],
    fun f member => accounts.claims.free f (same.mem_iff.mp member)⟩
  distinct := (same.map _).nodup_iff.mpr accounts.distinct
  found f member := accounts.found f (same.mem_iff.mp member)
  claimed := accounts.claimed

/-- The locations that are reported: those found in the bodies that were free before. -/
theorem mem_locations_iff (accounts : s.Accounts bodies findings next) (l : SourceLocation) :
    l ∈ findings.map Finding.location ↔ s.reported.contains l = false ∧
      ∃ b ∈ bodies, ∃ all, s.Finds b all ∧ ∃ f ∈ all, f.location = l := by
  constructor
  · intro member
    obtain ⟨f, made, rfl⟩ := List.mem_map.mp member
    obtain ⟨b, listed, all, finds, inside⟩ := accounts.found f made
    exact ⟨accounts.claims.free f made, b, listed, all, finds, f, inside, rfl⟩
  · rintro ⟨free, b, listed, all, finds, f, inside, rfl⟩
    have taken := accounts.claimed b listed all finds f inside
    rcases (accounts.claims.reported _).mp taken with before | ⟨g, made, same⟩
    · rw [free] at before
      contradiction
    · exact List.mem_map.mpr ⟨g, made, same⟩

end Accounts

theorem analyzeBody_accounts (ran : s.analyzeBody b = (.ok report, next)) :
    s.Accounts [b] report.findings next := by
  have claims : s.Claims report.findings next := by
    have settles := s.analyzeBody_settles b
    rwa [ran] at settles
  obtain ⟨verdict, judged, rfl, after⟩ := analyzeBody_ok ran
  have continues : s.Continues next := by
    rw [after]
    exact s.judge_after _ _
  cases verdict with
  | none =>
      refine ⟨continues, claims, List.nodup_nil, nofun, ?_⟩
      -- A body that was skipped has no findings to account for.
      intro other listed all finds
      rw [List.mem_singleton.mp listed] at finds
      obtain ⟨stats, cancelled, found⟩ := finds.judge
      rw [judged] at found
      cases found
  | some verdict =>
      refine ⟨continues, claims, s.reported.nodup_claimAll _, fun f kept => ?_, ?_⟩
      · exact ⟨b, List.mem_singleton_self b, _, finds_of_judge judged,
          Reported.mem_of_mem_claimAll kept⟩
      · intro other listed all finds f inside
        rw [List.mem_singleton.mp listed] at finds
        obtain ⟨stats, cancelled, found⟩ := finds.judge
        rw [judged] at found
        cases found
        rw [after]
        exact s.reported.contains_claimAll_of_mem inside

theorem analyzeEach_accounts {procedures : List Procedure} {reports : List ProcedureReport}
    (ran : s.analyzeEach procedures = (.ok reports, next)) :
    s.Accounts (procedures.map Procedure.body) (reports.flatMap ProcedureReport.findings) next := by
  induction procedures generalizing s reports with
  | nil =>
      cases ran
      exact .nothing _
  | cons first rest ih =>
      obtain ⟨report, middle, later, ranFirst, ranRest, rfl⟩ := analyzeEach_cons_ok ran
      exact (analyzeBody_accounts (analyzeBody_of_analyze ranFirst)).append (ih ranRest)

theorem analyzeAll_accounts {procedures : List Procedure} {report : BatchReport}
    (ran : s.analyzeAll procedures = (.ok report, next)) :
    s.Accounts (procedures.map Procedure.body) report.findings next := by
  obtain ⟨reports, each, rfl⟩ := analyzeAll_reports ran
  exact (analyzeEach_accounts each).perm (List.mergeSort_perm _ _)

end Session

end PathCompletion
