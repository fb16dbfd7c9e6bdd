import PathCompletion.Proofs.Completion.Composition

/-!
Callees that cannot be analyzed. An analysis passes on no soft failure of a callee, so its own
soft failures have two causes: its graph has no blocks, or its passes run out. A call whose callee
fails so leaves the caller as a call without a body does, however far the callee got, and
whatever came of the call before.
-/

namespace PathCompletion

namespace Context

variable {c : Context} {descend : Option Runner}

/-! ### Soft failures -/

section

variable {kind : AnalysisError → Prop} (hard : ∀ e : AnalysisError, e.isSoft = false → kind e)

include hard

theorem runCallee_throws (run : Runner) (child : Context) :
    Step.Throws kind (runCallee run child) := by
  unfold runCallee
  refine .bind .get fun m => .bind (.modify _) fun _ => ?_
  split
  · exact .pure _
  · next error _ =>
    split
    · exact .pure _
    · next isHard => exact .throw (hard error (Bool.eq_false_iff.mpr isHard))

theorem composed_throws (c : Context) (descend : Option Runner) :
    c.Composed descend fun _ x => Step.Throws kind x where
  toComposes := Step.Throws.composes kind
  refuses _ e isHard := .throw (hard e isHard)
  cancel _ := .modify _
  run run _ _ _ := runCallee_throws hard run _
  analyzed _ _ := .modify _
  degraded _ := .modify _
  field _ _ _ _ _ := .modifyGet _

end

/-- The soft failures of an analysis are its own. -/
theorem analyzeWith_soft {cancelled after : Bool} {e : AnalysisError}
    (failed : analyzeWith descend c cancelled = (.error e, after)) (soft : e.isSoft = true) :
    c.procedure.graph.blocks = [] ∧ e = .graphUnavailable c.procedure.name ∨
      e = .notConverged c.procedure.name c.env.config.maxIterations := by
  unfold analyzeWith at failed
  split at failed
  · next empty =>
    cases failed
    exact .inl ⟨List.isEmpty_iff.mp empty, rfl⟩
  · -- Of what the passes throw, only that they ran out is soft.
    have hard (e : AnalysisError) (isHard : e.isSoft = false) : e.isSoft = true →
        e = .notConverged c.procedure.name c.env.config.maxIterations := by
      intro soft
      rw [isHard] at soft
      contradiction
    have throws := (composed_throws hard c descend).solve (.throw fun _ => rfl)
    split at failed
    · next error m ran =>
      cases failed
      exact .inr (throws _ _ _ ran soft)
    · cases failed

/-! ### Calls that come to nothing -/

def follow (c : Context) : Option Runner := descent (c.env.config.maxDepth - c.depth)

theorem analyze_eq_follow (c : Context) : analyze c = analyzeWith c.follow c :=
  congrFun (analyzeWithin_eq _) c

theorem follow_callee {run : Runner} (follows : c.follow = some run) (callee : Body)
    (initial : State) :
    run (c.forCallee callee initial) = analyze (c.forCallee callee initial) := by
  unfold follow at follows
  cases levels : c.env.config.maxDepth - c.depth with
  | zero =>
      rw [levels] at follows
      contradiction
  | succ fewer =>
      rw [levels] at follows
      cases follows
      -- The callee is one call deeper.
      have next : c.env.config.maxDepth - (c.depth + 1) = fewer := by omega
      rw [← next]
      rfl

section

variable {method : MethodId} {arguments : List OperationId} {s : State} {m : Memory}

/-- Nothing comes of looking into the callee, but that the analysis may be cancelled. -/
def Unanswered (c : Context) (descend : Option Runner) (method : MethodId)
    (arguments : List OperationId) (s : State) (m : Memory) : Prop :=
  ∀ signature, ∃ cancelled, (c.analyzeCall descend method signature arguments s).run m =
    (.ok none, { m with cancelled })

theorem unanswered_of_no_body (descend : Option Runner)
    (absent : c.env.provider.body? method = none) :
    c.Unanswered descend method arguments s m := by
  intro signature
  unfold analyzeCall
  split
  · exact ⟨m.cancelled, rfl⟩
  cases descend with
  | none => exact ⟨m.cancelled, rfl⟩
  | some run =>
      refine ⟨m.cancelled || c.env.provider.cancelsOn method, ?_⟩
      rw [Step.run_bind_of_ok (Step.run_modify _ m), absent]
      rfl

theorem unanswered_of_soft {callee : Body} (body : c.env.provider.body? method = some callee)
    (uncancelled : m.cancelled = false) (patient : c.env.provider.cancelsOn method = false)
    {e : AnalysisError} {after : Bool} (soft : e.isSoft = true)
    (failed : analyze (c.forCallee callee (c.seed callee arguments s)) false = (.error e, after)) :
    c.Unanswered c.follow method arguments s m := by
  intro signature
  unfold analyzeCall
  split
  · exact ⟨m.cancelled, rfl⟩
  cases follows : c.follow with
  | none => exact ⟨m.cancelled, rfl⟩
  | some run =>
      have ran := congrFun (follow_callee follows callee (c.seed callee arguments s)) false
      rw [failed] at ran
      -- The callee leaves nothing behind but whether it was cancelled.
      refine ⟨after, ?_⟩
      rw [Step.run_bind_of_ok (Step.run_modify _ m), body]
      simp only [uncancelled, patient, Bool.or_false]
      rw [Step.run_bind_of_ok (Step.run_get _)]
      simp only [Bool.false_eq_true, ↓reduceIte]
      have ended : (runCallee run (c.forCallee callee (c.seed callee arguments s))).run
          { m with cancelled := false } = (.ok none, { m with cancelled := after }) := by
        unfold runCallee
        rw [Step.run_bind_of_ok (Step.run_get _)]
        dsimp only
        rw [ran, Step.run_bind_of_ok (Step.run_modify _ _)]
        simp only [soft, ↓reduceIte]
        rfl
      rw [Step.run_bind_of_ok ended]
      rfl

theorem analyzeCall_unfollowed (signature : Signature) :
    c.analyzeCall none method signature arguments s = pure none := by
  unfold analyzeCall
  split <;> rfl

theorem enterCall_unfollowed (c : Context) (op : Operation) (method : MethodId)
    (arguments : List OperationId) (s : State) :
    c.enterCall none op method arguments s = c.concludeCall op method arguments s none := by
  rw [enterCall_eq]
  cases c.env.symbols.method method with
  | none => rfl
  | some signature =>
      simp only [analyzeCall_unfollowed]
      rfl

variable {op : Operation} {target : Option OperationId}
  (invokes : op.kind = .invocation method target arguments)

include invokes

/-- Such a call is visited as if calls were not followed. -/
theorem visitOperation_of_unanswered (unanswered : c.Unanswered descend method arguments s m)
    (reachable : Bool) :
    ∃ cancelled, (c.visitOperation descend reachable s op).run m =
      (c.visitOperation none reachable s op).run { m with cancelled } := by
  have entered : ∃ cancelled, (c.enterCall descend op method arguments s).run m =
      (c.enterCall none op method arguments s).run { m with cancelled } := by
    rw [enterCall_unfollowed, enterCall_eq]
    cases c.env.symbols.method method with
    | none => exact ⟨m.cancelled, rfl⟩
    | some signature =>
        obtain ⟨cancelled, nothing⟩ := unanswered signature
        exact ⟨cancelled, Step.run_bind_of_ok nothing⟩
  unfold visitOperation visitInvocation
  simp only [invokes]
  by_cases completion : method = c.env.target.completion
  · simp only [completion, ↓reduceIte]
    exact ⟨m.cancelled, rfl⟩
  · obtain ⟨cancelled, same⟩ := entered
    refine ⟨cancelled, ?_⟩
    simp only [completion, ↓reduceIte, Step.run_bind, same]

/-- A visit that follows no calls ends well, and neither asks whether the analysis is cancelled nor
changes that. -/
theorem visitOperation_unfollowed (c : Context) (reachable : Bool) (s : State) (m : Memory) :
    ∃ (t : State) (noted : Memory), ∀ cancelled,
      (c.visitOperation none reachable s op).run { m with cancelled } =
        (.ok t, { noted with cancelled }) := by
  unfold visitOperation visitInvocation
  simp only [invokes, enterCall_unfollowed, concludeCall]
  by_cases completion : method = c.env.target.completion
  · simp only [completion, ↓reduceIte]
    exact ⟨_, m, fun _ => rfl⟩
  · cases notes : c.notes method with
    | false =>
        simp only [completion, ↓reduceIte, Bool.false_eq_true]
        exact ⟨_, m, fun _ => rfl⟩
    | true =>
        simp only [completion, ↓reduceIte]
        exact ⟨_, m.noteDegraded op.id, fun _ => rfl⟩

end

def withoutBody (c : Context) (method : MethodId) : Context :=
  { c with env := { c.env with provider := { c.env.provider with
      body? := fun other => if other = method then none else c.env.provider.body? other } } }

theorem visitOperation_withoutBody (c : Context) (method : MethodId) (reachable : Bool) (s : State)
    (op : Operation) : (c.withoutBody method).visitOperation none reachable s op =
      c.visitOperation none reachable s op := by
  rfl

/-- A callee that fails softly has no blocks, or its passes ran out. Either way, and whatever the
caller has noted so far, the visit of the call ends as it does where the callee has no body: with
the same state, the same tracked fields, and the same calls noted as analyzed and as not. -/
theorem soft_failure_is_absence {op : Operation} {method : MethodId}
    {target : Option OperationId} {arguments : List OperationId}
    (invokes : op.kind = .invocation method target arguments) {callee : Body}
    (body : c.env.provider.body? method = some callee) {m : Memory}
    (uncancelled : m.cancelled = false) (patient : c.env.provider.cancelsOn method = false)
    {s : State} {e : AnalysisError} {after : Bool}
    (failed : analyze (c.forCallee callee (c.seed callee arguments s)) false = (.error e, after))
    (soft : e.isSoft = true) (reachable : Bool) :
    (callee.procedure.graph.blocks = [] ∧ e = .graphUnavailable callee.procedure.name ∨
      e = .notConverged callee.procedure.name c.env.config.maxIterations) ∧
    ∃ t first second, (c.visitOperation c.follow reachable s op).run m = (.ok t, first) ∧
      ((c.withoutBody method).visitOperation (c.withoutBody method).follow reachable s op).run m =
        (.ok t, second) ∧
      first.fields = second.fields ∧ first.analyzed = second.analyzed ∧
      first.degraded = second.degraded := by
  constructor
  · rw [analyze_eq_follow] at failed
    exact analyzeWith_soft failed soft
  · -- Both visits are visits that follow no calls, cancelled or not.
    have absent : (c.withoutBody method).env.provider.body? method = none := if_pos rfl
    obtain ⟨flag, ran⟩ := visitOperation_of_unanswered invokes
      (unanswered_of_soft body uncancelled patient soft failed) reachable
    obtain ⟨other, ranWithout⟩ := visitOperation_of_unanswered invokes
      (unanswered_of_no_body (c.withoutBody method).follow absent) reachable
    obtain ⟨t, noted, ends⟩ := visitOperation_unfollowed invokes c reachable s m
    rw [visitOperation_withoutBody] at ranWithout
    exact ⟨t, _, _, ran.trans (ends flag), ranWithout.trans (ends other), rfl, rfl, rfl⟩

/-- The callee needs two passes, and is given one. -/
def hasty : Context :=
  let lending := lending (borrower completing (straight [⟨1⟩]))
  { lending with env := { lending.env with config := { lending.env.config with
      maxIterations := 1, trackFields := true } } }

def analyzedBefore : Memory :=
  { fields := some (.ofList [(⟨4⟩, .undefined)]), analyzed := .ofList [(⟨2⟩, {})] }

theorem hasty_soft_failure_is_absence :
    ∃ t first second,
      (hasty.visitOperation hasty.follow true twoInstances lend).run analyzedBefore =
        (.ok t, first) ∧
      ((hasty.withoutBody ⟨2⟩).visitOperation (hasty.withoutBody ⟨2⟩).follow true twoInstances
        lend).run analyzedBefore = (.ok t, second) ∧
      first.fields = second.fields ∧ first.analyzed = second.analyzed ∧
      first.degraded = second.degraded ∧ analyzedBefore.analyzed.contains lend.id = true ∧
      first.analyzed.contains lend.id = false ∧ first.degraded.contains lend.id = true := by
  let callee := borrower completing (straight [⟨1⟩])
  have failed : analyze (hasty.forCallee callee (hasty.seed callee [⟨1⟩] twoInstances)) false =
    (.error (.notConverged "Run" 1), false) := rfl
  have invokes : lend.kind = .invocation ⟨2⟩ none [⟨1⟩] := rfl
  have body : hasty.env.provider.body? ⟨2⟩ = some callee := rfl
  have uncancelled : analyzedBefore.cancelled = false := rfl
  obtain ⟨-, t, first, second, ran, ranWithout, fields, analyzed, degraded⟩ :=
    soft_failure_is_absence invokes body uncancelled rfl failed rfl true
  have noted : ((hasty.visitOperation hasty.follow true twoInstances lend).run
        analyzedBefore).2.analyzed.contains lend.id = false ∧
      ((hasty.visitOperation hasty.follow true twoInstances lend).run
        analyzedBefore).2.degraded.contains lend.id = true := by decide +kernel
  rw [ran] at noted
  exact ⟨t, first, second, ran, ranWithout, fields, analyzed, degraded, by decide +kernel,
    noted.1, noted.2⟩

end Context

end PathCompletion
