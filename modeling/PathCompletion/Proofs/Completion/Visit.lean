import PathCompletion.Proofs.Completion.Motion
import PathCompletion.Proofs.Fixpoint.Safety

/-!
What visits keep. A visit changes the state by rules and, where a call is analyzed, by what
comes back from the callee. What both keep holds all through an analysis, whatever the analysis
remembers and however deep it goes.
-/

namespace PathCompletion.Context

/-! ### Calls -/

/-- The call leads from the state into the body of its method, which is not under analysis
yet, and the analysis of that body ends with the result. -/
structure Enters (c : Context) (descend : Option Runner) (method : MethodId)
    (arguments : List OperationId) (s : State) (callee : Body) (result : Result) : Prop where
  fresh : c.isOnCallChain method = false
  body : c.env.provider.body? method = some callee
  ran : ∃ run cancelled after, descend = some run ∧
    run (c.forCallee callee (c.seed callee arguments s)) cancelled = (.ok result, after)

inductive Entered (c : Context) (descend : Option Runner) (op : Operation) (method : MethodId)
    (arguments : List OperationId) (s : State) : State × Bool → Prop where
  | analyzed {callee : Body} {result : Result}
      (enters : c.Enters descend method arguments s callee result) :
      Entered c descend op method arguments s
        ((result.exitState?.map fun exit => c.applyCallee op callee arguments exit s).getD s, true)
  | degraded : Entered c descend op method arguments s (c.degrade op arguments s, false)
  | ignored : Entered c descend op method arguments s (s, false)

variable {c : Context} {descend : Option Runner} {s : State}

theorem runCallee_ran (run : Runner) (child : Context) :
    Step.Ensures (runCallee run child) fun outcome => ∀ result, outcome = some result →
      ∃ cancelled after, run child cancelled = (.ok result, after) := by
  unfold runCallee
  refine .after fun m => ?_
  refine .after fun _ => ?_
  split
  · next result ran =>
    refine .pure ?_
    rintro _ same
    cases same
    exact ⟨m.cancelled, _, Prod.ext ran rfl⟩
  · split
    · exact .pure nofun
    · exact .throw

theorem analyzeCall_enters (method : MethodId) (signature : Signature)
    (arguments : List OperationId) :
    Step.Ensures (c.analyzeCall descend method signature arguments s) fun outcome =>
      ∀ callee result, outcome = some (callee, result) →
        c.Enters descend method arguments s callee result := by
  unfold analyzeCall
  by_cases skipped : (!c.env.config.interprocedural || !c.mayPassTarget signature ||
      c.isOnCallChain method) = true
  · simp only [skipped, ↓reduceIte]
    exact .pure nofun
  -- The tests before the body was asked for have passed.
  have fresh : c.isOnCallChain method = false := by simp_all
  simp only [skipped, Bool.false_eq_true, ↓reduceIte]
  cases descend with
  | none => exact .pure nofun
  | some run =>
      refine .after fun _ => ?_
      cases body : c.env.provider.body? method with
      | none => exact .pure nofun
      | some callee =>
          refine .after fun m => ?_
          by_cases cancelled : m.cancelled = true
          · simp only [cancelled, ↓reduceIte]
            exact .after_throw
          simp only [cancelled, Bool.false_eq_true, ↓reduceIte]
          refine (runCallee_ran run _).bind fun outcome came => .pure ?_
          intro other result same
          obtain ⟨_, rfl, pair⟩ := Option.map_eq_some_iff.mp same
          cases pair
          obtain ⟨cancelled, after, ran⟩ := came result rfl
          exact ⟨fresh, body, run, cancelled, after, rfl, ran⟩

theorem enterCall_entered (op : Operation) (method : MethodId) (arguments : List OperationId) :
    Step.Ensures (c.enterCall descend op method arguments s)
      (c.Entered descend op method arguments s) := by
  have missed (unknown : Bool) : Step.Ensures (if unknown then do
        modify fun m => m.noteDegraded op.id
        return (c.degrade op arguments s, false)
      else return (s, false) : Step Memory (State × Bool))
      (c.Entered descend op method arguments s) := by
    cases unknown with
    | false => exact .pure .ignored
    | true => exact .after fun _ => .pure .degraded
  unfold enterCall
  cases c.env.symbols.method method with
  | none => exact .after_pure (missed _)
  | some signature =>
      refine (analyzeCall_enters method signature arguments).bind fun outcome enters => ?_
      cases outcome with
      | none => exact missed _
      | some found =>
          obtain ⟨callee, result⟩ := found
          have came : c.Entered descend op method arguments s _ :=
            .analyzed (enters callee result rfl)
          refine .after fun _ => ?_
          cases exits : result.exitState? with
          | none =>
              rw [exits] at came
              exact .pure came
          | some exit =>
              rw [exits] at came
              exact .pure came

/-- A call whose callee was analyzed ends with what the callee brings back, if it comes to its
exit. -/
theorem enterCall_analyzed {op : Operation} {method : MethodId} {arguments : List OperationId}
    {t : State} {m after : Memory}
    (ran : (c.enterCall descend op method arguments s).run m = (.ok (t, true), after)) :
    ∃ callee result, c.Enters descend method arguments s callee result ∧
      t = (result.exitState?.map fun exit => c.applyCallee op callee arguments exit s).getD s := by
  have came := enterCall_entered op method arguments m _ after ran
  generalize outcome : (t, true) = entered at came
  cases came with
  | analyzed enters =>
      cases outcome
      exact ⟨_, _, enters, rfl⟩
  | degraded => cases outcome
  | ignored => cases outcome

/-! ### What rules and calls keep -/

/-- Rules keep states good, and so do completions by the operations that are visited, and what
comes back from a callee entered in a good state. -/
structure KeptAt (c : Context) (descend : Option Runner) (visited : Operation → Prop)
    (good : State → Prop) : Prop where
  rule : ∀ {f s}, c.Bounded c.Regular f → good s → good (f s)
  complete : ∀ {op target arguments s}, visited op →
    op.kind = .invocation c.env.target.completion target arguments → good s →
      good (c.complete op.id target s)
  call : ∀ {op method arguments s callee result exit}, good s →
    c.Enters descend method arguments s callee result → result.exitState? = some exit →
      good (c.applyCallee op callee arguments exit s)

namespace KeptAt

variable {visited : Operation → Prop} {good : State → Prop}
  (kept : c.KeptAt descend visited good)

include kept

theorem entered {op : Operation} {method : MethodId} {arguments : List OperationId}
    (now : good s) {entered : State × Bool}
    (came : c.Entered descend op method arguments s entered) : good entered.1 := by
  cases came with
  | @analyzed callee result enters =>
      cases exits : result.exitState? with
      | none => exact now
      | some exit => exact kept.call now enters exits
  | degraded => exact kept.rule (c.degrade_bounded op arguments) now
  | ignored => exact now

theorem visitInvocation (now : good s) (reachable : Bool) {op : Operation} {method : MethodId}
    {target : Option OperationId} {arguments : List OperationId} (visit : visited op)
    (kind : op.kind = .invocation method target arguments) :
    Step.Ensures (c.visitInvocation descend reachable op method target arguments s) good := by
  unfold Context.visitInvocation
  by_cases completion : method = c.env.target.completion
  · simp only [completion, ↓reduceIte]
    exact .pure (kept.complete visit (completion ▸ kind) now)
  simp only [completion, ↓reduceIte]
  refine (enterCall_entered op method arguments).bind fun outcome came => .pure ?_
  have finished (shape : CallShape) := kept.rule
    (c.finishArguments_bounded reachable shape outcome.2 arguments) (kept.entered now came)
  split
  · exact kept.rule (c.create_bounded reachable op.ty op.id) (finished _)
  · exact finished _

theorem visitField (now : good s) (reachable : Bool) (op : Operation) (field : FieldId)
    (target : Option OperationId) (m : Memory) :
    good (c.visitField reachable op field target s m).1 := by
  have created := kept.rule (c.create_bounded reachable op.ty op.id) now
  unfold Context.visitField
  dsimp only
  split
  · split
    · exact now
    split
    · exact created
    split
    · exact created
    · exact now
  · exact now

theorem visitOperation (now : good s) (reachable : Bool) {op : Operation} (visit : visited op) :
    Step.Ensures (c.visitOperation descend reachable s op) good := by
  have escapes (between : State) (still : good between) :
      Step.Ensures (pure (c.applyEscapes op between) : Step Memory State) good :=
    .pure (kept.rule (c.applyEscapes_bounded op) still)
  unfold Context.visitOperation
  cases kind : op.kind with
  | objectCreation constructor arguments =>
      exact Step.Ensures.bind
        (.pure (kept.rule (c.construct_bounded reachable op arguments) now)) escapes
  | invocation method target arguments =>
      exact (kept.visitInvocation now reachable visit kind).bind escapes
  | fieldReference field target =>
      refine Step.Ensures.bind ?_ escapes
      intro m between after ran
      rw [Step.run_modifyGet] at ran
      cases ran
      exact kept.visitField now reachable op field target m
  | _ => exact Step.Ensures.bind (.pure now) escapes

theorem visitBlock (all : ∀ op ∈ c.procedure.operations, visited op) (now : good s)
    (block : Block) : Step.Ensures (c.visitBlock descend block s) good := by
  have through : Step.Ensures ((c.evaluated block).foldlM
      (c.visitOperation descend block.isReachable) s) good :=
    .foldlM _ (fun t still op member => kept.visitOperation still block.isReachable
      (all op (mem_operations_of_evaluated member))) now
  refine through.bind fun t still => .pure ?_
  split
  · exact kept.rule c.release_bounded still
  · exact still

theorem visitEdge (now : good s) (block : Block) (edge : Edge) :
    Step.Ensures (c.visitEdge block edge s) good :=
  .after fun _ => .pure (kept.rule (c.refineEdge_bounded _ block edge) now)

/-- What also holds of the entry state, and of states merged, holds of all an analysis
records. -/
theorem snapshots (all : ∀ op ∈ c.procedure.operations, visited op) (initial : good c.entryState)
    (merge : ∀ s t, good s → good t → good (State.domain.merge s t)) {cancelled after : Bool}
    {result : Result} (ran : analyzeWith descend c cancelled = (.ok result, after)) :
    Problem.Snapshots good (fun _ _ => True) result.snapshots := by
  obtain ⟨solution, m, solved, snapshots⟩ := analyzeWith_ok ran
  rw [snapshots]
  have safe : (c.problem descend).Safe good fun _ _ => True :=
    ⟨initial, merge,
      fun block _ now => (kept.visitBlock all now block).mono fun _ still => ⟨still, trivial⟩,
      fun block edge _ now => kept.visitEdge now block edge⟩
  exact Problem.solve_ensures safe _ _ _ _ solved

end KeptAt

/-- Rules of any sort keep states good, and so does what comes back from a callee entered in a
good state. -/
structure Kept (c : Context) (descend : Option Runner) (good : State → Prop) : Prop where
  rule : ∀ {sort f s}, c.Bounded sort f → good s → good (f s)
  call : ∀ {op method arguments s callee result exit}, good s →
    c.Enters descend method arguments s callee result → result.exitState? = some exit →
      good (c.applyCallee op callee arguments exit s)

namespace Kept

variable {good : State → Prop} (kept : c.Kept descend good)

include kept

theorem everywhere : c.KeptAt descend (fun _ => True) good where
  rule := kept.rule
  complete _ _ := kept.rule (c.complete_bounded _ _)
  call := kept.call

theorem visitOperation (now : good s) (reachable : Bool) (op : Operation) :
    Step.Ensures (c.visitOperation descend reachable s op) good :=
  kept.everywhere.visitOperation now reachable trivial

theorem visitBlock (now : good s) (block : Block) :
    Step.Ensures (c.visitBlock descend block s) good :=
  kept.everywhere.visitBlock (fun _ _ => trivial) now block

theorem visitEdge (now : good s) (block : Block) (edge : Edge) :
    Step.Ensures (c.visitEdge block edge s) good :=
  kept.everywhere.visitEdge now block edge

theorem snapshots (initial : good c.entryState)
    (merge : ∀ s t, good s → good t → good (State.domain.merge s t)) {cancelled after : Bool}
    {result : Result} (ran : analyzeWith descend c cancelled = (.ok result, after)) :
    Problem.Snapshots good (fun _ _ => True) result.snapshots :=
  kept.everywhere.snapshots (fun _ _ => trivial) initial merge ran

end Kept

/-- What holds of the analysis of one procedure, if it holds of the analyses of callees, holds
to any number of levels. -/
theorem analyzeWithin_induct {good : Runner → Prop}
    (step : ∀ descend, (∀ run, descend = some run → good run) → good (analyzeWith descend))
    (levels : Nat) : good (analyzeWithin levels) := by
  induction levels with
  | zero => exact step none nofun
  | succ levels ih =>
      -- The callees of this level have one level fewer.
      refine step _ fun run same => ?_
      cases same
      exact ih

end PathCompletion.Context
