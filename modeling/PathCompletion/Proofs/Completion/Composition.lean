import PathCompletion.Proofs.Completion.History

/-!
Visits are put together from few parts: they note calls and fields, run the analyses of callees,
may be told by the host that they are cancelled, and refuse. What holds of these parts, and passes
from the parts of a step to the whole, holds of an analysis.
-/

namespace PathCompletion.Context

variable {c : Context} {descend : Option Runner}

/-- What passes from the parts of a step to the whole, and holds of the parts of a visit. -/
structure Composed (c : Context) (descend : Option Runner)
    (holds : ∀ α : Type, Step Memory α → Prop) : Prop extends Step.Composes holds where
  refuses : ∀ (α : Type) (e : AnalysisError), e.isSoft = false → holds α (throw e)
  cancel : ∀ method, holds PUnit (modify fun m : Memory =>
    { m with cancelled := m.cancelled || c.env.provider.cancelsOn method })
  run : ∀ run, descend = some run → ∀ callee initial,
    holds (Option Result) (runCallee run (c.forCallee callee initial))
  analyzed : ∀ call result, holds PUnit (modify fun m : Memory => m.noteAnalyzed call result)
  degraded : ∀ call, holds PUnit (modify fun m : Memory => m.noteDegraded call)
  field : ∀ reachable op field target s,
    holds State (modifyGet fun m => c.visitField reachable op field target s m)

namespace Composed

variable {holds : ∀ α : Type, Step Memory α → Prop} (composed : c.Composed descend holds)

include composed

theorem analyzeCall (method : MethodId) (signature : Signature) (arguments : List OperationId)
    (s : State) :
    holds (Option (Body × Result)) (c.analyzeCall descend method signature arguments s) := by
  unfold Context.analyzeCall
  split
  · exact composed.pure none
  split
  · exact composed.pure none
  · next run =>
    refine composed.bind (composed.cancel method) fun _ => ?_
    split
    · exact composed.pure none
    · next callee _ =>
      have ran := composed.bind (composed.run run rfl callee (c.seed callee arguments s))
        fun result => composed.pure (result.map fun result => (callee, result))
      refine composed.bind composed.get fun m => ?_
      split
      · exact composed.bind (composed.refuses PUnit .cancelled rfl) fun _ => ran
      · exact ran

theorem enterCall (op : Operation) (method : MethodId) (arguments : List OperationId)
    (s : State) : holds (State × Bool) (c.enterCall descend op method arguments s) := by
  rw [enterCall_eq]
  refine composed.bind ?_ fun outcome => ?_
  · split
    · exact composed.analyzeCall method _ arguments s
    · exact composed.pure none
  unfold concludeCall
  split
  · next callee result =>
    refine composed.bind (composed.analyzed op.id result) fun _ => ?_
    split <;> exact composed.pure _
  · split
    · exact composed.bind (composed.degraded op.id) fun _ => composed.pure _
    · exact composed.pure _

theorem visitOperation (reachable : Bool) (s : State) (op : Operation) :
    holds State (c.visitOperation descend reachable s op) := by
  unfold Context.visitOperation
  cases op.kind with
  | invocation method target arguments =>
      refine composed.bind ?_ fun _ => composed.pure _
      unfold Context.visitInvocation
      split
      · exact composed.pure _
      · exact composed.bind (composed.enterCall op method arguments s) fun _ => composed.pure _
  | fieldReference field target =>
      exact composed.bind (composed.field reachable op field target s) fun _ => composed.pure _
  | _ => exact composed.bind (composed.pure _) fun _ => composed.pure _

theorem visitBlock (block : Block) (s : State) :
    holds State (c.visitBlock descend block s) :=
  composed.bind (composed.toComposes.foldlM _
    (fun s op _ => composed.visitOperation block.isReachable s op) s) fun _ =>
      composed.pure _

theorem visitEdge (block : Block) (edge : Edge) (s : State) :
    holds State (c.visitEdge block edge s) :=
  composed.bind composed.get fun m =>
    composed.pure (c.refineEdge m.analyzed.contains block edge s)

theorem solve {limit : Nat} (exhausted : holds (Solution State)
    (throw (.notConverged c.procedure.name limit))) :
    holds (Solution State) ((c.problem descend).solve limit) :=
  Problem.solve_composed composed.toComposes composed.refuses composed.visitBlock composed.visitEdge
    exhausted

end Composed

end PathCompletion.Context
