import PathCompletion.Analysis.Run
import PathCompletion.Proofs.Completion.Lattice
import PathCompletion.Proofs.Completion.Rule
import PathCompletion.Proofs.Fixpoint.Paths

/-!
A procedure by itself. Where no call is followed and fields are not tracked, visits depend on
their arguments alone, and what they do at each location is a sequence of effects.
-/

namespace PathCompletion

theorem Procedure.mem_operations_of_postorderWithin {p : Procedure} {depth : Nat}
    {id : OperationId} {op : Operation} (member : op ∈ p.postorderWithin depth id) :
    op ∈ p.operations := by
  induction depth generalizing id with
  | zero => contradiction
  | succ depth ih =>
      unfold postorderWithin at member
      split at member
      · contradiction
      · next root found =>
        rcases List.mem_append.mp member with below | last
        · obtain ⟨child, -, inside⟩ := List.mem_flatMap.mp below
          exact ih inside
        · rw [List.mem_singleton.mp last]
          exact List.mem_of_getElem? found

namespace Context

structure Alone (c : Context) : Prop where
  calls : c.env.config.interprocedural = false
  fields : c.env.config.trackFields = false

/-- The operation is no call that could be followed. -/
def StaysInside (c : Context) (op : Operation) : Prop :=
  ∀ method target arguments, op.kind = .invocation method target arguments →
    method = c.env.target.completion ∨ c.env.config.interprocedural = false

theorem mem_operations_of_evaluated {c : Context} {block : Block} {op : Operation}
    (member : op ∈ c.evaluated block) : op ∈ c.procedure.operations := by
  obtain ⟨root, -, below⟩ := List.mem_flatMap.mp member
  exact Procedure.mem_operations_of_postorderWithin below

/-! ### What visits do -/

def call (c : Context) (reachable : Bool) (op : Operation) (method : MethodId)
    (arguments : List OperationId) (s : State) : State :=
  let signature := c.env.symbols.method method
  let entered := if (signature.map c.mayPassTarget).getD true then c.degrade op arguments s else s
  let isFactory := signature.any c.isFactory
  let tryGet := signature.any fun signature =>
    c.returnsBool signature && tryGetName.isPrefixOf signature.name.toList
  let finished := c.finishArguments reachable (.method isFactory tryGet) false arguments entered
  if isFactory then c.create reachable op.ty (c.locations op.id) finished else finished

def perform (c : Context) (reachable : Bool) (op : Operation) (s : State) : State :=
  match op.kind with
  | .objectCreation _ arguments => c.construct reachable op arguments s
  | .invocation method target arguments =>
      if method = c.env.target.completion then c.complete op.id target s
      else c.call reachable op method arguments s
  | _ => s

def operate (c : Context) (reachable : Bool) (s : State) (op : Operation) : State :=
  c.applyEscapes op (c.perform reachable op s)

def finish (c : Context) (block : Block) (s : State) : State :=
  if block.kind = .exit && !c.isCallee then c.release s else s

def motion (c : Context) : Motion State where
  through block s := c.finish block ((c.evaluated block).foldl (c.operate block.isReachable) s)
  along := c.refineEdge fun _ => false

/-- Nothing is remembered that a visit could depend on. -/
structure Quiet (cancelled : Bool) (m : Memory) : Prop where
  fields : m.fields = none
  analyzed : m.analyzed = ∅
  cancelled : m.cancelled = cancelled

section

variable {c : Context} (descend : Option Runner) (cancelled : Bool)

theorem Quiet.noteDegraded {m : Memory} (quiet : Quiet cancelled m) (call : OperationId) :
    Quiet cancelled (m.noteDegraded call) := by
  refine ⟨quiet.fields, ?_, quiet.cancelled⟩
  change m.analyzed.erase call = ∅
  rw [quiet.analyzed]
  rfl

theorem quiet_initialMemory (untracked : c.env.config.trackFields = false) :
    Quiet cancelled (c.initialMemory cancelled) :=
  ⟨by simp [initialMemory, untracked], rfl, rfl⟩

theorem enterCall_gives (unfollowed : c.env.config.interprocedural = false) (op : Operation)
    (method : MethodId) (arguments : List OperationId) (s : State) :
    Step.Gives (Quiet cancelled) (c.enterCall descend op method arguments s)
      (if ((c.env.symbols.method method).map c.mayPassTarget).getD true then
        c.degrade op arguments s else s, false) := by
  have degraded (unknown : Bool) : Step.Gives (Quiet cancelled)
      (if unknown then do
        modify fun m => m.noteDegraded op.id
        return (c.degrade op arguments s, false)
      else return (s, false) : Step Memory (State × Bool))
      (if unknown then c.degrade op arguments s else s, false) := by
    cases unknown with
    | false => exact .pure _
    | true =>
        exact Step.Gives.bind (.modify fun m quiet => quiet.noteDegraded cancelled op.id) (.pure _)
  unfold enterCall
  cases c.env.symbols.method method with
  | none => exact Step.Gives.bind (.pure none) (degraded _)
  | some signature =>
      -- Where calls are not followed there is no callee to speak of, whatever the method.
      have nothing : Step.Gives (Quiet cancelled)
          (c.analyzeCall descend method signature arguments s) none := by
        simp only [analyzeCall, unfollowed, Bool.not_false, Bool.true_or, ↓reduceIte]
        exact .pure none
      exact nothing.bind (degraded _)

theorem visitInvocation_gives {method : MethodId}
    (inside : method = c.env.target.completion ∨ c.env.config.interprocedural = false)
    (reachable : Bool) (op : Operation) (target : Option OperationId)
    (arguments : List OperationId) (s : State) :
    Step.Gives (Quiet cancelled) (c.visitInvocation descend reachable op method target arguments s)
      (if method = c.env.target.completion then c.complete op.id target s
        else c.call reachable op method arguments s) := by
  unfold visitInvocation
  by_cases completion : method = c.env.target.completion
  · simp only [completion, ↓reduceIte]
    exact .pure _
  · simp only [completion, ↓reduceIte]
    have unfollowed := inside.resolve_left completion
    exact (enterCall_gives descend cancelled unfollowed op method arguments s).bind (.pure _)

theorem visitOperation_gives (reachable : Bool) (s : State) {op : Operation}
    (inside : c.StaysInside op) :
    Step.Gives (Quiet cancelled) (c.visitOperation descend reachable s op)
      (c.operate reachable s op) := by
  unfold visitOperation operate perform
  cases kind : op.kind with
  | objectCreation constructor arguments =>
      exact Step.Gives.bind (.pure (c.construct reachable op arguments s)) (.pure _)
  | invocation method target arguments =>
      exact (visitInvocation_gives descend cancelled (inside method target arguments kind)
        reachable op target arguments s).bind (.pure _)
  | fieldReference field target =>
      refine Step.Gives.bind (a := s) ?_ (.pure _)
      intro m quiet
      refine ⟨m, ?_, quiet⟩
      rw [Step.run_modifyGet]
      simp only [visitField, quiet.fields]
  | _ => exact Step.Gives.bind (.pure s) (.pure _)

theorem computes_of_inside (inside : ∀ op ∈ c.procedure.operations, c.StaysInside op) :
    (c.problem descend).transfer.Computes (Quiet cancelled) c.motion where
  block := by
    intro block s
    have visited := Step.Gives.foldlM (c.evaluated block)
      (fun s op member => visitOperation_gives descend cancelled block.isReachable s
        (inside op (mem_operations_of_evaluated member))) s
    exact visited.bind (.pure _)
  edge := by
    intro block edge s m quiet
    refine ⟨m, ?_, quiet⟩
    -- Edges ask which calls were analyzed; in a quiet memory none was.
    change (pure (c.refineEdge m.analyzed.contains block edge s) : Step Memory State).run m = _
    rw [quiet.analyzed]
    rfl

end

theorem initialMemory_quiet {c : Context} (alone : c.Alone) (cancelled : Bool) :
    Quiet cancelled (c.initialMemory cancelled) :=
  quiet_initialMemory cancelled alone.fields

theorem problem_computes {c : Context} (alone : c.Alone) (descend : Option Runner)
    (cancelled : Bool) : (c.problem descend).transfer.Computes (Quiet cancelled) c.motion :=
  computes_of_inside descend cancelled fun _ _ _ _ _ _ => .inr alone.calls

/-! ### Visits as effects -/

variable (c : Context)

theorem call_bounded (reachable : Bool) (op : Operation) (method : MethodId)
    (arguments : List OperationId) :
    c.Bounded c.Regular (c.call reachable op method arguments) := by
  have entered := Bounded.ite (((c.env.symbols.method method).map c.mayPassTarget).getD true = true)
    (c.degrade_bounded op arguments) .id
  have finished (shape : CallShape) :=
    (c.finishArguments_bounded reachable shape false arguments).comp entered
  exact .ite _ ((c.create_bounded ..).comp (finished _)) (finished _)

theorem perform_bounded (reachable : Bool) (op : Operation) :
    c.Bounded (fun _ => True) (c.perform reachable op) := by
  unfold perform
  cases op.kind with
  | objectCreation constructor arguments =>
      exact (c.construct_bounded reachable op arguments).mono fun _ _ => trivial
  | invocation method target arguments =>
      refine .ite _ (c.complete_bounded op.id target) ?_
      exact (c.call_bounded reachable op method arguments).mono fun _ _ => trivial
  | _ => exact .id

theorem operate_bounded (reachable : Bool) (op : Operation) :
    c.Bounded (fun _ => True) fun s => c.operate reachable s op :=
  ((c.applyEscapes_bounded op).mono fun _ _ => trivial).comp (c.perform_bounded reachable op)

theorem finish_bounded (block : Block) : c.Bounded c.Regular (c.finish block) :=
  .ite _ c.release_bounded .id

theorem through_bounded (block : Block) :
    c.Bounded (fun _ => True) (c.motion.through block) :=
  ((c.finish_bounded block).mono fun _ _ => trivial).comp
    (.foldl _ fun op _ => c.operate_bounded block.isReachable op)

theorem along_bounded (block : Block) (edge : Edge) :
    c.Bounded (fun _ => True) (c.motion.along block edge) :=
  (c.refineEdge_bounded _ block edge).mono fun _ _ => trivial

/-! ### Analyses as runs -/

theorem analyze_eq (cancelled : Bool) :
    ∃ descend, c.analyze cancelled = analyzeWith descend c cancelled := by
  unfold analyze
  cases c.env.config.maxDepth - c.depth with
  | zero => exact ⟨none, rfl⟩
  | succ levels => exact ⟨some (analyzeWithin levels), rfl⟩

variable {c} in
/-- An analysis that ends well tells of a run that ended well. -/
theorem analyzeWith_ran {descend : Option Runner} {cancelled after : Bool}
    {result : Result} (ran : analyzeWith descend c cancelled = (.ok result, after)) :
    ∃ solution m, ((c.problem descend).solve c.env.config.maxIterations).run
        (c.initialMemory cancelled) = (.ok solution, m) ∧
      result =
        ⟨c.procedure.id, solution.snapshots, solution.exit, m.fields, c.stats m solution⟩ := by
  unfold analyzeWith at ran
  split at ran
  · cases ran
  · split at ran
    · cases ran
    · next solution m solved =>
      cases ran
      exact ⟨solution, m, solved, rfl⟩

variable {c} in
theorem analyzeWith_ok {descend : Option Runner} {cancelled after : Bool}
    {result : Result} (ran : analyzeWith descend c cancelled = (.ok result, after)) :
    ∃ solution m, ((c.problem descend).solve c.env.config.maxIterations).run
        (c.initialMemory cancelled) = (.ok solution, m) ∧
      result.snapshots = solution.snapshots := by
  obtain ⟨solution, m, solved, rfl⟩ := analyzeWith_ran ran
  exact ⟨solution, m, solved, rfl⟩

/-- A procedure about one instance, to which all its operations refer. Operation 0 creates it
and method 1 completes it; it escapes at the operations that are listed. -/
def oneInstance (operations : List Operation) (escaping : List OperationId)
    (blocks : List Block) : Context where
  env :=
    { symbols :=
        { compilation := ⟨0⟩
          resolveType := fun _ => none
          findInstanceMethod := fun _ _ => none
          isTarget := fun ty target => ty = target
          typeKind := fun _ => some .classType
          method := fun _ => none }
      provider := { body? := fun _ => none }
      target := ⟨⟨0⟩, ⟨1⟩⟩
      options := {}
      config := Preset.fast.config }
  body :=
    { procedure :=
        { id := ⟨0⟩, method := none, name := "Run", file := "", isConstructor := false
          parameters := [], operations, owners := []
          graph := { blocks, regions := [], entry := ⟨0⟩, exit := ⟨1⟩ } }
      oracle :=
        { pointsTo := fun _ => .single ⟨.allocation ⟨⟨0⟩, ⟨0⟩⟩, some ⟨0⟩⟩ .notNull
          escaped := fun op =>
            if op ∈ escaping then .singleton ⟨.allocation ⟨⟨0⟩, ⟨0⟩⟩, some ⟨0⟩⟩ else ∅
          parameter := fun _ => .undefined } }

end Context

end PathCompletion
