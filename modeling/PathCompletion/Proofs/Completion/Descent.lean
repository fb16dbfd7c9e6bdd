import PathCompletion.Proofs.Completion.Frame

/-!
Call chains. A call opens the context of its callee only if the callee is not under analysis yet
and the chain may grow, and an analysis asks for the analyses of the contexts that it opens, and
for no others. Where bodies are registered under their own methods, the methods along a chain
are distinct, so neither the configured depth nor the number of bodies is ever exceeded.
-/

namespace PathCompletion

/-! ### Registries -/

namespace Registry

def Keyed (r : Registry) : Prop :=
  ∀ method body, r.body? method = some body → body.procedure.method = some method

theorem keyed_foldl (bodies : List Body) {r : Registry} (now : r.Keyed) :
    (bodies.foldl registerBody r).Keyed := by
  induction bodies generalizing r with
  | nil => exact now
  | cons first rest ih =>
      apply ih
      intro method body found
      rw [body?_registerBody] at found
      split at found
      · next own =>
        cases found
        exact own
      · exact now method body found

end Registry

namespace Context

variable {c child root : Context}

def canDescend (c : Context) : Bool :=
  c.env.config.interprocedural && decide (c.depth < c.env.config.maxDepth)

/-- The contexts that calls of the procedure open, whatever the state at the call. -/
inductive Opens (c : Context) : Context → Prop where
  | call {op : Operation} {method : MethodId} {target : Option OperationId}
      {arguments : List OperationId} {signature : Signature} {callee : Body} (s : State)
      (listed : op ∈ c.procedure.operations)
      (invokes : op.kind = .invocation method target arguments)
      (other : method ≠ c.env.target.completion)
      (known : c.env.symbols.method method = some signature)
      (matters : c.mayPassTarget signature = true) (fresh : c.isOnCallChain method = false)
      (deeper : c.canDescend = true) (body : c.env.provider.body? method = some callee) :
      Opens c (c.forCallee callee (c.seed callee arguments s))

/-! ### What an analysis asks of the analyses of callees -/

section

variable {first second : Option Runner}
  (same : ∀ op ∈ c.procedure.operations, ∀ method target arguments,
    op.kind = .invocation method target arguments → method ≠ c.env.target.completion →
      ∀ signature, c.env.symbols.method method = some signature → ∀ s,
        c.analyzeCall first method signature arguments s =
          c.analyzeCall second method signature arguments s)

include same

theorem visitInvocation_congr (reachable : Bool) {op : Operation} {method : MethodId}
    {target : Option OperationId} {arguments : List OperationId} (s : State)
    (listed : op ∈ c.procedure.operations)
    (invokes : op.kind = .invocation method target arguments) :
    c.visitInvocation first reachable op method target arguments s =
      c.visitInvocation second reachable op method target arguments s := by
  unfold visitInvocation
  by_cases completion : method = c.env.target.completion
  · simp only [completion, ↓reduceIte]
  · have entered : c.enterCall first op method arguments s =
        c.enterCall second op method arguments s := by
      unfold enterCall
      cases known : c.env.symbols.method method with
      | none => rfl
      | some signature =>
          simp only [same op listed method target arguments invokes completion signature known s]
    simp only [completion, ↓reduceIte, entered]

theorem visitOperation_congr (reachable : Bool) (s : State) {op : Operation}
    (listed : op ∈ c.procedure.operations) :
    c.visitOperation first reachable s op = c.visitOperation second reachable s op := by
  unfold visitOperation
  cases invokes : op.kind with
  | invocation method target arguments =>
      simp only [visitInvocation_congr same reachable s listed invokes]
  | _ => rfl

theorem visitBlock_congr (block : Block) (s : State) :
    c.visitBlock first block s = c.visitBlock second block s := by
  have all (operations : List Operation) (inside : ∀ op ∈ operations, op ∈ c.procedure.operations)
      (s : State) : operations.foldlM (c.visitOperation first block.isReachable) s =
        operations.foldlM (c.visitOperation second block.isReachable) s := by
    induction operations generalizing s with
    | nil => rfl
    | cons op rest ih =>
        have later := ih fun other member => inside other (List.mem_cons_of_mem op member)
        simp only [List.foldlM_cons, later,
          visitOperation_congr same block.isReachable s (inside op List.mem_cons_self)]
  unfold visitBlock
  rw [all _ fun op member => mem_operations_of_evaluated member]

theorem analyzeWith_congr : analyzeWith first c = analyzeWith second c := by
  have problems : c.problem first = c.problem second := by
    have visits : c.visitBlock first = c.visitBlock second :=
      funext fun block => funext fun s => visitBlock_congr same block s
    simp only [problem, transfer, visits]
  funext cancelled
  simp only [analyzeWith, problems]

end

theorem analyzeWith_unfollowed (unfollowed : c.env.config.interprocedural = false)
    (first second : Option Runner) : analyzeWith first c = analyzeWith second c := by
  apply analyzeWith_congr
  intro _ _ _ _ _ _ _ signature _ s
  simp only [analyzeCall, unfollowed, Bool.not_false, Bool.true_or, ↓reduceIte]

/-- An analysis depends on the analyses of the contexts that it opens alone. -/
theorem analyzeWith_of_opens {run other : Runner} (descends : c.canDescend = true)
    (agree : ∀ child, c.Opens child → run child = other child) :
    analyzeWith (some run) c = analyzeWith (some other) c := by
  apply analyzeWith_congr
  intro op listed method target arguments invokes completion signature known s
  unfold analyzeCall
  by_cases skipped : (!c.env.config.interprocedural || !c.mayPassTarget signature ||
      c.isOnCallChain method) = true
  · simp only [skipped, ↓reduceIte]
  have fresh : c.isOnCallChain method = false := by simp_all
  have matters : c.mayPassTarget signature = true := by simp_all
  simp only [skipped, Bool.false_eq_true, ↓reduceIte]
  cases body : c.env.provider.body? method with
  | none => rfl
  | some callee =>
      have opens : c.Opens (c.forCallee callee (c.seed callee arguments s)) :=
        .call s listed invokes completion known matters fresh descends body
      simp only [runCallee, agree _ opens]

theorem Opens.env (opens : c.Opens child) : child.env = c.env := by
  cases opens
  rfl

theorem Opens.callers (opens : c.Opens child) : child.callers = c.procedure :: c.callers := by
  cases opens
  rfl

theorem Opens.depth (opens : c.Opens child) : child.depth = c.depth + 1 := by
  cases opens
  rfl

theorem Opens.depth_lt (opens : c.Opens child) : c.depth < c.env.config.maxDepth := by
  cases opens with
  | call _ _ _ _ _ _ _ deeper => exact of_decide_eq_true (Bool.and_eq_true_iff.mp deeper).2

/-- An analysis is the analysis of one procedure, with the same analysis for the callees, where
another level may be analyzed. -/
theorem analyzeWith_eq_analyze {run : Runner}
    (agree : ∀ child, c.Opens child → run child = analyze child) :
    analyzeWith (if c.canDescend then some run else none) c = analyze c := by
  have levels : analyze c = analyzeWith (descent (c.env.config.maxDepth - c.depth)) c :=
    congrFun (analyzeWithin_eq _) c
  by_cases descends : c.canDescend = true
  · have room : c.depth < c.env.config.maxDepth :=
      of_decide_eq_true (Bool.and_eq_true_iff.mp descends).2
    obtain ⟨fewer, count⟩ : ∃ fewer, c.env.config.maxDepth - c.depth = fewer + 1 :=
      ⟨_, (Nat.sub_add_cancel (Nat.sub_pos_of_lt room)).symm⟩
    rw [levels, count, if_pos descends]
    apply analyzeWith_of_opens descends
    intro child opens
    -- The callee is one call deeper and has one level fewer, so it is analyzed to its own depth.
    have next : child.env.config.maxDepth - child.depth = fewer := by
      rw [opens.env, opens.depth]
      omega
    rw [agree child opens, ← next]
    rfl
  · rw [levels, if_neg descends]
    by_cases unfollowed : c.env.config.interprocedural = false
    · exact analyzeWith_unfollowed unfollowed none _
    · have full : ¬ c.depth < c.env.config.maxDepth := fun room =>
        descends (by simp [canDescend, room, Bool.not_eq_false _ ▸ unfollowed])
      rw [Nat.sub_eq_zero_of_le (Nat.le_of_not_lt full)]
      rfl

/-- To open is to use up depth, so every chain of openings ends. -/
theorem opens_wellFounded : WellFounded fun child parent : Context => parent.Opens child := by
  apply Subrelation.wf _ (measure fun c : Context => c.env.config.maxDepth - c.depth).wf
  intro child parent opens
  change child.env.config.maxDepth - child.depth < parent.env.config.maxDepth - parent.depth
  have room := opens.depth_lt
  rw [opens.env, opens.depth]
  omega

/-! ### Chains -/

/-- The contexts that an analysis opens, each with those above it, the nearest first. -/
inductive Opened (root : Context) : List Context → Context → Prop where
  | root : Opened root [] root
  | call {ancestors : List Context} {c child : Context} (above : Opened root ancestors c)
      (opens : c.Opens child) : Opened root (c :: ancestors) child

theorem Opened.env {ancestors : List Context} (opened : Opened root ancestors c) :
    c.env = root.env := by
  induction opened with
  | root => rfl
  | call _ opens ih => exact opens.env.trans ih

theorem Opened.callers {ancestors : List Context} (first : root.IsRoot)
    (opened : Opened root ancestors c) : c.callers = ancestors.map procedure := by
  induction opened with
  | root => exact first.callers
  | call _ opens ih => rw [opens.callers, ih, List.map_cons]

theorem Opened.depth {ancestors : List Context} (first : root.IsRoot)
    (opened : Opened root ancestors c) : c.depth = ancestors.length := by
  induction opened with
  | root => exact first.depth
  | call _ opens ih => rw [opens.depth, ih, List.length_cons]

theorem Opened.length_le_maxDepth {ancestors : List Context} (first : root.IsRoot)
    (opened : Opened root ancestors c) : ancestors.length ≤ root.env.config.maxDepth := by
  cases opened with
  | root => exact Nat.zero_le _
  | call above opens =>
      have room := opens.depth_lt
      rw [above.depth first, above.env] at room
      exact room

def methods (chain : List Context) : List MethodId :=
  chain.filterMap fun c => c.procedure.method

theorem not_mem_methods {ancestors : List Context} (callers : c.callers = ancestors.map procedure)
    {method : MethodId} (fresh : c.isOnCallChain method = false) :
    method ∉ methods (c :: ancestors) := by
  intro member
  obtain ⟨above, listed, named⟩ := List.mem_filterMap.mp member
  have chain : c.isOnCallChain method = true := by
    rw [isOnCallChain, callers, ← List.map_cons, List.any_eq_true]
    exact ⟨above.procedure, List.mem_map_of_mem listed, decide_eq_true named⟩
  rw [fresh] at chain
  contradiction

section

variable {registry : Registry} (keyed : registry.Keyed)
  (provided : root.env.provider.body? = registry.body?) (first : root.IsRoot)

include keyed provided first

/-- The context of a callee brings a method to the chain that is registered and new to it. -/
theorem Opened.methods_cons {ancestors : List Context} (above : Opened root ancestors c)
    (opens : c.Opens child) :
    ∃ method, methods (child :: c :: ancestors) = method :: methods (c :: ancestors) ∧
      method ∉ methods (c :: ancestors) ∧ registry.bodies.contains method = true := by
  cases opens with
  | @call op method target arguments signature callee s _ _ _ _ _ fresh _ body =>
      rw [above.env, provided] at body
      have own : callee.procedure.method = some method := keyed method callee body
      refine ⟨method, List.filterMap_cons_some own, not_mem_methods (above.callers first) fresh, ?_⟩
      exact SortedMap.contains_iff.mpr ⟨callee, body⟩

theorem Opened.methods_nodup {ancestors : List Context} (opened : Opened root ancestors c) :
    (methods (c :: ancestors)).Nodup := by
  induction opened with
  | root =>
      unfold methods
      cases named : root.procedure.method with
      | none => simp [named]
      | some method => simp [named]
  | call above opens ih =>
      obtain ⟨method, extended, new, -⟩ := above.methods_cons keyed provided first opens
      rw [extended]
      exact List.nodup_cons.mpr ⟨new, ih⟩

theorem Opened.registered {ancestors : List Context} (opened : Opened root ancestors c) :
    ∃ names, methods (c :: ancestors) = names ++ methods [root] ∧
      names.length = ancestors.length ∧ ∀ name ∈ names, registry.bodies.contains name = true := by
  induction opened with
  | root => exact ⟨[], rfl, rfl, nofun⟩
  | call above opens ih =>
      obtain ⟨names, chain, count, known⟩ := ih
      obtain ⟨method, extended, -, here⟩ := above.methods_cons keyed provided first opens
      refine ⟨method :: names, by rw [extended, chain, List.cons_append], by simp [count], ?_⟩
      exact List.forall_mem_cons.mpr ⟨here, known⟩

theorem Opened.length_le_size {ancestors : List Context} (opened : Opened root ancestors c) :
    ancestors.length ≤ registry.size := by
  obtain ⟨names, chain, count, known⟩ := opened.registered keyed provided first
  have distinct : names.Nodup := by
    have all := opened.methods_nodup keyed provided first
    rw [chain] at all
    exact all.of_append_left
  have inside : names ⊆ registry.bodies.entries.map Prod.fst := by
    intro name member
    obtain ⟨body, found⟩ := SortedMap.contains_iff.mp (known name member)
    exact List.mem_map.mpr ⟨(name, body), SortedMap.mem_entries_iff.mpr found, rfl⟩
  have within := (distinct.subperm inside).length_le
  rwa [count, List.length_map] at within

end

/-! ### Nesting -/

/-- The recursion unrolled a number of times; what is nested deeper is left to the given
analysis. -/
def unrolled (run : Runner) : Nat → Runner
  | 0 => run
  | levels + 1 => fun c =>
      analyzeWith (if c.canDescend then some (unrolled run levels) else none) c

theorem Opened.unrolled {bound : Nat}
    (bounded : ∀ ancestors c, Opened root ancestors c → ancestors.length ≤ bound) (run : Runner)
    {levels : Nat} {ancestors : List Context} (opened : Opened root ancestors c)
    (enough : bound < ancestors.length + levels) : unrolled run levels c = analyze c := by
  -- Each level of the recursion is that of a context one call further down.
  induction levels generalizing ancestors c with
  | zero => exact absurd (bounded ancestors c opened) (Nat.not_le_of_lt enough)
  | succ levels ih =>
      apply analyzeWith_eq_analyze
      intro child opens
      apply ih (opened.call opens)
      rw [List.length_cons]
      omega

/-- Where the bodies were registered one after the other, the contexts on a call chain have
distinct methods and are no more than the configured depth and the number of bodies allow. An
analysis asks for the analyses of the contexts it opens alone, and what is nested deeper than
that is never asked for. -/
theorem call_chains_are_bounded {bodies : List Body} {registry : Registry}
    (registered : registry = bodies.foldl Registry.registerBody {})
    (provided : root.env.provider.body? = registry.body?) (first : root.IsRoot) :
    (∀ ancestors c, Opened root ancestors c →
      c.depth = ancestors.length ∧ c.callers = ancestors.map procedure ∧
        c.depth ≤ root.env.config.maxDepth ∧ (methods (c :: ancestors)).Nodup) ∧
    (∀ c run, (∀ child, c.Opens child → run child = analyze child) →
      analyzeWith (if c.canDescend then some run else none) c = analyze c) ∧
    (WellFounded fun child parent : Context => parent.Opens child) ∧
    (∀ ancestors c, Opened root ancestors c →
      ancestors.length ≤ min root.env.config.maxDepth registry.size) ∧
    ∀ run, unrolled run (min root.env.config.maxDepth registry.size + 1) root = analyze root := by
  have keyed : registry.Keyed := registered ▸ Registry.keyed_foldl bodies nofun
  have bounded (ancestors : List Context) (c : Context) (opened : Opened root ancestors c) :
      ancestors.length ≤ min root.env.config.maxDepth registry.size :=
    le_min (opened.length_le_maxDepth first) (opened.length_le_size keyed provided first)
  refine ⟨?_, fun c run => analyzeWith_eq_analyze, opens_wellFounded, bounded, ?_⟩
  · intro ancestors c opened
    have depth := opened.depth first
    exact ⟨depth, opened.callers first, depth ▸ opened.length_le_maxDepth first,
      opened.methods_nodup keyed provided first⟩
  · intro run
    apply Opened.root.unrolled bounded run
    rw [List.length_nil, Nat.zero_add]
    exact Nat.lt_succ_self _

def passingOn (method : MethodId) (callees : List MethodId) : Body :=
  let calls := callees.zipIdx.map fun (callee, i) =>
    ({ id := ⟨i + 2⟩, kind := .invocation callee none [⟨1⟩] } : Operation)
  let p := { lender.procedure with
    id := ⟨method.index⟩, method := some method, parameters := [⟨"scope", ⟨0⟩, .none⟩]
    operations :=
      { id := ⟨0⟩, kind := .parameterReference 0, ty := some ⟨0⟩ } ::
        { id := ⟨1⟩, kind := .argument 0 .none ⟨0⟩, ty := some ⟨0⟩ } :: calls
    graph := { lender.procedure.graph with blocks := straight (calls.map Operation.id) } }
  ⟨p, p.localOracle⟩

/-- Method 2 was registered twice. Both methods call themselves and each other. -/
def entangled : Registry :=
  [passingOn ⟨2⟩ [⟨2⟩], passingOn ⟨3⟩ [⟨2⟩, ⟨3⟩], passingOn ⟨2⟩ [⟨2⟩, ⟨3⟩]].foldl
    Registry.registerBody {}

def entangling : Context :=
  { lender with env := { lender.env with
      symbols := { lender.env.symbols with
        method := fun _ => some ⟨"Take", ⟨1⟩, true, false, none, [⟨0⟩]⟩ }
      provider := { body? := entangled.body? }
      config := Preset.balanced.config } }

/-- A third level is allowed, but both methods are under analysis. -/
theorem entangling_chain_is_bounded :
    ∃ outer inner, Opened entangling [outer, entangling] inner ∧
      methods [inner, outer, entangling] = [⟨3⟩, ⟨2⟩] ∧ inner.depth = 2 ∧
      inner.canDescend = true ∧ (∀ child, ¬ inner.Opens child) ∧
      ∀ run, unrolled run 3 entangling = analyze entangling := by
  let outer := entangling.forCallee (passingOn ⟨2⟩ [⟨2⟩, ⟨3⟩])
    (entangling.seed (passingOn ⟨2⟩ [⟨2⟩, ⟨3⟩]) [⟨1⟩] ∅)
  let inner := outer.forCallee (passingOn ⟨3⟩ [⟨2⟩, ⟨3⟩])
    (outer.seed (passingOn ⟨3⟩ [⟨2⟩, ⟨3⟩]) [⟨1⟩] ∅)
  have opensOuter : entangling.Opens outer := by
    have listed : lend ∈ entangling.procedure.operations := by decide +kernel
    exact .call ∅ listed rfl (by decide) rfl (by decide +kernel) (by decide +kernel) rfl rfl
  have opensInner : outer.Opens inner := by
    have listed : { id := ⟨3⟩, kind := .invocation ⟨3⟩ none [⟨1⟩] } ∈
        (passingOn ⟨2⟩ [⟨2⟩, ⟨3⟩]).procedure.operations := by decide +kernel
    exact .call ∅ listed rfl (by decide) rfl (by decide +kernel) (by decide +kernel) rfl rfl
  have opened : Opened entangling [outer, entangling] inner :=
    (Opened.root.call opensOuter).call opensInner
  have registered : entangled = List.foldl Registry.registerBody {} _ := rfl
  have provided : entangling.env.provider.body? = entangled.body? := rfl
  obtain ⟨chain, -, -, bounded, nested⟩ := call_chains_are_bounded registered provided ⟨rfl, rfl⟩
  have size : entangled.size = 2 := by decide +kernel
  refine ⟨outer, inner, opened, rfl, (chain _ _ opened).1, rfl, fun child opens => ?_, ?_⟩
  · have deeper := bounded _ _ (opened.call opens)
    rw [size] at deeper
    contradiction
  · rw [size] at nested
    exact nested

end Context

end PathCompletion
