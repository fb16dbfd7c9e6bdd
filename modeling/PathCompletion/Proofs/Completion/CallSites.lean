import Mathlib.Data.Set.Card
import PathCompletion.Proofs.Completion.Absence
import PathCompletion.Proofs.Completion.Comparison
import PathCompletion.Proofs.Fixpoint.Gathered
import PathCompletion.Proofs.Flow.Operand
import PathCompletion.Proofs.PointsTo.Flow

/-!
Statistics count call sites, not visits. A visit notes a call as analyzed or as degraded, and takes
back what an earlier visit noted of it. So no call is in both sets, and together they hold the
calls that some visit has noted: those that are evaluated in blocks that the entry reaches. What
the visits found there, and how often they came, makes no difference.
-/

namespace PathCompletion

theorem SortedSet.ncard_members {α : Type} [Key α] (s : SortedSet α) :
    {a | a ∈ s}.ncard = s.size := by
  classical
  have members : {a | a ∈ s} = ↑s.toList.toFinset := by
    ext a
    simp [SortedSet.mem_toList]
  have nodup : s.toList.Nodup := s.toMap.nodup_keys
  rw [members, Set.ncard_coe_finset, List.toFinset_card_of_nodup nodup, toList, List.length_map]
  rfl

/-! ### Notes of calls -/

namespace Memory

variable {follows : Bool} {calls : OperationId → Prop} {m : Memory}

theorem mem_degraded_noteAnalyzed {call id : OperationId} {result : Result} :
    id ∈ (m.noteAnalyzed call result).degraded ↔ id ≠ call ∧ id ∈ m.degraded :=
  SortedSet.mem_erase

theorem mem_degraded_noteDegraded {call id : OperationId} :
    id ∈ (m.noteDegraded call).degraded ↔ id = call ∨ id ∈ m.degraded :=
  SortedSet.mem_insert

/-- These calls are noted, each as analyzed or as degraded, and as analyzed only where calls are
followed. -/
structure Counts (follows : Bool) (calls : OperationId → Prop) (m : Memory) : Prop where
  noted : ∀ id, m.analyzed.contains id = true ∨ id ∈ m.degraded ↔ calls id
  apart : ∀ id, m.analyzed.contains id = true → id ∉ m.degraded
  followed : ∀ id, m.analyzed.contains id = true → follows = true

theorem counts_initialMemory (c : Context) (cancelled : Bool) :
    (c.initialMemory cancelled).Counts follows fun _ => False where
  noted id := by simp [Context.initialMemory, SortedMap.contains_iff]
  apart id found := by simp [Context.initialMemory, SortedMap.contains_iff] at found
  followed id found := by simp [Context.initialMemory, SortedMap.contains_iff] at found

/-- A call that was noted as degraded is so no longer. -/
theorem Counts.noteAnalyzed (counts : m.Counts follows calls) (followed : follows = true)
    (call : OperationId) (result : Result) :
    (m.noteAnalyzed call result).Counts follows fun id => calls id ∨ id = call where
  noted id := by
    rw [analyzed_noteAnalyzed, mem_degraded_noteAnalyzed, ← counts.noted]
    by_cases here : id = call
    · simp [here]
    · simp [here, Ne.symm here]
  apart id found := by
    rw [analyzed_noteAnalyzed] at found
    rw [mem_degraded_noteAnalyzed]
    rintro ⟨other, degraded⟩
    rw [if_neg (Ne.symm other)] at found
    exact counts.apart id found degraded
  followed _ _ := followed

/-- A call that was noted as analyzed is so no longer. -/
theorem Counts.noteDegraded (counts : m.Counts follows calls) (call : OperationId) :
    (m.noteDegraded call).Counts follows fun id => calls id ∨ id = call where
  noted id := by
    rw [analyzed_noteDegraded, mem_degraded_noteDegraded, ← counts.noted]
    by_cases here : id = call
    · simp [here]
    · simp [here, Ne.symm here]
  apart id found := by
    rw [analyzed_noteDegraded] at found
    rw [mem_degraded_noteDegraded]
    split at found
    · contradiction
    · next other =>
      rintro (here | degraded)
      · exact other here.symm
      · exact counts.apart id found degraded
  followed id found := by
    rw [analyzed_noteDegraded] at found
    split at found
    · contradiction
    · exact counts.followed id found

end Memory

namespace Context

variable {c : Context} {descend : Option Runner} {calls : OperationId → Prop}

def Counted (c : Context) (calls : OperationId → Prop) (m : Memory) : Prop :=
  m.Counts c.env.config.interprocedural calls

theorem Counted.congr {others : OperationId → Prop} {m : Memory} (counted : c.Counted calls m)
    (same : ∀ call, calls call ↔ others call) : c.Counted others m := by
  rwa [← funext fun call => propext (same call)]

/-- It is a call, not of the completion method, of a method that is not known or that can take or
give an instance; and it is evaluated in a block that the entry reaches. -/
def IsCallSite (c : Context) (call : OperationId) : Prop :=
  (∃ op method target arguments, c.procedure.operation? call = some op ∧
    op.kind = .invocation method target arguments ∧ method ≠ c.env.target.completion ∧
    ∀ signature, c.env.symbols.method method = some signature →
      c.mayPassTarget signature = true) ∧
  ∃ block, Reaches c.procedure.graph.successors c.procedure.graph.entry block ∧
    c.procedure.Evaluates block call

/-! ### Visits -/

theorem analyzeCall_follows (method : MethodId) (signature : Signature)
    (arguments : List OperationId) (s : State) :
    Step.Ensures (c.analyzeCall descend method signature arguments s) fun outcome =>
      outcome.isSome = true → c.env.config.interprocedural = true := by
  cases follows : c.env.config.interprocedural with
  | true => exact fun _ _ _ _ _ => rfl
  | false =>
      unfold analyzeCall
      rw [if_pos (by simp [follows])]
      exact .pure nofun

theorem enterCall_counted (op : Operation) (method : MethodId) (arguments : List OperationId)
    (s : State) :
    Step.Leads (c.Counted calls) (c.enterCall descend op method arguments s) fun _ =>
      c.Counted fun id => calls id ∨ c.notes method = true ∧ id = op.id := by
  cases notes : c.notes method with
  | false =>
      rw [enterCall_of_not_notes notes]
      simpa using Step.Leads.keep (s, false)
  | true =>
      rw [enterCall_eq]
      simp only [true_and]
      -- Where a callee comes back analyzed, calls are followed, so this one is counted as analyzed.
      refine .bind (?_ : Step.Leads _ _ fun outcome m =>
        (outcome.isSome = true → c.env.config.interprocedural = true) ∧ c.Counted calls m)
        fun outcome => ?_
      · split
        · exact .of_leaves (analyzeCall_leaves (fun _ counts _ =>
            ⟨counts.noted, counts.apart, counts.followed⟩) method _ arguments s)
            (analyzeCall_follows method _ arguments s)
        · exact .pure fun _ counted => ⟨nofun, counted⟩
      unfold concludeCall
      split
      · refine .bind (.modify fun m before => before.2.noteAnalyzed (before.1 rfl) op.id _) ?_
        intro _
        split <;> exact .keep _
      · rw [if_pos notes]
        exact .bind (.modify fun m before => before.2.noteDegraded op.id) fun _ => .keep _

/-- Only a call that is noted adds to the calls that are counted. -/
theorem visitOperation_counted (reachable : Bool) (s : State) (op : Operation) :
    Step.Leads (c.Counted calls) (c.visitOperation descend reachable s op) fun _ =>
      c.Counted fun id => calls id ∨ c.notesCall op = true ∧ id = op.id := by
  -- Where nothing is noted, the calls are those of before.
  have unnoted {x : Step Memory State} (silent : c.notesCall op = false)
      (same : Step.Leads (c.Counted calls) x fun _ => c.Counted calls) :
      Step.Leads (c.Counted calls) x fun _ =>
        c.Counted fun id => calls id ∨ c.notesCall op = true ∧ id = op.id := by
    simpa [silent] using same
  have ends (last : Memory → Prop) (next : State) :
      Step.Leads last (pure (c.applyEscapes op next)) fun _ => last := .keep _
  unfold visitOperation
  cases kind : op.kind with
  | invocation method target arguments =>
      refine .bind ?_ (ends _)
      unfold visitInvocation
      split
      · next completion =>
        exact unnoted (by simp [notesCall, kind, completion]) (.keep _)
      · next other =>
        simp only [notesCall, kind, other, ne_eq, not_false_eq_true, decide_true, Bool.true_and]
        exact .bind (enterCall_counted op method arguments s) fun _ => .keep _
  | fieldReference field target =>
      refine unnoted (by simp [notesCall, kind]) (.bind ?_ (ends _))
      intro m next after counted ran
      rw [Step.run_modifyGet] at ran
      cases ran
      obtain ⟨fields, noted⟩ := c.memory_visitField reachable op field target s m
      rw [noted]
      exact ⟨counted.noted, counted.apart, counted.followed⟩
  | _ => exact unnoted (by simp [notesCall, kind]) (.bind (.keep _) (ends _))

/-- The visit of a block notes the calls that are evaluated in it. -/
theorem visitBlock_counted (block : Block) (s : State) :
    Step.Leads (c.Counted calls) (c.visitBlock descend block s) fun _ =>
      c.Counted fun id => calls id ∨ c.NotedIn block id := by
  have all (operations : List Operation) (calls : OperationId → Prop) (s : State) :
      Step.Leads (c.Counted calls)
        (operations.foldlM (c.visitOperation descend block.isReachable) s) fun _ =>
          c.Counted fun id => calls id ∨
            ∃ op ∈ operations, c.notesCall op = true ∧ id = op.id := by
    induction operations generalizing calls s with
    | nil => simpa using Step.Leads.keep s
    | cons op rest ih =>
        rw [List.foldlM_cons]
        refine .bind (visitOperation_counted block.isReachable s op) fun next => ?_
        simpa [or_assoc] using ih (fun id => calls id ∨ c.notesCall op = true ∧ id = op.id) next
  exact .bind (all (c.evaluated block) calls s) fun _ => .keep _

/-! ### Runs -/

def NotedAmong (c : Context) (visited : BlockId → Prop) (call : OperationId) : Prop :=
  ∃ id, visited id ∧ ∃ block, c.procedure.graph.block? id = some block ∧ c.NotedIn block call

theorem notedAmong_or {visited : BlockId → Prop} {id : BlockId} {block : Block}
    (found : c.procedure.graph.block? id = some block) (call : OperationId) :
    c.NotedAmong (fun other => visited other ∨ other = id) call ↔
      c.NotedAmong visited call ∨ c.NotedIn block call := by
  constructor
  · rintro ⟨other, before | rfl, target, stored, noted⟩
    · exact .inl ⟨other, before, target, stored, noted⟩
    · cases stored.symm.trans found
      exact .inr noted
  · rintro (⟨other, before, there⟩ | noted)
    · exact ⟨other, .inl before, there⟩
    · exact ⟨id, .inr rfl, block, found, noted⟩

theorem problem_gathers (c : Context) (descend : Option Runner) :
    (c.problem descend).Gathers fun visited => c.Counted (c.NotedAmong visited) where
  block _ block found _ v m output after counted ran :=
    (visitBlock_counted block v m output after counted ran).congr fun call =>
      (notedAmong_or found call).symm
  edge _ _ _ _ := .bind .get fun _ => .pure _

/-- Where operations are found by their identity, visits note the call sites. -/
theorem notedAmong_reached_iff (indexed : c.procedure.Indexed) (call : OperationId) :
    c.NotedAmong (Reaches c.procedure.graph.successors c.procedure.graph.entry) call ↔
      c.IsCallSite call := by
  constructor
  · rintro ⟨id, reached, block, stored, op, evaluated, notes, rfl⟩
    obtain ⟨root, listed, below⟩ := List.mem_flatMap.mp evaluated
    obtain ⟨place, operands, found⟩ := Procedure.mem_postorder_iff.mp below
    cases indexed.id_eq found
    refine ⟨?_, id, reached, by simp [found], block, stored, root, listed, operands⟩
    unfold notesCall Context.notes at notes
    split at notes
    · next method target arguments kind =>
      refine ⟨op, method, target, arguments, found, kind, by simp_all, fun signature known => ?_⟩
      exact (by simpa [known] using notes : _ ∧ c.mayPassTarget signature = true).2
    · contradiction
  · rintro ⟨⟨op, method, target, arguments, found, kind, other, passes⟩, id, reached, -, block,
      stored, root, listed, operands⟩
    refine ⟨id, reached, block, stored, op, ?_, ?_, (indexed.id_eq found).symm⟩
    · exact List.mem_flatMap.mpr
        ⟨root, listed, Procedure.mem_postorder_iff.mpr ⟨call, operands, found⟩⟩
    · cases known : c.env.symbols.method method with
      | none => simp [notesCall, Context.notes, kind, other, known]
      | some signature =>
          simp [notesCall, Context.notes, kind, other, known, passes signature known]

theorem solve_counted (indexed : c.procedure.Indexed) {limit : Nat} {cancelled : Bool}
    {solution : Solution State} {m : Memory}
    (ran : ((c.problem descend).solve limit).run (c.initialMemory cancelled) = (.ok solution, m)) :
    c.Counted c.IsCallSite m := by
  have start : c.Counted (c.NotedAmong fun _ => False) (c.initialMemory cancelled) :=
    Counted.congr (Memory.counts_initialMemory c cancelled) fun call =>
      ⟨False.elim, fun ⟨_, never, _⟩ => never⟩
  exact Counted.congr (Problem.solve_gathers (c.problem_gathers descend) start ran)
    (notedAmong_reached_iff indexed)

theorem stats_of_unfollowed (unfollowed : c.env.config.interprocedural = false) {m : Memory}
    (counted : c.Counted c.IsCallSite m) (solution : Solution State) :
    (c.stats m solution).interproceduralCalls = 0 ∧
      (c.stats m solution).degradedCalls = {call | c.IsCallSite call}.ncard := by
  have nothing (call : OperationId) : m.analyzed.contains call ≠ true := by
    intro found
    rw [counted.followed call found] at unfollowed
    contradiction
  have analyzed : m.analyzed = ∅ := by
    refine SortedMap.ext fun call => Option.eq_none_iff_forall_ne_some.mpr fun stats found => ?_
    exact nothing call (SortedMap.contains_iff.mpr ⟨stats, found⟩)
  have sites : {call | c.IsCallSite call} = {call | call ∈ m.degraded} := by
    ext call
    exact (counted.noted call).symm.trans (or_iff_right (nothing call))
  rw [sites, SortedSet.ncard_members]
  rw [stats, analyzed]
  exact ⟨rfl, rfl⟩

/-- The statistics of an analysis that ends well are those of the calls that its run has noted. No
call is noted as analyzed and as degraded, and the calls noted at all are the call sites. So where
calls are not followed none counts as analyzed, and each call site counts as degraded, once. -/
theorem statistics_count_call_sites (indexed : c.procedure.Indexed) {cancelled late : Bool}
    {result : Result} (ran : c.analyze cancelled = (.ok result, late)) :
    ∃ solution m,
      ((c.problem c.follow).solve c.env.config.maxIterations).run (c.initialMemory cancelled) =
        (.ok solution, m) ∧
      result.stats = c.stats m solution ∧
      (∀ call, ¬ (m.analyzed.contains call = true ∧ call ∈ m.degraded)) ∧
      (∀ call, m.analyzed.contains call = true ∨ call ∈ m.degraded ↔ c.IsCallSite call) ∧
      (c.env.config.interprocedural = false → result.stats.interproceduralCalls = 0 ∧
        result.stats.degradedCalls = {call | c.IsCallSite call}.ncard) := by
  rw [analyze_eq_follow] at ran
  obtain ⟨solution, m, solved, rfl⟩ := analyzeWith_ran ran
  have counted := solve_counted indexed solved
  refine ⟨solution, m, solved, rfl, fun call ⟨found, degraded⟩ => ?_, counted.noted, ?_⟩
  · exact counted.apart call found degraded
  · exact fun unfollowed => stats_of_unfollowed unfollowed counted solution

/-- Call 2 is an operand of a call that is not noted, in the loop, and the answer that the loop
waits for; call 5 is an operand only. Call 1 completes the instance, and call 4 is not reached. -/
def askedInLoop : Context :=
  let c := oneInstance
    [{ id := ⟨0⟩, kind := .objectCreation ⟨0⟩ [], ty := some ⟨0⟩ },
      { id := ⟨1⟩, kind := .invocation ⟨1⟩ (some ⟨0⟩) [] },
      { id := ⟨2⟩, kind := .invocation ⟨2⟩ none [] },
      { id := ⟨3⟩, kind := .invocation ⟨3⟩ none [⟨2⟩, ⟨5⟩] },
      { id := ⟨4⟩, kind := .invocation ⟨2⟩ none [] },
      { id := ⟨5⟩, kind := .invocation ⟨4⟩ none [] }]
    []
    [{ id := ⟨0⟩, kind := .entry, operations := [⟨0⟩], successors := [⟨⟨0⟩, ⟨2⟩, .always⟩] },
      { id := ⟨1⟩, kind := .exit },
      { id := ⟨2⟩, kind := .block, operations := [⟨3⟩], branchValue := some ⟨2⟩,
        successors := [⟨⟨2⟩, ⟨3⟩, .whenTrue⟩, ⟨⟨2⟩, ⟨1⟩, .whenFalse⟩] },
      { id := ⟨3⟩, kind := .block, operations := [⟨1⟩], successors := [⟨⟨3⟩, ⟨2⟩, .always⟩] },
      { id := ⟨4⟩, kind := .block, operations := [⟨4⟩], successors := [⟨⟨4⟩, ⟨1⟩, .always⟩] }]
  { c with env := { c.env with symbols := { c.env.symbols with
      method := fun method =>
        if method = ⟨3⟩ then some ⟨"Log", ⟨1⟩, true, false, some ⟨1⟩, [⟨1⟩]⟩
        else if method = ⟨4⟩ then some ⟨"Borrow", ⟨1⟩, true, false, none, [⟨0⟩]⟩
        else none } } }

theorem askedInLoop_statistics_count_call_sites :
    askedInLoop.procedure.Indexed ∧ ∃ result, askedInLoop.analyze false = (.ok result, false) ∧
      result.stats.iterations = 3 ∧ result.stats.interproceduralCalls = 0 ∧
      {call | askedInLoop.IsCallSite call}.ncard = 2 := by
  have indexed : askedInLoop.procedure.Indexed := by decide
  obtain ⟨result, ran⟩ : ∃ result, askedInLoop.analyze false = (.ok result, false) := ⟨_, rfl⟩
  have shape : result.stats.iterations = 3 ∧ result.stats.degradedCalls = 2 := by
    cases ran
    exact ⟨rfl, rfl⟩
  obtain ⟨solution, m, -, -, -, -, counts⟩ := statistics_count_call_sites indexed ran
  obtain ⟨followed, degraded⟩ := counts rfl
  exact ⟨indexed, result, ran, shape.1, followed, degraded.symm.trans shape.2⟩

end Context

end PathCompletion
