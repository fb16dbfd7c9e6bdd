import PathCompletion.Analysis.Run
import PathCompletion.Proofs.Fixpoint.Equations

/-!
Which blocks a run visits. In reverse postorder every block but the entry follows one that was
visited before it, and a visit puts a state on every edge out of its block. So the first pass
of a run visits exactly the blocks that the entry reaches, whatever the visits do and remember,
and later passes visit no others.
-/

namespace PathCompletion.Problem

variable {σ V : Type} [DecidableEq V] {problem : Problem σ V} {p q : Progress V} {m after : σ}

def Filled (problem : Problem σ V) (p : Progress V) : Prop :=
  ∀ id block, p.snapshots.contains id = true → problem.graph.block? id = some block →
    ∀ i edge, block.successors[i]? = some edge → p.edges.contains ⟨id, i⟩ = true

def Visited (problem : Problem σ V) (blocks : List BlockId) (p : Progress V) : Prop :=
  problem.Filled p ∧ ∀ id, p.snapshots.contains id = true ↔ id ∈ blocks

/-! ### One visit -/

theorem contains_record (d : Domain V) (p : Progress V) (slot other : Slot) (v : V) :
    (p.record d slot v).edges.contains other = true ↔
      slot = other ∨ p.edges.contains other = true := by
  simp only [SortedMap.contains_iff, Progress.get?_record]
  by_cases here : slot = other
  · simp [here]
  · simp [here]

/-- Leaving a block puts a state on each of its edges and takes none away. -/
theorem leave_fills (block : Block) (output : V) (p : Progress V) :
    Step.Ensures (problem.leave block output p) fun left =>
      left.snapshots = p.snapshots ∧
      (∀ slot, p.edges.contains slot = true → left.edges.contains slot = true) ∧
      ∀ i edge, block.successors[i]? = some edge → left.edges.contains ⟨block.id, i⟩ = true := by
  let sent (done : List (Edge × Nat)) (left : Progress V) : Prop :=
    left.snapshots = p.snapshots ∧
      (∀ slot, p.edges.contains slot = true → left.edges.contains slot = true) ∧
      ∀ pair ∈ done, left.edges.contains ⟨block.id, pair.2⟩ = true
  refine (Step.Ensures.foldlM_done sent _ ?_ ⟨rfl, fun _ found => found, nofun⟩).mono ?_
  · rintro done pair - - q ⟨snapshots, kept, filled⟩
    refine .after fun state => .pure ⟨Progress.snapshots_record.trans snapshots, ?_, ?_⟩
    · exact fun slot found => (contains_record ..).mpr (.inr (kept slot found))
    · intro other member
      rcases List.mem_append.mp member with before | last
      · exact (contains_record ..).mpr (.inr (filled other before))
      · rw [List.mem_singleton.mp last]
        exact (contains_record ..).mpr (.inl rfl)
  · rintro left ⟨snapshots, kept, filled⟩
    refine ⟨snapshots, kept, fun i edge listed => ?_⟩
    exact filled (edge, i) (List.mem_zipIdx_iff_getElem?.mpr listed)

/-- A visit notes its block if a state has reached it, forgets no other, and leaves states on all
edges out of the blocks that were visited. -/
theorem visit_visits (valid : problem.graph.Valid) {plan : Plan} {id : BlockId}
    (filled : problem.Filled p) (ran : (problem.visit plan p id).run m = (.ok q, after)) :
    problem.Filled q ∧ ∀ other, q.snapshots.contains other = true ↔
      p.snapshots.contains other = true ∨ other = id ∧ (problem.graph.block? id).isSome = true ∧
        (problem.input? plan p.edges id).isSome = true := by
  rcases visit_cases ran with
    ⟨nothing, rfl, -⟩ | ⟨block, input, output, left, between, found, arrived, -, sent, rfl⟩
  · refine ⟨filled, fun other => ⟨.inl, ?_⟩⟩
    rintro (before | ⟨-, stored, arrived⟩)
    · exact before
    · rcases nothing with absent | silent
      · simp [absent] at stored
      · simp [silent] at arrived
  · obtain ⟨snapshots, kept, sentAll⟩ := leave_fills block output p between left after sent
    have noted (other : BlockId) :
        (left.snapshots.insert id ⟨input, output⟩).contains other = true ↔
          p.snapshots.contains other = true ∨ other = id := by
      rw [SortedMap.contains_insert_iff, snapshots]
    refine ⟨?_, fun other => by simp [noted, found, arrived]⟩
    intro other target visited stored i edge listed
    by_cases here : other = id
    · subst here
      cases stored.symm.trans found
      have onEdge := sentAll i edge listed
      rwa [valid.block_id found] at onEdge
    · have before := ((noted other).mp visited).resolve_right here
      exact kept _ (filled other target before stored i edge listed)

/-! ### The first pass -/

omit [DecidableEq V] in
/-- A state has reached a block if it is the entry or follows a block that was visited. -/
theorem Filled.input (filled : problem.Filled p) (valid : problem.graph.Valid) (plan : Plan)
    {id : BlockId} (led : id = problem.graph.entry ∨
      ∃ y, p.snapshots.contains y = true ∧ id ∈ problem.graph.successors y) :
    (problem.input? plan p.edges id).isSome = true := by
  obtain ⟨v, arrives⟩ : ∃ v, v ∈ problem.arrivals p.edges id := by
    rcases led with rfl | ⟨y, visited, successor⟩
    · exact ⟨problem.transfer.initial, List.mem_append_left _ (by simp)⟩
    · obtain ⟨block, stored, edge, listed, rfl⟩ := Graph.mem_successors_iff.mp successor
      obtain ⟨i, place⟩ := List.mem_iff_getElem?.mp listed
      obtain ⟨v, onEdge⟩ :=
        SortedMap.contains_iff.mp (filled y block visited stored i edge place)
      exact ⟨v, mem_arrivals_of_edge valid stored place onEdge⟩
  obtain ⟨input, arrived⟩ := input_of_arrival plan arrives
  simp [arrived]

/-- The first pass visits the blocks of the order one after the other, and skips none. -/
theorem first_pass_visits (valid : problem.graph.Valid) :
    Step.Ensures (problem.pass problem.graph.plan {})
      (problem.Visited problem.graph.plan.order) := by
  refine Step.Ensures.foldlM_done problem.Visited _ ?_ ⟨fun id block found => ?_, fun id => ?_⟩
  · intro done id rest order p visited m next after ran
    have listed : id ∈ problem.graph.plan.order := by simp [order]
    have reached := (Graph.mem_reversePostorder_iff valid id).mp listed
    obtain ⟨block, stored⟩ := valid.reached_block reached
    -- What leads to the block comes before it in the order, and so was visited.
    have input := visited.1.input valid problem.graph.plan
      ((Graph.reversePostorder_led problem.graph done id rest order).imp_right
        fun ⟨y, earlier, successor⟩ => ⟨y, (visited.2 y).mpr earlier, successor⟩)
    obtain ⟨filled, noted⟩ := visit_visits valid visited.1 ran
    refine ⟨filled, fun other => ?_⟩
    rw [noted, visited.2]
    simp [stored, input]
  · obtain ⟨snapshot, here⟩ := SortedMap.contains_iff.mp found
    simp at here
  · simp [SortedMap.contains_iff]

/-! ### Whole runs -/

/-- Once all listed blocks are visited, passes visit no others. -/
theorem pass_visits (valid : problem.graph.Valid)
    (visited : problem.Visited problem.graph.plan.order p) :
    Step.Ensures (problem.pass problem.graph.plan p)
      (problem.Visited problem.graph.plan.order) := by
  refine Step.Ensures.foldlM _ ?_ visited
  intro p visited id listed m q after ran
  obtain ⟨filled, noted⟩ := visit_visits valid visited.1 ran
  refine ⟨filled, fun other => ?_⟩
  rw [noted, visited.2]
  constructor
  · rintro (before | ⟨rfl, -⟩)
    · exact before
    · exact listed
  · exact .inl

theorem iterate_visits (valid : problem.graph.Valid) (limit budget count : Nat)
    (next : Step.Ensures (problem.pass problem.graph.plan p)
      (problem.Visited problem.graph.plan.order)) :
    Step.Ensures (problem.iterate problem.graph.plan limit budget count p) fun solution =>
      ∀ id, solution.snapshots.contains id = true ↔ id ∈ problem.graph.plan.order := by
  induction budget generalizing count p with
  | zero => exact .throw
  | succ budget ih =>
      refine next.bind fun q visited => ?_
      split
      · exact ih (count + 1) (pass_visits valid visited)
      · exact .pure visited.2

/-- A run that ends well has made a first pass that ended well. -/
theorem first_pass_of_solve {limit : Nat} {solution : Solution V}
    (ran : (problem.solve limit).run m = (.ok solution, after)) :
    ∃ first between, (problem.pass problem.graph.plan {}).run m = (.ok first, between) := by
  unfold solve at ran
  split at ran
  · cases ran
  · cases limit with
    | zero => cases ran
    | succ budget =>
        rw [iterate] at ran
        obtain ⟨first, between, ranPass, -⟩ := Step.run_bind_ok ran
        exact ⟨first, between, ranPass⟩

theorem solve_visits {limit : Nat} {solution : Solution V}
    (ran : (problem.solve limit).run m = (.ok solution, after)) (id : BlockId) :
    solution.snapshots.contains id = true ↔ id ∈ problem.graph.plan.order := by
  have valid := valid_of_solve ran
  unfold solve at ran
  rw [show problem.graph.fault? = none from valid] at ran
  exact iterate_visits valid limit limit 0 (first_pass_visits valid) m solution after ran id

omit [DecidableEq V] in
/-- A snapshot always has both sides. -/
theorem snapshot_iff_reached (valid : problem.graph.Valid)
    {snapshots : SortedMap BlockId (Snapshot V)}
    (visited : ∀ id, snapshots.contains id = true ↔ id ∈ problem.graph.plan.order)
    (id : BlockId) : (∃ input output, snapshots.get? id = some ⟨input, output⟩) ↔
      Reaches problem.graph.successors problem.graph.entry id := by
  rw [← Graph.mem_reversePostorder_iff valid]
  refine Iff.trans ?_ (SortedMap.contains_iff.symm.trans (visited id))
  exact ⟨fun ⟨_, _, found⟩ => ⟨_, found⟩, fun ⟨⟨_, _⟩, found⟩ => ⟨_, _, found⟩⟩

theorem exitOutput?_eq_none_iff {limit : Nat} {solution : Solution V}
    (ran : (problem.solve limit).run m = (.ok solution, after)) :
    solution.exitOutput? = none ↔
      ¬ Reaches problem.graph.successors problem.graph.entry problem.graph.exit := by
  have exit : solution.exit = problem.graph.exit := problem.solve_exit limit m solution after ran
  rw [← snapshot_iff_reached (valid_of_solve ran) (solve_visits ran), Solution.exitOutput?, exit,
    Option.map_eq_none_iff, Option.eq_none_iff_forall_ne_some]
  constructor
  · rintro absent ⟨input, output, found⟩
    exact absent _ found
  · intro absent snapshot found
    exact absent ⟨snapshot.input, snapshot.output, found⟩

/-- What an analysis finds at the exit is what its run puts out there. -/
theorem exitState?_eq_none_iff {descend : Option Runner} {c : Context} {cancelled late : Bool}
    {result : Result} (ran : Context.analyzeWith descend c cancelled = (.ok result, late)) :
    result.exitState? = none ↔ ¬ Reaches c.procedure.graph.successors c.procedure.graph.entry
      c.procedure.graph.exit := by
  unfold Context.analyzeWith at ran
  split at ran
  · cases ran
  · split at ran
    · cases ran
    · next solution m solved =>
      cases ran
      exact exitOutput?_eq_none_iff solved

/-- A block that is visited has a snapshot of its input and its output, and any other block has
none. The blocks visited, in the first pass as in the whole run, are those that the entry
reaches. So a run has an output at the exit, and an analysis a state there, exactly if the exit
is reached. -/
theorem visited_iff_reached {limit : Nat} {solution : Solution V}
    (ran : (problem.solve limit).run m = (.ok solution, after)) :
    (∃ first between, (problem.pass problem.graph.plan {}).run m = (.ok first, between) ∧
      ∀ id, (∃ input output, first.snapshots.get? id = some ⟨input, output⟩) ↔
        Reaches problem.graph.successors problem.graph.entry id) ∧
    (∀ id, (∃ input output, solution.snapshots.get? id = some ⟨input, output⟩) ↔
      Reaches problem.graph.successors problem.graph.entry id) ∧
    (solution.exitOutput? = none ↔
      ¬ Reaches problem.graph.successors problem.graph.entry problem.graph.exit) ∧
    ∀ descend (c : Context) cancelled late result,
      Context.analyzeWith descend c cancelled = (.ok result, late) →
        (result.exitState? = none ↔ ¬ Reaches c.procedure.graph.successors
          c.procedure.graph.entry c.procedure.graph.exit) := by
  have valid := valid_of_solve ran
  obtain ⟨first, between, ranPass⟩ := first_pass_of_solve ran
  have early := first_pass_visits valid m first between ranPass
  refine ⟨⟨first, between, ranPass, snapshot_iff_reached valid early.2⟩,
    snapshot_iff_reached valid (solve_visits ran), exitOutput?_eq_none_iff ran, ?_⟩
  intro descend c cancelled late result analyzed
  exact exitState?_eq_none_iff analyzed

/-- The entry is led back to, one block leads to itself, and the only edge into the exit comes
from a block that nothing leads to. What a visit makes of its input is how many blocks were
visited before, up to five. -/
def roundabout : Problem Nat Nat where
  name := "roundabout"
  graph :=
    { blocks :=
        [{ id := ⟨0⟩, kind := .entry, successors := [⟨⟨0⟩, ⟨2⟩, .always⟩] },
          { id := ⟨1⟩, kind := .exit },
          { id := ⟨2⟩, kind := .block,
            successors := [⟨⟨2⟩, ⟨2⟩, .always⟩, ⟨⟨2⟩, ⟨0⟩, .always⟩] },
          { id := ⟨3⟩, kind := .block, successors := [⟨⟨3⟩, ⟨1⟩, .always⟩] }]
      regions := []
      entry := ⟨0⟩
      exit := ⟨1⟩ }
  domain := { bottom := 0, unknown := 0, compare := compare, merge := max }
  transfer :=
    { initial := 0
      visitBlock := fun _ _ => modifyGet fun visits => (min visits 5, visits + 1)
      visitEdge := fun _ _ v => pure v
      isCancelled := fun _ => false }

theorem roundabout_visited_iff_reached :
    ∃ solution after, (roundabout.solve 10).run 0 = (.ok solution, after) ∧
      solution.iterations = 5 ∧ solution.exitOutput? = none ∧
      ¬ Reaches roundabout.graph.successors ⟨0⟩ ⟨1⟩ ∧
      Reaches roundabout.graph.successors ⟨0⟩ ⟨2⟩ := by
  have shape : (((roundabout.solve 10).run 0).1.toOption.map fun solution =>
      (solution.iterations, solution.exitOutput?, solution.snapshots.get? ⟨2⟩)) =
        some (5, none, some ⟨5, 5⟩) := by decide +kernel
  rcases ran : (roundabout.solve 10).run 0 with ⟨error | solution, after⟩
  · simp [ran, Except.toOption] at shape
  · simp only [ran, Except.toOption, Option.map_some, Option.some.injEq, Prod.mk.injEq] at shape
    obtain ⟨iterations, absent, found⟩ := shape
    obtain ⟨-, visited, exit, -⟩ := visited_iff_reached ran
    exact ⟨solution, after, rfl, iterations, absent, exit.mp absent,
      (visited ⟨2⟩).mp ⟨5, 5, found⟩⟩

end PathCompletion.Problem
