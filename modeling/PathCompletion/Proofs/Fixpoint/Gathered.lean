import PathCompletion.Proofs.Fixpoint.Visited

/-!
What a run gathers. A memory may tell which blocks were visited: by what the visit of a block
adds to it, and the edges take nothing away. Then the memory that a run leaves tells of exactly
the blocks that the entry reaches, however many passes were made.
-/

namespace PathCompletion.Problem

variable {σ V : Type} [DecidableEq V] {problem : Problem σ V} {p q : Progress V} {m after : σ}
  {tells : (BlockId → Prop) → σ → Prop}

/-- A visit that ends well adds its block to the blocks that the memory tells of. -/
structure Gathers (problem : Problem σ V) (tells : (BlockId → Prop) → σ → Prop) : Prop where
  block : ∀ id block, problem.graph.block? id = some block → ∀ visited v,
    Step.Leads (tells visited) (problem.transfer.visitBlock block v) fun _ =>
      tells fun other => visited other ∨ other = id
  edge : ∀ visited block edge v,
    Step.Leaves (tells visited) (problem.transfer.visitEdge block edge v)

def TellsOf (tells : (BlockId → Prop) → σ → Prop) (snapshots : SortedMap BlockId (Snapshot V))
    (m : σ) : Prop :=
  tells (fun id => snapshots.contains id = true) m

omit [DecidableEq V] in
theorem tellsOf_iff {snapshots : SortedMap BlockId (Snapshot V)} {visited : BlockId → Prop}
    (same : ∀ id, snapshots.contains id = true ↔ visited id) :
    TellsOf tells snapshots m ↔ tells visited m := by
  rw [TellsOf, funext fun id => propext (same id)]

theorem leave_gathers (gathers : problem.Gathers tells) (visited : BlockId → Prop) (block : Block)
    (output : V) (p : Progress V) :
    Step.Leaves (tells visited) (problem.leave block output p) :=
  .foldlM _ (fun _ (edge, _) _ => .bind (gathers.edge visited block edge output) fun _ => .pure _) p

theorem visit_gathers (gathers : problem.Gathers tells) (plan : Plan) (id : BlockId) :
    Step.Leads (TellsOf tells p.snapshots) (problem.visit plan p id) fun q =>
      TellsOf tells q.snapshots := by
  intro m q after told ran
  rcases visit_cases ran with
    ⟨-, rfl, rfl⟩ | ⟨block, input, output, left, between, found, -, visited, sent, rfl⟩
  · exact told
  · have added := gathers.block id block found _ input m output between told visited
    have kept := leave_gathers gathers _ block output p between added
    rw [sent] at kept
    obtain ⟨snapshots, -, -⟩ := leave_fills block output p between left after sent
    refine (tellsOf_iff fun other => ?_).mpr kept
    rw [SortedMap.contains_insert_iff, snapshots]

theorem iterate_gathers (gathers : problem.Gathers tells) (plan : Plan) (limit budget count : Nat) :
    Step.Leads (TellsOf tells p.snapshots) (problem.iterate plan limit budget count p)
      fun solution => TellsOf tells solution.snapshots := by
  have passed (p : Progress V) : Step.Leads (TellsOf tells p.snapshots) (problem.pass plan p)
      fun q => TellsOf tells q.snapshots :=
    @Step.Leads.foldlM _ _ _ (fun q => TellsOf tells q.snapshots) _ plan.order
      (fun _ id _ => visit_gathers gathers plan id) { p with changed := false }
  induction budget generalizing count p with
  | zero => exact fun _ _ _ _ ran => nomatch ran
  | succ budget ih =>
      refine .bind (passed p) fun next => ?_
      split
      · exact ih (count + 1)
      · exact .pure fun _ told => told

/-- A run that ends well leaves a memory that tells of the blocks reached. -/
theorem solve_gathers (gathers : problem.Gathers tells) {limit : Nat} {solution : Solution V}
    (start : tells (fun _ => False) m)
    (ran : (problem.solve limit).run m = (.ok solution, after)) :
    tells (Reaches problem.graph.successors problem.graph.entry) after := by
  have valid := valid_of_solve ran
  have reached (id : BlockId) : solution.snapshots.contains id = true ↔
      Reaches problem.graph.successors problem.graph.entry id :=
    (solve_visits ran id).trans (Graph.mem_reversePostorder_iff valid id)
  unfold solve at ran
  rw [show problem.graph.fault? = none from valid] at ran
  have told : TellsOf tells ({} : Progress V).snapshots m :=
    (tellsOf_iff fun id => by simp [SortedMap.contains_iff]).mpr start
  exact (tellsOf_iff reached).mp
    (iterate_gathers gathers problem.graph.plan limit limit 0 m solution after told ran)

end PathCompletion.Problem
