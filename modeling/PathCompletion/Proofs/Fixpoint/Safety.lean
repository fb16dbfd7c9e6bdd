import PathCompletion.Proofs.Fixpoint.Pass

/-!
What every run keeps, whatever its visits remember and however they fail. A sort of states
that holds at first and is kept by merging, by visits of blocks and by visits of edges holds
of every snapshot of a run that ends well. What holds of visits, and passes from the parts of a
step to the whole, holds of a run.
-/

namespace PathCompletion.Problem

variable {σ V : Type} [DecidableEq V] {problem : Problem σ V} {good : V → Prop}
  {grown : V → V → Prop}

/-- Good states lead to good states, and the output of a block has grown from its input. -/
structure Safe (problem : Problem σ V) (good : V → Prop) (grown : V → V → Prop) : Prop where
  initial : good problem.transfer.initial
  merge : ∀ a b, good a → good b → good (problem.domain.merge a b)
  block : ∀ block v, good v →
    Step.Ensures (problem.transfer.visitBlock block v) fun w => good w ∧ grown v w
  edge : ∀ block edge v, good v → Step.Ensures (problem.transfer.visitEdge block edge v) good

def Snapshots (good : V → Prop) (grown : V → V → Prop)
    (snapshots : SortedMap BlockId (Snapshot V)) : Prop :=
  ∀ id snapshot, snapshots.get? id = some snapshot →
    good snapshot.input ∧ good snapshot.output ∧ grown snapshot.input snapshot.output

structure Found (good : V → Prop) (grown : V → V → Prop) (p : Progress V) : Prop where
  edges : ∀ slot v, p.edges.get? slot = some v → good v
  snapshots : Snapshots good grown p.snapshots

omit [DecidableEq V] in
theorem input_good (safe : problem.Safe good grown) {edges : SortedMap Slot V}
    (found : ∀ slot v, edges.get? slot = some v → good v) {plan : Plan} {id : BlockId} {input : V}
    (arrived : problem.input? plan edges id = some input) : good input := by
  apply (joined_of_input? arrived).induct safe.merge
  intro v member
  rcases List.mem_append.mp member with start | onEdge
  · split at start
    · rw [List.mem_singleton.mp start]
      exact safe.initial
    · contradiction
  · obtain ⟨slot, -, here⟩ := List.mem_filterMap.mp onEdge
    exact found slot v here

theorem leave_ensures (safe : problem.Safe good grown) (block : Block) {output : V}
    (now : good output) {p : Progress V} (found : Found good grown p) :
    Step.Ensures (problem.leave block output p) (Found good grown) := by
  refine Step.Ensures.foldlM _ (fun q before pair _ => ?_) found
  refine (safe.edge block pair.1 output now).bind fun state sent => .pure ⟨?_, ?_⟩
  · intro slot v onEdge
    rw [Progress.get?_record] at onEdge
    split at onEdge
    · cases onEdge
      exact sent
    · exact before.edges slot v onEdge
  · rw [Progress.snapshots_record]
    exact before.snapshots

theorem visit_ensures (safe : problem.Safe good grown) (plan : Plan) (id : BlockId)
    {p : Progress V} (found : Found good grown p) :
    Step.Ensures (problem.visit plan p id) (Found good grown) := by
  unfold visit
  refine .after fun m => ?_
  by_cases cancelled : problem.transfer.isCancelled m = true
  · simp only [cancelled, ↓reduceIte]
    exact .after_throw
  simp only [cancelled, Bool.false_eq_true, ↓reduceIte]
  split
  · next block input _ arrived =>
    have now := input_good safe found.edges arrived
    refine (safe.block block input now).bind fun output after => ?_
    refine (leave_ensures safe block after.1 found).bind fun left kept => .pure ⟨kept.edges, ?_⟩
    intro other snapshot recorded
    rw [SortedMap.get?_insert] at recorded
    split at recorded
    · cases recorded
      exact ⟨now, after⟩
    · exact kept.snapshots other snapshot recorded
  · exact .pure found

theorem pass_ensures (safe : problem.Safe good grown) (plan : Plan) {p : Progress V}
    (found : Found good grown p) : Step.Ensures (problem.pass plan p) (Found good grown) :=
  Step.Ensures.foldlM _ (fun _ before id _ => visit_ensures safe plan id before)
    ⟨found.edges, found.snapshots⟩

theorem iterate_ensures (safe : problem.Safe good grown) (plan : Plan) (limit budget count : Nat)
    {p : Progress V} (found : Found good grown p) :
    Step.Ensures (problem.iterate plan limit budget count p) fun solution =>
      Snapshots good grown solution.snapshots := by
  induction budget generalizing count p with
  | zero => exact .throw
  | succ budget ih =>
      refine (pass_ensures safe plan found).bind fun next kept => ?_
      split
      · exact ih (count + 1) kept
      · exact .pure kept.snapshots

theorem solve_ensures (safe : problem.Safe good grown) (limit : Nat) :
    Step.Ensures (problem.solve limit) fun solution =>
      Snapshots good grown solution.snapshots := by
  unfold solve
  split
  · exact .throw
  · exact iterate_ensures safe _ _ _ _ ⟨nofun, nofun⟩

/-! ### Runs put together from visits -/

section

variable {holds : ∀ α : Type, Step σ α → Prop} (composes : Step.Composes holds)
  (refuses : ∀ (α : Type) (e : AnalysisError), e.isSoft = false → holds α (throw e))
  (block : ∀ block v, holds V (problem.transfer.visitBlock block v))
  (edge : ∀ block edge v, holds V (problem.transfer.visitEdge block edge v))

include composes refuses block edge

theorem visit_composed (plan : Plan) (p : Progress V) (id : BlockId) :
    holds (Progress V) (problem.visit plan p id) := by
  have left (source : Block) (output : V) : holds (Progress V) (problem.leave source output p) :=
    composes.foldlM _ (fun _ _ _ => composes.bind (edge _ _ _) fun _ => composes.pure _) p
  have cancelled : holds PUnit (throw .cancelled) := refuses PUnit .cancelled rfl
  refine composes.bind composes.get fun m => ?_
  split
  · next source input _ _ =>
    have visited : holds (Progress V) do
        let output ← problem.transfer.visitBlock source input
        let left ← problem.leave source output p
        return { left with snapshots := left.snapshots.insert id ⟨input, output⟩ } :=
      composes.bind (block source input) fun output =>
        composes.bind (left source output) fun _ => composes.pure _
    dsimp only
    split
    · exact composes.bind cancelled fun _ => visited
    · exact visited
  · dsimp only
    split
    · exact composes.bind cancelled fun _ => composes.pure p
    · exact composes.pure p

theorem iterate_composed (plan : Plan) {limit : Nat}
    (exhausted : holds (Solution V) (throw (.notConverged problem.name limit)))
    (budget count : Nat) (p : Progress V) :
    holds (Solution V) (problem.iterate plan limit budget count p) := by
  induction budget generalizing count p with
  | zero => exact exhausted
  | succ budget ih =>
      have passes (q : Progress V) : holds (Progress V) (problem.pass plan q) :=
        composes.foldlM _ (fun r id _ => visit_composed composes refuses block edge plan r id) _
      refine composes.bind (passes p) fun next => ?_
      split
      · exact ih _ next
      · exact composes.pure _

theorem solve_composed {limit : Nat}
    (exhausted : holds (Solution V) (throw (.notConverged problem.name limit))) :
    holds (Solution V) (problem.solve limit) := by
  unfold solve
  split
  · exact refuses _ _ rfl
  · exact iterate_composed composes refuses block edge _ exhausted limit 0 {}

end

end PathCompletion.Problem
