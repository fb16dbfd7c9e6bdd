import Mathlib.Data.List.Basic
import PathCompletion.Proofs.Fixpoint.Run

/-!
What a run that ends well has found solves the equations of its problem. The snapshots of the
blocks are taken at different moments of the last pass, but since that pass changes no edge
they all belong to one assignment of states to edges: a block's output is what the transfer
makes of its input, and its input is joined from what its predecessors' outputs send to it.
-/

namespace PathCompletion.Problem

variable {σ V : Type} {problem : Problem σ V} {motion : Motion V}

/-- What the last pass of a run leaves: settled states on the edges, and snapshots of the
listed blocks that belong to them. -/
structure Fixed (problem : Problem σ V) (motion : Motion V) (edges : SortedMap Slot V)
    (snapshots : SortedMap BlockId (Snapshot V)) : Prop where
  settled : problem.Settled motion edges
  recorded : ∀ id ∈ problem.graph.plan.order, ∀ block input,
    problem.graph.block? id = some block →
      problem.input? problem.graph.plan edges id = some input →
        snapshots.get? id = some ⟨input, motion.through block input⟩
  listed : ∀ id snapshot, snapshots.get? id = some snapshot → id ∈ problem.graph.plan.order
  hold : ∀ holds, problem.Invariant motion holds → problem.EdgesHold holds edges

theorem solve_fixed [DecidableEq V] {kind : σ → Prop}
    (computes : problem.transfer.Computes kind motion) {limit : Nat} {m after : σ}
    {solution : Solution V} (now : kind m)
    (ran : (problem.solve limit).run m = (.ok solution, after)) :
    problem.graph.Valid ∧ ∃ edges, problem.Fixed motion edges solution.snapshots := by
  obtain ⟨valid, n, still, snapshots⟩ := solve_ok computes now ran
  refine ⟨valid, (problem.after motion n).edges, ?_⟩
  rw [snapshots]
  have listed : ∀ id snapshot,
      (problem.after motion (n + 1)).snapshots.get? id = some snapshot →
        id ∈ problem.graph.plan.order := fun _ _ found => after_snapshots (n + 1) found
  rw [after_succ] at still listed ⊢
  obtain ⟨same, settled, recorded⟩ := round_of_unchanged still
  refine ⟨settled, ?_, listed, ?_⟩
  · unfold Recorded at recorded
    rwa [same] at recorded
  · exact fun holds invariant => after_edgesHold valid invariant n

/-! ### Blocks that are reached -/

theorem mem_arrivals_of_edge (valid : problem.graph.Valid) {edges : SortedMap Slot V}
    {id : BlockId} {block : Block} {i : Nat} {edge : Edge} {v : V}
    (found : problem.graph.block? id = some block) (listed : block.successors[i]? = some edge)
    (onEdge : edges.get? ⟨id, i⟩ = some v) : v ∈ problem.arrivals edges edge.destination := by
  apply List.mem_append_right
  refine List.mem_filterMap.mpr ⟨⟨id, i⟩, ?_, onEdge⟩
  exact (Graph.mem_incomingSlots_iff valid).mpr ⟨block, edge, found, listed, rfl⟩

theorem input_of_arrival (plan : Plan) {edges : SortedMap Slot V} {id : BlockId} {v : V}
    (arrives : v ∈ problem.arrivals edges id) :
    ∃ input, problem.input? plan edges id = some input := by
  cases found : problem.input? plan edges id with
  | some input => exact ⟨input, rfl⟩
  | none =>
      rw [input?_eq_none_iff.mp found] at arrives
      contradiction

namespace Fixed

variable {edges : SortedMap Slot V} {snapshots : SortedMap BlockId (Snapshot V)}

theorem onEdge (fixed : problem.Fixed motion edges snapshots) (valid : problem.graph.Valid)
    {id : BlockId} (reached : Reaches problem.graph.successors problem.graph.entry id)
    {block : Block} {input : V} (found : problem.graph.block? id = some block)
    (arrived : problem.input? problem.graph.plan edges id = some input) {i : Nat} {edge : Edge}
    (listed : block.successors[i]? = some edge) :
    edges.get? ⟨id, i⟩ = some (motion.along block edge (motion.through block input)) := by
  have ordered := (Graph.mem_reversePostorder_iff valid id).mpr reached
  have sent := fixed.settled id ordered block input found arrived i edge listed
  rwa [valid.block_id found] at sent

theorem input_of_reached (fixed : problem.Fixed motion edges snapshots)
    (valid : problem.graph.Valid) {id : BlockId}
    (reached : Reaches problem.graph.successors problem.graph.entry id) :
    ∃ input, problem.input? problem.graph.plan edges id = some input := by
  have both : Reaches problem.graph.successors problem.graph.entry id ∧
      ∃ input, problem.input? problem.graph.plan edges id = some input := by
    apply reached.induct
    · rintro x ⟨reachedFirst, input, arrived⟩ y successor
      obtain ⟨block, found, edge, listed, rfl⟩ := Graph.mem_successors_iff.mp successor
      obtain ⟨i, place⟩ := List.mem_iff_getElem?.mp listed
      have sent := fixed.onEdge valid reachedFirst found arrived place
      have arrives := mem_arrivals_of_edge valid found place sent
      exact ⟨reachedFirst.snoc successor, input_of_arrival _ arrives⟩
    · refine ⟨.refl _, input_of_arrival _ (v := problem.transfer.initial) ?_⟩
      exact List.mem_append_left _ (by simp)
  exact both.2

theorem snapshot_of_reached (fixed : problem.Fixed motion edges snapshots)
    (valid : problem.graph.Valid) {id : BlockId} {block : Block}
    (reached : Reaches problem.graph.successors problem.graph.entry id)
    (found : problem.graph.block? id = some block) :
    ∃ input, problem.input? problem.graph.plan edges id = some input ∧
      snapshots.get? id = some ⟨input, motion.through block input⟩ := by
  obtain ⟨input, arrived⟩ := fixed.input_of_reached valid reached
  have ordered := (Graph.mem_reversePostorder_iff valid id).mpr reached
  exact ⟨input, arrived, fixed.recorded id ordered block input found arrived⟩

theorem reached_of_snapshot (fixed : problem.Fixed motion edges snapshots)
    (valid : problem.graph.Valid) {id : BlockId} {snapshot : Snapshot V}
    (found : snapshots.get? id = some snapshot) :
    Reaches problem.graph.successors problem.graph.entry id :=
  (Graph.mem_reversePostorder_iff valid id).mp (fixed.listed id snapshot found)

/-- What the states on the edges keep holds of all inputs that are recorded, and each output
that is recorded comes of the input. -/
theorem recorded_of_invariant (fixed : problem.Fixed motion edges snapshots)
    (valid : problem.graph.Valid) {holds : BlockId → V → Prop}
    (invariant : problem.Invariant motion holds) {id : BlockId} {snapshot : Snapshot V}
    (found : snapshots.get? id = some snapshot) :
    holds id snapshot.input ∧ ∃ block, problem.graph.block? id = some block ∧
      snapshot.output = motion.through block snapshot.input := by
  have reached := fixed.reached_of_snapshot valid found
  obtain ⟨block, stored⟩ := valid.reached_block reached
  obtain ⟨input, arrived, recorded⟩ := fixed.snapshot_of_reached valid reached stored
  rw [found, Option.some.injEq] at recorded
  subst recorded
  exact ⟨input_holds valid invariant (fixed.hold _ invariant) arrived, block, stored, rfl⟩

theorem contains_iff_reached (fixed : problem.Fixed motion edges snapshots)
    (valid : problem.graph.Valid) (id : BlockId) :
    snapshots.contains id = true ↔ Reaches problem.graph.successors problem.graph.entry id := by
  rw [SortedMap.contains_iff]
  constructor
  · rintro ⟨snapshot, found⟩
    exact fixed.reached_of_snapshot valid found
  · intro reached
    obtain ⟨block, found⟩ := valid.reached_block reached
    obtain ⟨input, -, recorded⟩ := fixed.snapshot_of_reached valid reached found
    exact ⟨_, recorded⟩

end Fixed

/-! ### The equations -/

/-- What the equations bring to a block, given the outputs of the blocks: the initial state, at
the entry, and for each edge into the block what the edge makes of its source's output. A
source without an output sends nothing. -/
def arriving (problem : Problem σ V) (motion : Motion V) (output? : BlockId → Option V)
    (id : BlockId) : List V :=
  (if id = problem.graph.entry then [problem.transfer.initial] else []) ++
    (problem.graph.incoming id).filterMap fun edge =>
      match problem.graph.block? edge.source, output? edge.source with
      | some source, some output => some (motion.along source edge output)
      | _, _ => none

theorem filterMap_incomingSlots (g : Graph) (id : BlockId) {state? : Slot → Option V}
    {sent? : Edge → Option V} (same : ∀ block ∈ g.blocks, ∀ i edge,
      block.successors[i]? = some edge → state? ⟨block.id, i⟩ = sent? edge) :
    (g.incomingSlots id).filterMap state? = (g.incoming id).filterMap sent? := by
  unfold Graph.incomingSlots Graph.incoming Graph.edges
  rw [List.filterMap_flatMap, List.filter_flatMap, List.filterMap_flatMap]
  apply List.flatMap_congr
  intro block stored
  rw [List.filterMap_filterMap, List.filterMap_filter]
  -- The edges are the first parts of the pairs of an edge and its place.
  conv_rhs => rw [← List.zipIdx_map_fst 0 block.successors, List.filterMap_map]
  apply List.filterMap_congr
  rintro ⟨edge, i⟩ member
  have listed := List.mem_zipIdx_iff_getElem?.mp member
  by_cases arrives : edge.destination = id
  · simpa [arrives] using same block stored i edge listed
  · simp [arrives]

theorem Fixed.arrivals_eq {edges : SortedMap Slot V}
    {snapshots : SortedMap BlockId (Snapshot V)} (fixed : problem.Fixed motion edges snapshots)
    (valid : problem.graph.Valid) (id : BlockId) :
    problem.arrivals edges id =
      problem.arriving motion (fun source => (snapshots.get? source).map Snapshot.output) id := by
  unfold arrivals arriving
  congr 1
  apply filterMap_incomingSlots
  intro block stored i edge listed
  obtain ⟨place, here⟩ := List.mem_iff_getElem?.mp stored
  have own : block.id = ⟨place⟩ := valid.block_id here
  have found : problem.graph.block? block.id = some block := own ▸ here
  obtain ⟨source, -⟩ := valid.soundEdge found (List.mem_of_getElem? listed)
  simp only [source, found]
  by_cases reached : Reaches problem.graph.successors problem.graph.entry block.id
  · obtain ⟨input, arrived, recorded⟩ := fixed.snapshot_of_reached valid reached found
    simp only [recorded, Option.map_some]
    exact fixed.onEdge valid reached found arrived listed
  · -- A block that is not reached has neither a snapshot nor states on its edges.
    have silent : snapshots.get? block.id = none := by
      cases snapshot : snapshots.get? block.id with
      | none => rfl
      | some _ => exact absurd (fixed.reached_of_snapshot valid snapshot) reached
    have empty : edges.get? ⟨block.id, i⟩ = none := by
      cases onEdge : edges.get? ⟨block.id, i⟩ with
      | none => rfl
      | some v =>
          have ordered := (fixed.hold _ (.always problem motion) ⟨block.id, i⟩ v onEdge).1
          exact absurd ((Graph.mem_reversePostorder_iff valid _).mp ordered) reached
    simp only [silent, empty, Option.map_none]

/-- A run that ends well solves the equations, whatever the order in which arriving states are
joined and however they are divided into forward and back ones. -/
theorem solve_solves_equations [DecidableEq V] (lawful : problem.domain.Lawful)
    (computes : problem.transfer.Computes (fun _ => True) motion) {limit : Nat} {m after : σ}
    {solution : Solution V} (ran : (problem.solve limit).run m = (.ok solution, after)) :
    (∀ id, solution.snapshots.contains id = true ↔
      Reaches problem.graph.successors problem.graph.entry id) ∧
    ∀ id block, problem.graph.block? id = some block →
      Reaches problem.graph.successors problem.graph.entry id →
        ∃ snapshot, solution.snapshots.get? id = some snapshot ∧
          snapshot.output = motion.through block snapshot.input ∧
          ∀ forward back, (forward ++ back).Perm (problem.arriving motion
              (fun source => (solution.snapshots.get? source).map Snapshot.output) id) →
            problem.domain.mergeBackEdge (problem.domain.joinOnto none forward)
              (problem.domain.joinOnto none back) = some snapshot.input := by
  obtain ⟨valid, edges, fixed⟩ := solve_fixed computes trivial ran
  refine ⟨fixed.contains_iff_reached valid, ?_⟩
  intro id block found reached
  obtain ⟨input, arrived, recorded⟩ := fixed.snapshot_of_reached valid reached found
  refine ⟨⟨input, motion.through block input⟩, recorded, rfl, ?_⟩
  intro forward back division
  have joined := joined_of_input? arrived
  rw [fixed.arrivals_eq valid] at joined
  -- Both ways of joining come to a join of the same states, and there is only one.
  cases whole : problem.domain.mergeBackEdge (problem.domain.joinOnto none forward)
      (problem.domain.joinOnto none back) with
  | none =>
      have nothing : forward ++ back = [] := Domain.eq_nil_of_mergeBackEdge whole
      rw [nothing] at division
      exact absurd (List.nil_perm.mp division) joined.ne_nil
  | some v =>
      have other := (Domain.joined_of_mergeBackEdge whole).perm division
      rw [lawful.joined_unique other joined]

/-- A block with an edge to itself falls from five to three once more than one arrives. -/
def wavering : Problem Unit Nat where
  name := "wavering"
  graph :=
    { blocks :=
        [{ id := ⟨0⟩, kind := .entry, successors := [⟨⟨0⟩, ⟨2⟩, .always⟩] },
          { id := ⟨1⟩, kind := .exit },
          { id := ⟨2⟩, kind := .block,
            successors := [⟨⟨2⟩, ⟨2⟩, .always⟩, ⟨⟨2⟩, ⟨1⟩, .always⟩] }]
      regions := []
      entry := ⟨0⟩
      exit := ⟨1⟩ }
  domain := { bottom := 0, unknown := 0, compare := compare, merge := max }
  transfer :=
    { initial := 1
      visitBlock := fun block v => pure (if block.kind = .block then if v ≤ 1 then 5 else 3 else v)
      visitEdge := fun _ _ v => pure v
      isCancelled := fun _ => false }

def waveringMotion : Motion Nat where
  through := fun block v => if block.kind = .block then if v ≤ 1 then 5 else 3 else v
  along := fun _ _ v => v

theorem wavering_solves_equations :
    ∃ solution, (wavering.solve 10).run () = (.ok solution, ()) ∧
      solution.snapshots.get? ⟨2⟩ = some ⟨3, 3⟩ ∧
      (∀ id, solution.snapshots.contains id = true ↔
        Reaches wavering.graph.successors ⟨0⟩ id) ∧
      wavering.domain.mergeBackEdge (wavering.domain.joinOnto none [3])
        (wavering.domain.joinOnto none [1]) = some 3 := by
  have lawful : wavering.domain.Lawful :=
    ⟨Nat.max_assoc, Nat.max_comm, Nat.max_self⟩
  have computes : wavering.transfer.Computes (fun _ => True) waveringMotion :=
    ⟨fun _ _ => .pure _, fun _ _ _ => .pure _⟩
  obtain ⟨solution, ran⟩ : ∃ solution, (wavering.solve 10).run () = (.ok solution, ()) :=
    ⟨_, rfl⟩
  have same : solution.snapshots.get? ⟨2⟩ = some ⟨3, 3⟩ ∧
      wavering.arriving waveringMotion
        (fun source => (solution.snapshots.get? source).map Snapshot.output) ⟨2⟩ = [1, 3] := by
    cases ran
    exact ⟨rfl, rfl⟩
  obtain ⟨reached, equations⟩ := solve_solves_equations lawful computes ran
  have here : Reaches wavering.graph.successors ⟨0⟩ ⟨2⟩ := (reached ⟨2⟩).mp (by
    rw [SortedMap.contains_iff]
    exact ⟨_, same.1⟩)
  obtain ⟨snapshot, found, -, joined⟩ := equations ⟨2⟩ _ rfl here
  rw [same.1, Option.some.injEq] at found
  subst found
  refine ⟨solution, ran, same.1, reached, joined [3] [1] ?_⟩
  rw [same.2]
  exact List.Perm.swap 1 3 []

end PathCompletion.Problem
