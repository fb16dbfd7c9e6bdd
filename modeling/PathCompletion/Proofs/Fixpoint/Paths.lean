import Mathlib.Order.SupClosed
import PathCompletion.Proofs.Fixpoint.Equations

/-!
States along single paths. A path's state starts as the initial state and is moved through
the blocks and along the edges of the path; it is never joined with another. Seen through a
view in which merging is a supremum and every movement keeps suprema, what a run records at
a block is the least upper bound of the states along all paths from the entry to the block.
-/

namespace PathCompletion

variable {σ V K : Type}

def Graph.IsPath (g : Graph) : BlockId → List (Block × Edge) → BlockId → Prop
  | first, [], last => first = last
  | first, (block, edge) :: rest, last =>
      g.block? first = some block ∧ edge ∈ block.successors ∧ g.IsPath edge.destination rest last

def Problem.follow (problem : Problem σ V) : List (Block × Edge) → V → Step σ V
  | [], v => pure v
  | (block, edge) :: rest, v => do
      let output ← problem.transfer.visitBlock block v
      let sent ← problem.transfer.visitEdge block edge output
      problem.follow rest sent

def Motion.follow (motion : Motion V) : List (Block × Edge) → V → V
  | [], v => v
  | (block, edge) :: rest, v =>
      motion.follow rest (motion.along block edge (motion.through block v))

theorem Problem.follow_gives {problem : Problem σ V} {motion : Motion V} {kind : σ → Prop}
    (computes : problem.transfer.Computes kind motion) (path : List (Block × Edge)) (v : V) :
    Step.Gives kind (problem.follow path v) (motion.follow path v) := by
  induction path generalizing v with
  | nil => exact .pure v
  | cons first rest ih =>
      obtain ⟨block, edge⟩ := first
      exact (computes.block block v).bind ((computes.edge block edge _).bind (ih _))

namespace Graph.IsPath

variable {g : Graph}

theorem reaches {path : List (Block × Edge)} {first last : BlockId}
    (isPath : g.IsPath first path last) : Reaches g.successors first last := by
  induction path generalizing first with
  | nil =>
      cases isPath
      exact .refl _
  | cons head rest ih =>
      obtain ⟨found, listed, later⟩ := isPath
      exact .step (destination_mem_successors found listed) (ih later)

theorem snoc {path : List (Block × Edge)} {first middle : BlockId} {block : Block} {edge : Edge}
    (isPath : g.IsPath first path middle) (found : g.block? middle = some block)
    (listed : edge ∈ block.successors) :
    g.IsPath first (path ++ [(block, edge)]) edge.destination := by
  induction path generalizing first with
  | nil =>
      cases isPath
      exact ⟨found, listed, rfl⟩
  | cons head rest ih =>
      obtain ⟨foundFirst, listedFirst, later⟩ := isPath
      exact ⟨foundFirst, listedFirst, ih later⟩

end Graph.IsPath

theorem Motion.follow_snoc (motion : Motion V) (path : List (Block × Edge)) (block : Block)
    (edge : Edge) (v : V) :
    motion.follow (path ++ [(block, edge)]) v =
      motion.along block edge (motion.through block (motion.follow path v)) := by
  induction path generalizing v with
  | nil => rfl
  | cons head rest ih => exact ih _

namespace Problem

def pathStates (problem : Problem σ V) (motion : Motion V) (id : BlockId) : Set V :=
  { v | ∃ path, problem.graph.IsPath problem.graph.entry path id ∧
    v = motion.follow path problem.transfer.initial }

variable {problem : Problem σ V} {motion : Motion V}

theorem pathStates_initial :
    problem.transfer.initial ∈ problem.pathStates motion problem.graph.entry :=
  ⟨[], rfl, rfl⟩

theorem pathStates_move {id : BlockId} {block : Block} {edge : Edge} {v : V}
    (found : problem.graph.block? id = some block) (listed : edge ∈ block.successors)
    (arrives : v ∈ problem.pathStates motion id) :
    motion.along block edge (motion.through block v) ∈
      problem.pathStates motion edge.destination := by
  obtain ⟨path, isPath, rfl⟩ := arrives
  exact ⟨path ++ [(block, edge)], isPath.snoc found listed, (motion.follow_snoc ..).symm⟩

theorem pathStates_eq_empty {id : BlockId}
    (unreached : ¬ Reaches problem.graph.successors problem.graph.entry id) :
    problem.pathStates motion id = ∅ := by
  apply Set.eq_empty_of_forall_notMem
  rintro v ⟨path, isPath, -⟩
  exact unreached isPath.reaches

/-! ### Views that keep suprema -/

variable [SemilatticeSup K] {view : V → K}

/-- Seen through the view, merging is a supremum, and movements keep suprema. -/
structure Distributes (problem : Problem σ V) (motion : Motion V) (view : V → K) : Prop where
  merge : ∀ a b, view (problem.domain.merge a b) = view a ⊔ view b
  through : ∀ block, ∃ f : SupHom K K, ∀ v, view (motion.through block v) = f (view v)
  along : ∀ block edge, ∃ f : SupHom K K, ∀ v, view (motion.along block edge v) = f (view v)

theorem mem_supClosure_of_move {F : SupHom K K} {G : Set K} {states : Set V}
    (maps : ∀ v ∈ states, F (view v) ∈ supClosure G) {x : K}
    (inside : x ∈ supClosure (Set.image view states)) : F x ∈ supClosure G := by
  have closed : SupClosed (Set.preimage F (supClosure G)) := supClosed_supClosure.preimage F
  apply supClosure_min _ closed inside
  rintro _ ⟨v, member, rfl⟩
  exact maps v member

theorem Distributes.invariant (distributes : problem.Distributes motion view) :
    problem.Invariant motion fun id v =>
      view v ∈ supClosure (Set.image view (problem.pathStates motion id)) where
  initial := subset_supClosure ⟨_, pathStates_initial, rfl⟩
  merge := by
    intro id a b insideLeft insideRight
    rw [distributes.merge]
    exact supClosed_supClosure insideLeft insideRight
  move := by
    intro id block edge v found listed inside
    obtain ⟨f, through⟩ := distributes.through block
    obtain ⟨g, along⟩ := distributes.along block edge
    rw [along, through]
    apply mem_supClosure_of_move (F := g.comp f) _ inside
    intro w arrives
    apply subset_supClosure
    refine ⟨_, pathStates_move found listed arrives, ?_⟩
    rw [along, through]
    rfl

theorem Distributes.le_input (distributes : problem.Distributes motion view) {plan : Plan}
    {edges : SortedMap Slot V} {id : BlockId} {input v : V}
    (arrived : problem.input? plan edges id = some input)
    (arrives : v ∈ problem.arrivals edges id) : view v ≤ view input :=
  (joined_of_input? arrived).le (fun _ => True) (fun _ _ _ _ => trivial)
    (fun a b _ _ => distributes.merge a b) (fun _ _ => trivial) arrives

theorem isLUB_of_mem_supClosure {S : Set K} {x : K} (inside : x ∈ supClosure S)
    (above : x ∈ upperBounds S) : IsLUB S x := by
  refine ⟨above, fun bound upper => ?_⟩
  rw [← upperBounds_supClosure] at upper
  exact upper inside

namespace Fixed

variable {edges : SortedMap Slot V} {snapshots : SortedMap BlockId (Snapshot V)}

/-- From a state below a block's input, every path leads to states below the inputs of the
blocks it leads to. -/
theorem follow_le (fixed : problem.Fixed motion edges snapshots) (valid : problem.graph.Valid)
    (distributes : problem.Distributes motion view) {path : List (Block × Edge)}
    {first last : BlockId} (isPath : problem.graph.IsPath first path last)
    (reached : Reaches problem.graph.successors problem.graph.entry first) {v start finish : V}
    (arrived : problem.input? problem.graph.plan edges first = some start)
    (arrivedLast : problem.input? problem.graph.plan edges last = some finish)
    (below : view v ≤ view start) : view (motion.follow path v) ≤ view finish := by
  -- What is carried along the path stays below what is recorded at the block it has come to.
  induction path generalizing first v start with
  | nil =>
      cases isPath
      rw [arrived, Option.some.injEq] at arrivedLast
      exact arrivedLast ▸ below
  | cons head rest ih =>
      obtain ⟨block, edge⟩ := head
      obtain ⟨found, listed, later⟩ := isPath
      obtain ⟨i, place⟩ := List.mem_iff_getElem?.mp listed
      have sent := fixed.onEdge valid reached found arrived place
      have arrives := mem_arrivals_of_edge valid found place sent
      obtain ⟨next, arrivedNext⟩ := input_of_arrival problem.graph.plan arrives
      apply ih later (reached.snoc (Graph.destination_mem_successors found listed)) arrivedNext
      obtain ⟨f, through⟩ := distributes.through block
      obtain ⟨g, along⟩ := distributes.along block edge
      calc view (motion.along block edge (motion.through block v))
          = g (f (view v)) := by rw [along, through]
        _ ≤ g (f (view start)) := OrderHomClass.mono g (OrderHomClass.mono f below)
        _ = view (motion.along block edge (motion.through block start)) := by rw [along, through]
        _ ≤ view next := distributes.le_input arrivedNext arrives

/-- What is recorded at a block lies above the states of all paths to it, and is joined from
states of paths. -/
theorem input_exact (fixed : problem.Fixed motion edges snapshots) (valid : problem.graph.Valid)
    (distributes : problem.Distributes motion view) {id : BlockId} {snapshot : Snapshot V}
    (found : snapshots.get? id = some snapshot) :
    view snapshot.input ∈ upperBounds (Set.image view (problem.pathStates motion id)) ∧
      view snapshot.input ∈ supClosure (Set.image view (problem.pathStates motion id)) ∧
      ∃ block, problem.graph.block? id = some block ∧
        snapshot.output = motion.through block snapshot.input := by
  have reached := fixed.reached_of_snapshot valid found
  obtain ⟨block, stored⟩ := valid.reached_block reached
  obtain ⟨input, arrived, recorded⟩ := fixed.snapshot_of_reached valid reached stored
  rw [found, Option.some.injEq] at recorded
  subst recorded
  refine ⟨?_, ?_, block, stored, rfl⟩
  · -- Every path stays below the inputs of the blocks it comes through.
    rintro _ ⟨v, ⟨path, isPath, rfl⟩, rfl⟩
    obtain ⟨start, arrivedFirst⟩ := fixed.input_of_reached valid (.refl problem.graph.entry)
    have initial : view problem.transfer.initial ≤ view start :=
      distributes.le_input arrivedFirst (List.mem_append_left _ (by simp))
    exact fixed.follow_le valid distributes isPath (.refl _) arrivedFirst arrived initial
  · -- Nothing but states of paths has ever been joined on the way here.
    exact input_holds valid distributes.invariant (fixed.hold _ distributes.invariant) arrived

theorem isLUB_input (fixed : problem.Fixed motion edges snapshots) (valid : problem.graph.Valid)
    (distributes : problem.Distributes motion view) {id : BlockId} {snapshot : Snapshot V}
    (found : snapshots.get? id = some snapshot) :
    IsLUB (Set.image view (problem.pathStates motion id)) (view snapshot.input) := by
  obtain ⟨above, inside, -⟩ := fixed.input_exact valid distributes found
  exact isLUB_of_mem_supClosure inside above

theorem isLUB_output (fixed : problem.Fixed motion edges snapshots) (valid : problem.graph.Valid)
    (distributes : problem.Distributes motion view) {id : BlockId} {snapshot : Snapshot V}
    (found : snapshots.get? id = some snapshot) {block : Block}
    (stored : problem.graph.block? id = some block) :
    IsLUB (Set.image (fun v => view (motion.through block v)) (problem.pathStates motion id))
      (view snapshot.output) := by
  obtain ⟨above, inside, other, storedToo, output⟩ := fixed.input_exact valid distributes found
  rw [stored, Option.some.injEq] at storedToo
  subst storedToo
  obtain ⟨f, through⟩ := distributes.through block
  rw [output, through]
  apply isLUB_of_mem_supClosure
  · apply mem_supClosure_of_move _ inside
    intro v arrives
    exact subset_supClosure ⟨v, arrives, through v⟩
  · rintro _ ⟨v, arrives, rfl⟩
    change view (motion.through block v) ≤ _
    rw [through]
    exact OrderHomClass.mono f (above ⟨v, arrives, rfl⟩)

end Fixed

end Problem

end PathCompletion
