import PathCompletion.Proofs.Fixpoint.Equations

/-!
Passes that ascend. Seen through a view in which merging is a supremum and movements are
monotone, no visit lowers a state on an edge: each state on an edge stays below what its
block would send now, because the states it was made from have only risen since.
-/

namespace PathCompletion.Problem

variable {σ V K : Type} {problem : Problem σ V} {motion : Motion V} [SemilatticeSup K]
  {view : V → K} {holds : BlockId → V → Prop} {edges raised : SortedMap Slot V}

/-- On the states of the given kind, the view turns merging into suprema and movements are
monotone in it. -/
structure Rises (problem : Problem σ V) (motion : Motion V) (holds : BlockId → V → Prop)
    (view : V → K) : Prop where
  invariant : problem.Invariant motion holds
  sup : ∀ id a b, holds id a → holds id b →
    view (problem.domain.merge a b) = view a ⊔ view b
  mono : ∀ id block edge u v, problem.graph.block? id = some block → edge ∈ block.successors →
    holds id u → holds id v → view u ≤ view v →
      view (motion.along block edge (motion.through block u)) ≤
        view (motion.along block edge (motion.through block v))

/-- Every state on an edge stays there or is replaced by one above it. -/
def Lifts (view : V → K) (edges raised : SortedMap Slot V) : Prop :=
  ∀ slot v, edges.get? slot = some v → ∃ w, raised.get? slot = some w ∧ view v ≤ view w

theorem Lifts.refl (view : V → K) (edges : SortedMap Slot V) : Lifts view edges edges :=
  fun _ v found => ⟨v, found, le_rfl⟩

theorem Lifts.trans {highest : SortedMap Slot V} (first : Lifts view edges raised)
    (second : Lifts view raised highest) : Lifts view edges highest := by
  intro slot v found
  obtain ⟨w, foundNext, below⟩ := first slot v found
  obtain ⟨x, foundLast, belowNext⟩ := second slot w foundNext
  exact ⟨x, foundLast, below.trans belowNext⟩

def Below (problem : Problem σ V) (motion : Motion V) (view : V → K)
    (edges : SortedMap Slot V) : Prop :=
  ∀ slot v, edges.get? slot = some v → ∀ block edge,
    problem.graph.block? slot.source = some block → block.successors[slot.index]? = some edge →
      ∃ input, problem.input? problem.graph.plan edges slot.source = some input ∧
        view v ≤ view (motion.along block edge (motion.through block input))

theorem Rises.le_input (rises : problem.Rises motion holds view) (valid : problem.graph.Valid)
    (good : problem.EdgesHold holds edges) {plan : Plan} {id : BlockId} {input v : V}
    (arrived : problem.input? plan edges id = some input)
    (arrives : v ∈ problem.arrivals edges id) : view v ≤ view input :=
  (joined_of_input? arrived).le (holds id) (rises.invariant.merge id) (rises.sup id)
    (arrivals_hold valid rises.invariant.initial good id) arrives

theorem Rises.input_mono (rises : problem.Rises motion holds view) (valid : problem.graph.Valid)
    (good : problem.EdgesHold holds edges) (goodRaised : problem.EdgesHold holds raised)
    (lifts : Lifts view edges raised) {plan : Plan} {id : BlockId} {input : V}
    (arrived : problem.input? plan edges id = some input) :
    ∃ higher, problem.input? plan raised id = some higher ∧ view input ≤ view higher := by
  -- What arrives on lower edges has a counterpart above it on the higher ones.
  have counterpart : ∀ v ∈ problem.arrivals edges id,
      ∃ w ∈ problem.arrivals raised id, view v ≤ view w := by
    intro v member
    rcases List.mem_append.mp member with start | onEdge
    · exact ⟨v, List.mem_append_left _ start, le_rfl⟩
    · obtain ⟨slot, incoming, found⟩ := List.mem_filterMap.mp onEdge
      obtain ⟨w, foundRaised, below⟩ := lifts slot v found
      exact ⟨w, List.mem_append_right _ (List.mem_filterMap.mpr ⟨slot, incoming, foundRaised⟩),
        below⟩
  have joined := joined_of_input? arrived
  obtain ⟨v, some⟩ := List.exists_mem_of_ne_nil _ joined.ne_nil
  obtain ⟨w, arrives, -⟩ := counterpart v some
  obtain ⟨higher, arrivedRaised⟩ := input_of_arrival plan arrives
  refine ⟨higher, arrivedRaised, ?_⟩
  have both : holds id input ∧ view input ≤ view higher := by
    apply joined.induct
    · rintro a b ⟨holdsLeft, left⟩ ⟨holdsRight, right⟩
      refine ⟨rises.invariant.merge id a b holdsLeft holdsRight, ?_⟩
      rw [rises.sup id a b holdsLeft holdsRight]
      exact sup_le left right
    · intro v member
      obtain ⟨w, arrives, below⟩ := counterpart v member
      exact ⟨arrivals_hold valid rises.invariant.initial good id v member,
        below.trans (rises.le_input valid goodRaised arrivedRaised arrives)⟩
  exact both.2

section

variable [DecidableEq V]

/-- A visit raises the states on the block's edges, and leaves every state below what its
block would send. -/
theorem Rises.advance (rises : problem.Rises motion holds view) (valid : problem.graph.Valid)
    {p : Progress V} (good : problem.EdgesHold holds p.edges)
    (below : problem.Below motion view p.edges) {id : BlockId}
    (listed : id ∈ problem.graph.plan.order) :
    Lifts view p.edges (problem.advance motion p id).edges ∧
      problem.Below motion view (problem.advance motion p id).edges := by
  have goodNext := advance_edgesHold valid rises.invariant good listed
  rcases problem.advance_cases motion p id with ⟨-, same⟩ | ⟨block, input, found, arrived, -⟩
  · rw [same]
    exact ⟨.refl view p.edges, below⟩
  · have lifts : Lifts view p.edges (problem.advance motion p id).edges := by
      intro slot v onEdge
      rcases get?_advance valid found arrived slot with ⟨source, edge, member, sent⟩ | kept
      · subst source
        obtain ⟨other, arrivedToo, under⟩ := below slot v onEdge block edge found member
        rw [arrived, Option.some.injEq] at arrivedToo
        exact ⟨_, sent, arrivedToo ▸ under⟩
      · exact ⟨v, kept.trans onEdge, le_rfl⟩
    refine ⟨lifts, ?_⟩
    intro slot v onEdge holder edge foundHolder member
    -- The state was below what the block sent before, and the input has not fallen.
    obtain ⟨before, arrivedBefore, under⟩ : ∃ before,
        problem.input? problem.graph.plan p.edges slot.source = some before ∧
          view v ≤ view (motion.along holder edge (motion.through holder before)) := by
      rcases get?_advance valid found arrived slot with ⟨source, other, memberToo, sent⟩ | kept
      · subst source
        rw [found, Option.some.injEq] at foundHolder
        subst foundHolder
        rw [member, Option.some.injEq] at memberToo
        subst memberToo
        rw [sent, Option.some.injEq] at onEdge
        exact ⟨input, arrived, onEdge ▸ le_rfl⟩
      · exact below slot v (kept.symm.trans onEdge) holder edge foundHolder member
    obtain ⟨now, arrivedNow, higher⟩ := rises.input_mono valid good goodNext lifts arrivedBefore
    refine ⟨now, arrivedNow, under.trans ?_⟩
    exact rises.mono slot.source holder edge before now foundHolder (List.mem_of_getElem? member)
      (input_holds valid rises.invariant good arrivedBefore)
      (input_holds valid rises.invariant goodNext arrivedNow) higher

theorem Rises.foldl_advance (rises : problem.Rises motion holds view)
    (valid : problem.graph.Valid) (ids : List BlockId)
    (listed : ∀ id ∈ ids, id ∈ problem.graph.plan.order) {p : Progress V}
    (good : problem.EdgesHold holds p.edges) (below : problem.Below motion view p.edges) :
    Lifts view p.edges (ids.foldl (problem.advance motion) p).edges ∧
      problem.EdgesHold holds (ids.foldl (problem.advance motion) p).edges ∧
      problem.Below motion view (ids.foldl (problem.advance motion) p).edges := by
  induction ids generalizing p with
  | nil => exact ⟨.refl view p.edges, good, below⟩
  | cons first rest ih =>
      have here := listed first List.mem_cons_self
      obtain ⟨lifts, belowNext⟩ := rises.advance valid good below here
      have goodNext := advance_edgesHold valid rises.invariant good here
      obtain ⟨liftsRest, goodRest, belowRest⟩ :=
        ih (fun id later => listed id (List.mem_cons_of_mem first later)) goodNext belowNext
      exact ⟨lifts.trans liftsRest, goodRest, belowRest⟩

theorem Rises.round (rises : problem.Rises motion holds view) (valid : problem.graph.Valid)
    {p : Progress V} (good : problem.EdgesHold holds p.edges)
    (below : problem.Below motion view p.edges) :
    Lifts view p.edges (problem.round motion p).edges ∧
      problem.Below motion view (problem.round motion p).edges := by
  obtain ⟨lifts, -, belowNext⟩ := rises.foldl_advance valid problem.graph.plan.order
    (fun _ listed => listed) (p := { p with changed := false }) good below
  exact ⟨lifts, belowNext⟩

theorem Rises.after_below (rises : problem.Rises motion holds view)
    (valid : problem.graph.Valid) (n : Nat) :
    problem.Below motion view (problem.after motion n).edges := by
  induction n with
  | zero => exact fun slot v found => nomatch found
  | succ n ih =>
      rw [after_succ]
      exact (rises.round valid (after_edgesHold valid rises.invariant n) ih).2

theorem Rises.after_lifts (rises : problem.Rises motion holds view)
    (valid : problem.graph.Valid) {i n : Nat} (later : i ≤ n) :
    Lifts view (problem.after motion i).edges (problem.after motion n).edges := by
  induction later with
  | refl => exact .refl view _
  | @step n _ ih =>
      apply ih.trans
      rw [after_succ]
      exact (rises.round valid (after_edgesHold valid rises.invariant n)
        (rises.after_below valid n)).1

end

end PathCompletion.Problem
