import Mathlib.Algebra.Order.BigOperators.Group.Finset
import Mathlib.Data.Set.Card
import Mathlib.Order.KrullDimension
import PathCompletion.Proofs.Fixpoint.Cycle

/-!
Monotone problems. Where merging is lawful it gives an order, and where visits are monotone in
it a run only ever raises the states on the edges. What it ends with is the least solution of
the equations. Each pass but the last raises a state, so the edges of the reachable blocks and
the height of the order bound the number of passes.
-/

namespace PathCompletion

variable {σ V : Type}

/-! ### The order of a domain -/

namespace Domain

variable {d : Domain V}

def Le (d : Domain V) (a b : V) : Prop := d.merge a b = b

instance [DecidableEq V] (a b : V) : Decidable (d.Le a b) := inferInstanceAs (Decidable (_ = _))

def Lt (d : Domain V) (a b : V) : Prop := d.Le a b ∧ a ≠ b

instance [DecidableEq V] (a b : V) : Decidable (d.Lt a b) := inferInstanceAs (Decidable (_ ∧ _))

theorem Lawful.merge_le (lawful : d.Lawful) {a b c : V} (left : d.Le a c) (right : d.Le b c) :
    d.Le (d.merge a b) c := by
  unfold Le at *
  rw [lawful.assoc, right, left]

theorem Lawful.le_trans (lawful : d.Lawful) {a b c : V} (first : d.Le a b) (second : d.Le b c) :
    d.Le a c := by
  unfold Le at *
  rw [← second, ← lawful.assoc, first]

abbrev Lawful.semilattice (lawful : d.Lawful) : SemilatticeSup V :=
  let _ : Max V := ⟨d.merge⟩
  SemilatticeSup.mk' lawful.comm lawful.assoc lawful.idem

theorem Lawful.le_joined (lawful : d.Lawful) {values : List V} {v w : V}
    (joined : d.Joined values v) (part : w ∈ values) : d.Le w v := by
  let := lawful.semilattice
  have sup (a b : V) (_ _ : True) : id (d.merge a b) = id a ⊔ id b := rfl
  exact joined.le (fun _ => True) (fun _ _ _ _ => trivial) sup (fun _ _ => trivial) part

/-- Where strictly ascending chains are bounded, each value has a rank among them. -/
theorem Lawful.exists_rank (lawful : d.Lawful) {height : Nat}
    (bounded : ∀ chain : List V, chain.IsChain d.Lt → chain.length ≤ height) :
    ∃ rank : V → Nat, (∀ v, 0 < rank v ∧ rank v ≤ height) ∧
      ∀ a b, d.Lt a b → rank a < rank b := by
  let := lawful.semilattice
  have strict (a b : V) : a < b ↔ d.Lt a b := lt_iff_le_and_ne
  have short (series : LTSeries V) : series.length + 1 ≤ height := by
    rw [← series.length_toList]
    exact bounded _ (series.isChain_toList.imp fun a b => (strict a b).mp)
  have finite (v : V) : Order.height v ≤ (height - 1 : Nat) := by
    apply Order.height_le
    intro series _
    exact Nat.cast_le.mpr (Nat.le_sub_one_of_lt (short series))
  choose rank exact using fun v =>
    ENat.ne_top_iff_exists.mp (ne_top_of_le_ne_top (ENat.natCast_ne_top _) (finite v))
  refine ⟨fun v => rank v + 1, fun v => ⟨Nat.succ_pos _, ?_⟩, fun a b below => ?_⟩
  · have some : 0 + 1 ≤ height := short (RelSeries.singleton _ v)
    have within : rank v ≤ height - 1 := Nat.cast_le.mp (exact v ▸ finite v)
    exact Nat.add_le_of_le_sub some within
  · have finiteFirst : Order.height a < ⊤ := (finite a).trans_lt (ENat.natCast_lt_top _)
    have rises := Order.height_strictMono ((strict a b).mpr below) finiteFirst
    rw [← exact, ← exact] at rises
    exact Nat.succ_lt_succ (Nat.cast_lt.mp rises)

end Domain

/-! ### The points of a run -/

namespace Problem

variable [DecidableEq V] {problem : Problem σ V} {motion : Motion V} {kind : σ → Prop}

/-- The points that a run comes to between its visits, each with the memory, what has been found
so far, and the blocks that are left in the pass. -/
inductive Comes (problem : Problem σ V) (start : σ) : σ → Progress V → List BlockId → Prop where
  | start : Comes problem start start {} problem.graph.plan.order
  | visit {m after : σ} {p q : Progress V} {id : BlockId} {rest : List BlockId}
      (before : Comes problem start m p (id :: rest))
      (ran : (problem.visit problem.graph.plan p id).run m = (.ok q, after)) :
      Comes problem start after q rest
  | again {m : σ} {p : Progress V} (before : Comes problem start m p [])
      (changed : p.changed = true) :
      Comes problem start m { p with changed := false } problem.graph.plan.order

theorem Comes.foldlM {start m after : σ} {p q : Progress V} {ids : List BlockId}
    (comes : problem.Comes start m p ids)
    (ran : (ids.foldlM (problem.visit problem.graph.plan) p).run m = (.ok q, after)) :
    problem.Comes start after q [] := by
  induction ids generalizing m p with
  | nil =>
      cases ran
      exact comes
  | cons first rest ih =>
      rw [List.foldlM_cons] at ran
      obtain ⟨next, between, ranFirst, ranRest⟩ := Step.run_bind_ok ran
      exact ih (comes.visit ranFirst) ranRest

/-- A run that ends well ends at a point after a whole pass, with the snapshots found there. -/
theorem solve_comes {limit : Nat} {m after : σ} {solution : Solution V}
    (ran : (problem.solve limit).run m = (.ok solution, after)) :
    ∃ p, problem.Comes m after p [] ∧ solution.snapshots = p.snapshots := by
  have passes (budget count : Nat) {between : σ} {p : Progress V}
      (comes : problem.Comes m between { p with changed := false } problem.graph.plan.order)
      (ran : (problem.iterate problem.graph.plan limit budget count p).run between =
        (.ok solution, after)) :
      ∃ p, problem.Comes m after p [] ∧ solution.snapshots = p.snapshots := by
    induction budget generalizing count between p with
    | zero => cases ran
    | succ budget ih =>
        rw [iterate] at ran
        obtain ⟨next, later, ranPass, ranRest⟩ := Step.run_bind_ok ran
        have passed : problem.Comes m later next [] := comes.foldlM ranPass
        split at ranRest
        · next changed => exact ih (count + 1) (passed.again changed) ranRest
        · cases ranRest
          exact ⟨next, passed, rfl⟩
  unfold solve at ran
  split at ran
  · cases ran
  · exact passes limit 0 .start ran

/-! ### Monotone movement -/

structure Monotone (problem : Problem σ V) (motion : Motion V) : Prop where
  through : ∀ block a b, problem.domain.Le a b →
    problem.domain.Le (motion.through block a) (motion.through block b)
  along : ∀ block edge a b, problem.domain.Le a b →
    problem.domain.Le (motion.along block edge a) (motion.along block edge b)

omit [DecidableEq V] in
theorem Monotone.rises (monotone : problem.Monotone motion) (lawful : problem.domain.Lawful) :
    letI := lawful.semilattice
    problem.Rises motion (fun _ _ => True) (id : V → V) := by
  let := lawful.semilattice
  refine ⟨.always problem motion, fun _ _ _ _ _ => rfl, ?_⟩
  intro _ block edge u v _ _ _ _ below
  exact monotone.along block edge _ _ (monotone.through block u v below)

theorem visit_ok (computes : problem.transfer.Computes kind motion) {p q : Progress V}
    {id : BlockId} {m after : σ} (now : kind m)
    (ran : (problem.visit problem.graph.plan p id).run m = (.ok q, after)) :
    q = problem.advance motion p id ∧ kind after := by
  rcases visit_run computes p id now with ⟨-, cancelled⟩ | ⟨later, visited, kept⟩
  · rw [cancelled] at ran
    cases ran
  · rw [visited] at ran
    cases ran
    exact ⟨rfl, kept⟩

section

variable {K : Type} [SemilatticeSup K] {view : V → K} {holds : BlockId → V → Prop}

/-- Wherever a run is, its memory is of the kind it began with, the blocks left are listed, and
every state on an edge is below what its block would send now. -/
theorem Comes.bounded (computes : problem.transfer.Computes kind motion)
    (valid : problem.graph.Valid) (rises : problem.Rises motion holds view) {start m : σ}
    {p : Progress V} {ids : List BlockId} (now : kind start)
    (comes : problem.Comes start m p ids) :
    kind m ∧ (∀ id ∈ ids, id ∈ problem.graph.plan.order) ∧ problem.EdgesHold holds p.edges ∧
      problem.Below motion view p.edges := by
  induction comes with
  | start =>
      refine ⟨now, fun _ listed => listed, ?_, ?_⟩
      · exact fun slot v found => nomatch found
      · exact fun slot v found => nomatch found
  | @visit m after p q id rest _ ran ih =>
      obtain ⟨kept, listed, good, below⟩ := ih
      have here := listed id List.mem_cons_self
      obtain ⟨rfl, keptNext⟩ := visit_ok computes kept ran
      exact ⟨keptNext, fun id later => listed id (List.mem_cons_of_mem _ later),
        advance_edgesHold valid rises.invariant good here,
        (rises.advance valid good below here).2⟩
  | again _ _ ih =>
      obtain ⟨kept, -, good, below⟩ := ih
      exact ⟨kept, fun _ listed => listed, good, below⟩

theorem Comes.lifts (computes : problem.transfer.Computes kind motion)
    (valid : problem.graph.Valid) (rises : problem.Rises motion holds view) {start m after : σ}
    {p q : Progress V} {id : BlockId} {rest : List BlockId} (now : kind start)
    (comes : problem.Comes start m p (id :: rest))
    (ran : (problem.visit problem.graph.plan p id).run m = (.ok q, after)) :
    Lifts view p.edges q.edges := by
  obtain ⟨kept, listed, good, below⟩ := comes.bounded computes valid rises now
  obtain ⟨rfl, -⟩ := visit_ok computes kept ran
  exact (rises.advance valid good below (listed id List.mem_cons_self)).1

end

/-! ### The least solution -/

/-- What is found solves the equations: a block's input is joined from what arrives there, its
output is what the block makes of it, and a block at which nothing arrives has neither. -/
def Solves (problem : Problem σ V) (motion : Motion V)
    (found : BlockId → Option (Snapshot V)) : Prop :=
  ∀ id block, problem.graph.block? id = some block →
    found id = (problem.domain.joinOnto none
      (problem.arriving motion (fun source => (found source).map Snapshot.output) id)).map
        fun input => ⟨input, motion.through block input⟩

def Beneath (problem : Problem σ V) (found above : BlockId → Option (Snapshot V)) : Prop :=
  ∀ id low, found id = some low → ∃ high, above id = some high ∧
    problem.domain.Le low.input high.input ∧ problem.domain.Le low.output high.output

omit [DecidableEq V] in
theorem Fixed.solves {edges : SortedMap Slot V} {snapshots : SortedMap BlockId (Snapshot V)}
    (fixed : problem.Fixed motion edges snapshots) (valid : problem.graph.Valid)
    (lawful : problem.domain.Lawful) : problem.Solves motion snapshots.get? := by
  intro id block stored
  rw [← fixed.arrivals_eq valid]
  by_cases reached : Reaches problem.graph.successors problem.graph.entry id
  · obtain ⟨input, arrived, recorded⟩ := fixed.snapshot_of_reached valid reached stored
    rw [lawful.joinOnto_of_joined (joined_of_input? arrived), recorded]
    rfl
  · -- Whatever arrives at a block shows that the block is reached.
    have follows : problem.Invariant motion fun id _ =>
        Reaches problem.graph.successors problem.graph.entry id :=
      ⟨.refl _, fun _ _ _ known _ => known, fun _ _ _ _ here listed known =>
        known.snoc (Graph.destination_mem_successors here listed)⟩
    have nothing : problem.arrivals edges id = [] := by
      apply List.eq_nil_iff_forall_not_mem.mpr
      intro v arrives
      exact reached (arrivals_hold valid follows.initial (fixed.hold _ follows) id v arrives)
    rw [nothing]
    cases found : snapshots.get? id with
    | none => rfl
    | some _ => exact absurd (fixed.reached_of_snapshot valid found) reached

omit [DecidableEq V] in
theorem Solves.output {found : BlockId → Option (Snapshot V)}
    (solves : problem.Solves motion found) {id : BlockId} {block : Block}
    (stored : problem.graph.block? id = some block) {snapshot : Snapshot V}
    (here : found id = some snapshot) : snapshot.output = motion.through block snapshot.input := by
  have equation := solves id block stored
  rw [here, eq_comm, Option.map_eq_some_iff] at equation
  obtain ⟨input, -, rfl⟩ := equation
  rfl

omit [DecidableEq V] in
theorem Solves.of_arriving {found : BlockId → Option (Snapshot V)}
    (solves : problem.Solves motion found) (lawful : problem.domain.Lawful) {id : BlockId}
    {block : Block} (stored : problem.graph.block? id = some block) {v : V}
    (arrives : v ∈ problem.arriving motion (fun source => (found source).map Snapshot.output) id) :
    ∃ high, found id = some high ∧ problem.domain.Le v high.input := by
  have equation := solves id block stored
  cases joined : problem.domain.joinOnto none
      (problem.arriving motion (fun source => (found source).map Snapshot.output) id) with
  | none =>
      have nothing := Domain.eq_nil_of_joinOnto joined
      rw [Option.toList_none, List.nil_append] at nothing
      rw [nothing] at arrives
      contradiction
  | some input =>
      rw [joined] at equation
      refine ⟨_, equation, ?_⟩
      exact lawful.le_joined (Domain.joined_of_joinOnto joined) arrives

omit [DecidableEq V] in
/-- The states of a solution bound what arrives at its blocks. -/
theorem Solves.invariant {found : BlockId → Option (Snapshot V)}
    (solves : problem.Solves motion found) (lawful : problem.domain.Lawful)
    (monotone : problem.Monotone motion) (valid : problem.graph.Valid) :
    problem.Invariant motion fun id v =>
      ∃ high, found id = some high ∧ problem.domain.Le v high.input where
  initial := by
    obtain ⟨block, stored⟩ := valid.entry_block
    obtain ⟨high, foundHigh, below⟩ := solves.of_arriving lawful stored
      (v := problem.transfer.initial) (List.mem_append_left _ (by simp))
    exact ⟨high, foundHigh, below⟩
  merge := by
    rintro id a b ⟨high, found, left⟩ ⟨other, foundToo, right⟩
    rw [found, Option.some.injEq] at foundToo
    subst foundToo
    exact ⟨high, found, lawful.merge_le left right⟩
  move := by
    rintro id block edge v stored listed ⟨high, foundHigh, below⟩
    obtain ⟨source, target, storedTarget⟩ := valid.soundEdge stored listed
    -- The solution sends this state along the edge, so it is below the next block's input.
    have arrives : motion.along block edge high.output ∈ problem.arriving motion
        (fun source => (found source).map Snapshot.output) edge.destination := by
      refine List.mem_append_right _ (List.mem_filterMap.mpr ⟨edge, ?_, ?_⟩)
      · exact List.mem_filter.mpr ⟨List.mem_flatMap.mpr
          ⟨block, List.mem_of_getElem? stored, listed⟩, by simp⟩
      · simp [source, stored, foundHigh]
    obtain ⟨next, foundNext, above⟩ := solves.of_arriving lawful storedTarget arrives
    refine ⟨next, foundNext, lawful.le_trans ?_ above⟩
    rw [solves.output stored foundHigh]
    exact monotone.along block edge _ _ (monotone.through block v high.input below)

omit [DecidableEq V] in
theorem Fixed.beneath {edges : SortedMap Slot V} {snapshots : SortedMap BlockId (Snapshot V)}
    (fixed : problem.Fixed motion edges snapshots) (valid : problem.graph.Valid)
    (lawful : problem.domain.Lawful) (monotone : problem.Monotone motion)
    {above : BlockId → Option (Snapshot V)} (solves : problem.Solves motion above) :
    problem.Beneath snapshots.get? above := by
  intro id low found
  have reached := fixed.reached_of_snapshot valid found
  obtain ⟨block, stored⟩ := valid.reached_block reached
  obtain ⟨input, arrived, recorded⟩ := fixed.snapshot_of_reached valid reached stored
  rw [found, Option.some.injEq] at recorded
  subst recorded
  have invariant := solves.invariant lawful monotone valid
  obtain ⟨high, foundHigh, below⟩ :=
    input_holds valid invariant (fixed.hold _ invariant) arrived
  have output := solves.output stored foundHigh
  exact ⟨high, foundHigh, below, output ▸ monotone.through block _ _ below⟩

end Problem

/-! ### Ranks on the edges -/

def Graph.reachableSlots (g : Graph) : Set Slot :=
  { slot | Reaches g.successors g.entry slot.source ∧ ∃ block edge,
    g.block? slot.source = some block ∧ block.successors[slot.index]? = some edge }

theorem Graph.finite_reachableSlots {g : Graph} (valid : g.Valid) : g.reachableSlots.Finite := by
  let all := g.blocks.flatMap fun block => block.successors.zipIdx.map fun pair =>
    (⟨block.id, pair.2⟩ : Slot)
  apply all.finite_toSet.subset
  rintro ⟨id, i⟩ ⟨-, block, edge, found, listed⟩
  refine List.mem_flatMap.mpr ⟨block, List.mem_of_getElem? found, ?_⟩
  rw [valid.block_id found]
  exact List.mem_map.mpr ⟨(edge, i), List.mem_zipIdx_iff_getElem?.mpr listed, rfl⟩

/-- The rank of what an edge carries; an edge without a state ranks below all others. -/
def edgeRank (rank : V → Nat) (edges : SortedMap Slot V) (slot : Slot) : Nat :=
  ((edges.get? slot).map rank).getD 0

namespace Problem

variable [DecidableEq V] {problem : Problem σ V} {motion : Motion V} {kind : σ → Prop}

section

variable {rank : V → Nat} {edges raised : SortedMap Slot V}

def potential (rank : V → Nat) (slots : Finset Slot) (edges : SortedMap Slot V) : Nat :=
  ∑ slot ∈ slots, edgeRank rank edges slot

omit [DecidableEq V] in
theorem potential_le {height : Nat} (bounded : ∀ v, rank v ≤ height) (slots : Finset Slot)
    (edges : SortedMap Slot V) : potential rank slots edges ≤ slots.card * height := by
  apply Finset.sum_le_card_nsmul
  intro slot _
  unfold edgeRank
  cases edges.get? slot with
  | none => exact Nat.zero_le height
  | some v => exact bounded v

omit [DecidableEq V] in
/-- Where the states on the edges differ, they have risen and the sum of their ranks has grown. -/
theorem potential_lt [SemilatticeSup V] (positive : ∀ v, 0 < rank v)
    (strict : ∀ a b : V, a < b → rank a < rank b) {slots : Finset Slot}
    (inside : ∀ slot v, raised.get? slot = some v → slot ∈ slots)
    (lifts : Lifts (fun v : V => v) edges raised) (different : edges ≠ raised) :
    potential rank slots edges < potential rank slots raised := by
  -- An edge keeps its state, or the rank of what it carries grows.
  have grows (slot : Slot) : edges.get? slot = raised.get? slot ∨
      edgeRank rank edges slot < edgeRank rank raised slot ∧ slot ∈ slots := by
    cases found : edges.get? slot with
    | none =>
        cases foundRaised : raised.get? slot with
        | none => exact .inl rfl
        | some w =>
            refine .inr ⟨?_, inside slot w foundRaised⟩
            simpa [edgeRank, found, foundRaised] using positive w
    | some v =>
        obtain ⟨w, foundRaised, below⟩ := lifts slot v found
        rcases below.eq_or_lt with same | above
        · exact .inl (foundRaised.trans (congrArg some same.symm)).symm
        · refine .inr ⟨?_, inside slot w foundRaised⟩
          simpa [edgeRank, found, foundRaised] using strict v w above
  obtain ⟨slot, changed⟩ : ∃ slot, edges.get? slot ≠ raised.get? slot := by
    by_contra same
    exact different (SortedMap.ext fun slot => not_not.mp fun changed => same ⟨slot, changed⟩)
  obtain ⟨above, here⟩ := (grows slot).resolve_left changed
  refine Finset.sum_lt_sum (fun other _ => ?_) ⟨slot, here, above⟩
  rcases grows other with same | ⟨above, -⟩
  · rw [edgeRank, edgeRank, same]
  · exact above.le

end

theorem after_reachable (valid : problem.graph.Valid) (n : Nat) {slot : Slot} {v : V}
    (found : (problem.after motion n).edges.get? slot = some v) :
    slot ∈ problem.graph.reachableSlots := by
  obtain ⟨ordered, block, edge, stored, listed, -⟩ :=
    after_edgesHold valid (.always problem motion) n slot v found
  exact ⟨(Graph.mem_reversePostorder_iff valid _).mp ordered, block, edge, stored, listed⟩

/-- Where each pass that changes something raises a total that is bounded, no more passes than
the bound change something. -/
theorem exists_still {total : Nat → Nat} {bound : Nat}
    (rises : ∀ n, (problem.after motion (n + 1)).changed = true → total n < total (n + 1))
    (bounded : ∀ n, total n ≤ bound) :
    ∃ n ≤ bound, (problem.after motion (n + 1)).changed = false := by
  have count (n : Nat) (changing : ∀ k < n, (problem.after motion (k + 1)).changed = true) :
      n ≤ total n := by
    induction n with
    | zero => exact Nat.zero_le _
    | succ n ih =>
        have before := ih fun k below => changing k (Nat.lt_succ_of_lt below)
        exact Nat.lt_of_le_of_lt before (rises n (changing n (Nat.lt_succ_self n)))
  by_contra unsettled
  have all := count (bound + 1) fun k below => by
    cases changed : (problem.after motion (k + 1)).changed with
    | true => rfl
    | false => exact absurd ⟨k, Nat.le_of_lt_succ below, changed⟩ unsettled
  exact absurd (all.trans (bounded _)) (Nat.not_succ_le_self bound)

/-- The ranks on the reachable edges bound the passes. -/
theorem Monotone.settles (monotone : problem.Monotone motion) (lawful : problem.domain.Lawful)
    (valid : problem.graph.Valid) {height : Nat}
    (bounded : ∀ chain : List V, chain.IsChain problem.domain.Lt → chain.length ≤ height) :
    ∃ n ≤ problem.graph.reachableSlots.ncard * height,
      (problem.after motion (n + 1)).changed = false := by
  let := lawful.semilattice
  obtain ⟨rank, within, strict⟩ := lawful.exists_rank bounded
  have rises := monotone.rises lawful
  have finite := Graph.finite_reachableSlots valid
  let total (n : Nat) := potential rank finite.toFinset (problem.after motion n).edges
  refine @exists_still _ _ _ _ _ total _ ?_ ?_
  · intro n changed
    apply potential_lt (fun v => (within v).1) fun a b below =>
      strict a b (lt_iff_le_and_ne.mp below)
    · exact fun slot v found => finite.mem_toFinset.mpr (after_reachable valid (n + 1) found)
    · exact rises.after_lifts valid (Nat.le_succ n)
    · -- Edges that a change left as they were would be circulating.
      exact fun same => rises.not_circulates valid (fun _ _ _ _ _ same => same)
        ⟨n, n + 1, Nat.lt_succ_self n, same, changed⟩
  · intro n
    rw [Set.ncard_eq_toFinset_card _ finite]
    exact potential_le (fun v => (within v).2) finite.toFinset _

/-- In a monotone problem every visit replaces states on edges by states above them, what a run
ends with is the least solution, and a run with more passes than the reachable edges times the
height of the order ends well. -/
theorem monotone_run_finds_least_solution (valid : problem.graph.Valid)
    (lawful : problem.domain.Lawful) (computes : problem.transfer.Computes kind motion)
    (monotone : problem.Monotone motion) {m : σ} (now : kind m) :
    (∀ between p id rest, problem.Comes m between p (id :: rest) → ∀ q after,
      (problem.visit problem.graph.plan p id).run between = (.ok q, after) →
        ∀ slot old, p.edges.get? slot = some old →
          ∃ new, q.edges.get? slot = some new ∧ problem.domain.Le old new) ∧
    (∀ limit solution after, (problem.solve limit).run m = (.ok solution, after) →
      (∃ p, problem.Comes m after p [] ∧ solution.snapshots = p.snapshots) ∧
        problem.Solves motion solution.snapshots.get? ∧
        ∀ above, problem.Solves motion above →
          problem.Beneath solution.snapshots.get? above) ∧
    ∀ height, (∀ chain : List V, chain.IsChain problem.domain.Lt → chain.length ≤ height) →
      (∀ m, kind m → problem.transfer.isCancelled m = false) →
        ∀ limit ≥ problem.graph.reachableSlots.ncard * height + 1,
          ∃ solution after, (problem.solve limit).run m = (.ok solution, after) := by
  refine ⟨?_, ?_, ?_⟩
  · intro between p id rest comes q after ran
    let := lawful.semilattice
    exact comes.lifts computes valid (monotone.rises lawful) now ran
  · intro limit solution after ran
    obtain ⟨-, edges, fixed⟩ := solve_fixed computes now ran
    exact ⟨solve_comes ran, fixed.solves valid lawful, fun above solves =>
      fixed.beneath valid lawful monotone solves⟩
  · intro height bounded uncancelled limit enough
    obtain ⟨n, within, still⟩ := monotone.settles lawful valid bounded
    obtain ⟨solution, after, ran, -⟩ := solve_of_settling computes uncancelled valid
      (Nat.lt_of_lt_of_le (Nat.lt_succ_of_le within) enough) still now
    exact ⟨solution, after, ran⟩

/-- A loop that raises what goes round it by one, up to three. -/
def climbing : Problem Unit (Fin 4) where
  name := "climbing"
  graph := wavering.graph
  domain := { bottom := 0, unknown := 3, compare := compare, merge := max }
  transfer :=
    { initial := 0
      visitBlock := fun block v =>
        pure (if block.kind = .block then if v = 3 then 3 else v + 1 else v)
      visitEdge := fun _ _ v => pure v
      isCancelled := fun _ => false }

def climbingMotion : Motion (Fin 4) where
  through := fun block v => if block.kind = .block then if v = 3 then 3 else v + 1 else v
  along := fun _ _ v => v

theorem climbing_finds_least_solution :
    ∃ solution after, (climbing.solve 13).run () = (.ok solution, after) ∧
      solution.snapshots.get? ⟨2⟩ = some ⟨3, 3⟩ ∧
      climbing.Solves climbingMotion solution.snapshots.get? ∧
      ∀ above, climbing.Solves climbingMotion above →
        climbing.Beneath solution.snapshots.get? above := by
  have valid : climbing.graph.Valid := rfl
  have lawful : climbing.domain.Lawful := ⟨max_assoc, max_comm, max_self⟩
  have computes : climbing.transfer.Computes (fun _ => True) climbingMotion :=
    ⟨fun _ _ => .pure _, fun _ _ _ => .pure _⟩
  have monotone : climbing.Monotone climbingMotion := by
    refine ⟨fun block => ?_, fun _ _ _ _ below => below⟩
    by_cases kind : block.kind = .block
    · simp only [climbingMotion, kind, ↓reduceIte]
      decide
    · simp only [climbingMotion, kind, ↓reduceIte]
      exact fun _ _ below => below
  have bounded (chain : List (Fin 4)) (ascends : chain.IsChain climbing.domain.Lt) :
      chain.length ≤ 4 := by
    have strict : ∀ a b, climbing.domain.Lt a b → a < b := by decide
    have increasing : chain.IsChain (· < ·) := ascends.imp strict
    have distinct : chain.Nodup := increasing.pairwise.imp ne_of_lt
    simpa using distinct.length_le_card
  have edges : climbing.graph.reachableSlots.ncard ≤ 3 := by
    have inside : climbing.graph.reachableSlots ⊆
        (({⟨⟨0⟩, 0⟩, ⟨⟨2⟩, 0⟩, ⟨⟨2⟩, 1⟩} : Finset Slot) : Set Slot) := by
      rintro ⟨⟨id⟩, i⟩ ⟨-, block, edge, found, listed⟩
      match id with
      | 0 | 1 | 2 =>
          cases found
          rcases i with _ | _ | i <;> simp_all
      | id + 3 => cases found
    exact (Set.ncard_le_ncard inside).trans_eq (Set.ncard_coe_finset _)
  obtain ⟨-, least, ends⟩ :=
    monotone_run_finds_least_solution valid lawful computes monotone (m := ()) trivial
  obtain ⟨solution, after, ran⟩ := ends 4 bounded (fun _ _ => rfl) 13 (by omega)
  obtain ⟨-, solves, beneath⟩ := least 13 solution after ran
  have round : (match (climbing.solve 13).run () with
      | (.ok solution, _) => solution.snapshots.get? ⟨2⟩
      | (.error _, _) => none) = some ⟨3, 3⟩ := by decide +kernel
  rw [ran] at round
  exact ⟨solution, after, ran, round, solves, beneath⟩

end Problem

end PathCompletion
