import PathCompletion.Proofs.Chain
import PathCompletion.Proofs.Fixpoint.Ascent

/-!
What passes leave behind. Where visits change nothing that is seen of a state, what an earlier
pass has put on an edge can stay only by going round: a cycle that it has come to keeps it for
good, and where the passes settle, whatever is there and has not come from the entry goes round
a cycle.
-/

namespace PathCompletion

namespace Problem

variable {σ V K : Type} {problem : Problem σ V} {motion : Motion V} [SemilatticeSup K]
  {view : V → K} {holds : BlockId → V → Prop} {edges raised : SortedMap Slot V} {k : K}

/-- On the states of the given sort, the view turns merging into suprema, and states move
without a change of what is seen. -/
structure Carries (problem : Problem σ V) (motion : Motion V) (holds : BlockId → V → Prop)
    (view : V → K) : Prop where
  invariant : problem.Invariant motion holds
  sup : ∀ id a b, holds id a → holds id b →
    view (problem.domain.merge a b) = view a ⊔ view b
  kept : ∀ id block edge v, problem.graph.block? id = some block → edge ∈ block.successors →
    holds id v → view (motion.along block edge (motion.through block v)) = view v

theorem Carries.rises (carries : problem.Carries motion holds view) :
    problem.Rises motion holds view := by
  refine ⟨carries.invariant, carries.sup, ?_⟩
  intro id block edge u v stored listed left right below
  rwa [carries.kept id block edge u stored listed left,
    carries.kept id block edge v stored listed right]

/-! ### Settled states -/

section

variable (carries : problem.Carries motion holds view) (valid : problem.graph.Valid)
  (good : problem.EdgesHold holds edges) (settled : problem.Settled motion edges)

include carries valid good settled

theorem Carries.onEdge {id : BlockId}
    (reached : Reaches problem.graph.successors problem.graph.entry id) {block : Block}
    (stored : problem.graph.block? id = some block) {input : V}
    (arrived : problem.input? problem.graph.plan edges id = some input) {i : Nat} {edge : Edge}
    (place : block.successors[i]? = some edge) :
    ∃ v, edges.get? ⟨id, i⟩ = some v ∧ view v = view input := by
  have ordered := (Graph.mem_reversePostorder_iff valid id).mpr reached
  have sent := settled id ordered block input stored arrived i edge place
  rw [valid.block_id stored] at sent
  exact ⟨_, sent, carries.kept id block edge input stored (List.mem_of_getElem? place)
    (input_holds valid carries.invariant good arrived)⟩

/-- What is seen at a block is seen wherever it leads. -/
theorem Carries.le_of_reaches {a b : BlockId}
    (reached : Reaches problem.graph.successors problem.graph.entry a)
    (reaches : Reaches problem.graph.successors a b) {input : V}
    (arrived : problem.input? problem.graph.plan edges a = some input) (below : k ≤ view input) :
    ∃ other, problem.input? problem.graph.plan edges b = some other ∧ k ≤ view other := by
  have both : Reaches problem.graph.successors problem.graph.entry b ∧
      ∃ other, problem.input? problem.graph.plan edges b = some other ∧ k ≤ view other := by
    apply reaches.induct
    · rintro x ⟨reachedFirst, other, arrivedFirst, belowFirst⟩ y successor
      obtain ⟨block, stored, edge, listed, rfl⟩ := Graph.mem_successors_iff.mp successor
      obtain ⟨i, place⟩ := List.mem_iff_getElem?.mp listed
      obtain ⟨v, sent, same⟩ :=
        carries.onEdge valid good settled reachedFirst stored arrivedFirst place
      have arrives := mem_arrivals_of_edge valid stored place sent
      obtain ⟨next, arrivedNext⟩ := input_of_arrival problem.graph.plan arrives
      refine ⟨reachedFirst.snoc successor, next, arrivedNext, ?_⟩
      exact belowFirst.trans (same ▸ carries.rises.le_input valid good arrivedNext arrives)
    · exact ⟨reached, input, arrived, below⟩
  exact both.2

theorem Carries.input_of_reached {id : BlockId}
    (reached : Reaches problem.graph.successors problem.graph.entry id) :
    ∃ input, problem.input? problem.graph.plan edges id = some input ∧
      view problem.transfer.initial ≤ view input := by
  have arrives : problem.transfer.initial ∈ problem.arrivals edges problem.graph.entry :=
    List.mem_append_left _ (by simp)
  obtain ⟨start, arrived⟩ := input_of_arrival problem.graph.plan arrives
  exact carries.le_of_reaches valid good settled (.refl _) reached arrived
    (carries.rises.le_input valid good arrived arrives)

omit settled in
/-- If all that arrives were below, so would be what it is joined to. -/
theorem Carries.exists_arrival {id : BlockId} {input : V}
    (arrived : problem.input? problem.graph.plan edges id = some input)
    (above : ¬ view input ≤ k) : ∃ v ∈ problem.arrivals edges id, ¬ view v ≤ k := by
  by_contra all
  have both : holds id input ∧ view input ≤ k := by
    apply (joined_of_input? arrived).induct
    · rintro a b ⟨holdsLeft, left⟩ ⟨holdsRight, right⟩
      refine ⟨carries.invariant.merge id a b holdsLeft holdsRight, ?_⟩
      rw [carries.sup id a b holdsLeft holdsRight]
      exact sup_le left right
    · intro v arrives
      refine ⟨arrivals_hold valid carries.invariant.initial good id v arrives, ?_⟩
      by_contra high
      exact all ⟨v, arrives, high⟩
  exact above both.2

/-- What is seen at a block and does not come from the entry is seen at a block before it. -/
theorem Carries.exists_source (start : view problem.transfer.initial ≤ k) {id : BlockId}
    {input : V} (arrived : problem.input? problem.graph.plan edges id = some input)
    (above : ¬ view input ≤ k) :
    ∃ source ∈ problem.graph.plan.order, id ∈ problem.graph.successors source ∧
      ∃ other, problem.input? problem.graph.plan edges source = some other ∧ ¬ view other ≤ k := by
  obtain ⟨v, arrives, high⟩ := carries.exists_arrival valid good arrived above
  rcases List.mem_append.mp arrives with initial | onEdge
  · split at initial
    · rw [List.mem_singleton.mp initial] at high
      exact absurd start high
    · contradiction
  · obtain ⟨slot, incoming, found⟩ := List.mem_filterMap.mp onEdge
    obtain ⟨block, edge, stored, place, rfl⟩ := (Graph.mem_incomingSlots_iff valid).mp incoming
    have ordered := (good slot v found).1
    have reached := (Graph.mem_reversePostorder_iff valid _).mp ordered
    obtain ⟨before, arrivedBefore, -⟩ := carries.input_of_reached valid good settled reached
    obtain ⟨w, sent, same⟩ := carries.onEdge valid good settled reached stored arrivedBefore place
    cases sent.symm.trans found
    exact ⟨slot.source, ordered,
      Graph.destination_mem_successors stored (List.mem_of_getElem? place), before, arrivedBefore,
      same ▸ high⟩

/-- So it comes from a block on a cycle. -/
theorem Carries.exists_onCycle (start : view problem.transfer.initial ≤ k) {id : BlockId}
    (reached : Reaches problem.graph.successors problem.graph.entry id) {input : V}
    (arrived : problem.input? problem.graph.plan edges id = some input)
    (above : ¬ view input ≤ k) :
    ∃ z other, OnCycle problem.graph.successors z ∧ Reaches problem.graph.successors z id ∧
      problem.input? problem.graph.plan edges z = some other ∧ ¬ view other ≤ k := by
  let among (x : BlockId) : Prop := x ∈ problem.graph.plan.order ∧
    Reaches problem.graph.successors x id ∧
    ∃ other, problem.input? problem.graph.plan edges x = some other ∧ ¬ view other ≤ k
  have preceded (x : BlockId) (here : among x) :
      ∃ y, among y ∧ x ∈ problem.graph.successors y := by
    obtain ⟨-, leads, other, arrivedHere, aboveHere⟩ := here
    obtain ⟨source, ordered, successor, seen⟩ :=
      carries.exists_source valid good settled start arrivedHere aboveHere
    exact ⟨source, ⟨ordered, .step successor leads, seen⟩, successor⟩
  have ordered := (Graph.mem_reversePostorder_iff valid id).mpr reached
  obtain ⟨z, ⟨-, leads, other, there, high⟩, cycle⟩ := PathCompletion.exists_onCycle
    (fun x here => here.1) preceded ⟨ordered, .refl _, input, arrived, above⟩
  exact ⟨z, other, cycle, leads, there, high⟩

end

/-! ### What is on its way -/

/-- A state that shows this is on an edge to a block of the given sort, and stays there until
that block is visited: with these blocks left in the pass, the block comes before the source. -/
def Pending (problem : Problem σ V) (view : V → K) (k : K) (alive : BlockId → Prop)
    (edges : SortedMap Slot V) (rest : List BlockId) : Prop :=
  ∃ source block i edge v, problem.graph.block? source = some block ∧
    block.successors[i]? = some edge ∧ alive edge.destination ∧
    edges.get? ⟨source, i⟩ = some v ∧ k ≤ view v ∧
    ∃ before after, rest ++ problem.graph.plan.order = before ++ edge.destination :: after ∧
      source ∉ before

structure GoesOn (problem : Problem σ V) (alive : BlockId → Prop) : Prop where
  listed : ∀ y, alive y → y ∈ problem.graph.plan.order
  onward : ∀ y, alive y → ∃ x ∈ problem.graph.successors y, alive x

variable {alive : BlockId → Prop} {id : BlockId} {done rest : List BlockId}

section

variable (goesOn : problem.GoesOn alive) (order : problem.graph.plan.order = done ++ id :: rest)

include goesOn order

/-- A block that shows it on all its edges sends it on its way. -/
theorem pending_of_sent (here : alive id) {block : Block}
    (stored : problem.graph.block? id = some block)
    (sent : ∀ i edge, block.successors[i]? = some edge →
      ∃ v, edges.get? ⟨id, i⟩ = some v ∧ k ≤ view v) :
    problem.Pending view k alive edges rest := by
  obtain ⟨x, successor, aliveNext⟩ := goesOn.onward id here
  obtain ⟨other, storedToo, edge, listed, rfl⟩ := Graph.mem_successors_iff.mp successor
  cases storedToo.symm.trans stored
  obtain ⟨i, place⟩ := List.mem_iff_getElem?.mp listed
  obtain ⟨v, onEdge, shows⟩ := sent i edge place
  refine ⟨id, block, i, edge, v, stored, place, aliveNext, onEdge, shows, ?_⟩
  obtain ⟨notDone, notLater⟩ := Graph.not_mem_of_reversePostorder order
  -- The destination comes later in this pass, or next time before the block or with it.
  have ordered := goesOn.listed _ aliveNext
  rw [order] at ordered ⊢
  rcases List.mem_append.mp ordered with earlier | after
  · obtain ⟨first, second, rfl⟩ := List.append_of_mem earlier
    refine ⟨rest ++ first, second ++ id :: rest, by simp, ?_⟩
    simp only [List.mem_append, not_or] at notDone ⊢
    exact ⟨notLater, notDone.1⟩
  · rcases List.mem_cons.mp after with same | further
    · rw [same]
      exact ⟨rest ++ done, rest, by simp, by simp [notLater, notDone]⟩
    · obtain ⟨first, second, rfl⟩ := List.append_of_mem further
      refine ⟨first, second ++ (done ++ id :: (first ++ edge.destination :: second)), by simp, ?_⟩
      exact fun member => notLater (List.mem_append_left _ member)

/-- What is on its way stays so when a block is visited that sends on what it receives. -/
theorem Pending.visit (rises : problem.Rises motion holds view) (valid : problem.graph.Valid)
    (good : problem.EdgesHold holds edges)
    (others : ∀ slot, slot.source ≠ id → raised.get? slot = edges.get? slot)
    (sends : ∀ block input, problem.graph.block? id = some block →
      problem.input? problem.graph.plan edges id = some input → k ≤ view input →
      ∀ i edge, block.successors[i]? = some edge →
        ∃ v, raised.get? ⟨id, i⟩ = some v ∧ k ≤ view v)
    (pending : problem.Pending view k alive edges (id :: rest)) :
    problem.Pending view k alive raised rest := by
  obtain ⟨source, block, i, edge, v, stored, place, here, onEdge, shows, before, after, split,
    waits⟩ := pending
  by_cases visited : edge.destination = id
  -- It waited for this block: what the block receives is at least as much, and it sends that on.
  · have arrives := mem_arrivals_of_edge valid stored place onEdge
    obtain ⟨input, arrived⟩ := input_of_arrival problem.graph.plan arrives
    have received := shows.trans (rises.le_input valid good arrived arrives)
    have reached := (Graph.mem_reversePostorder_iff valid _).mp (goesOn.listed _ here)
    obtain ⟨target, storedTarget⟩ := valid.reached_block reached
    rw [visited] at here arrived storedTarget
    exact pending_of_sent goesOn order here storedTarget
      (sends target input storedTarget arrived received)
  · cases before with
    | nil => exact absurd (List.cons.inj split).1.symm visited
    | cons head before =>
        obtain ⟨rfl, splitRest⟩ := List.cons.inj split
        rw [List.mem_cons, not_or] at waits
        refine ⟨source, block, i, edge, v, stored, place, here, ?_, shows, before, after,
          splitRest, waits.2⟩
        rw [others ⟨source, i⟩ waits.1, onEdge]

end

/-- What is on its way is seen at the block that it is on its way to. -/
theorem Pending.input (rises : problem.Rises motion holds view) (valid : problem.graph.Valid)
    (good : problem.EdgesHold holds edges)
    (pending : problem.Pending view k alive edges rest) :
    ∃ y input, alive y ∧ problem.input? problem.graph.plan edges y = some input ∧
      k ≤ view input := by
  obtain ⟨source, block, i, edge, v, stored, place, here, onEdge, shows, -⟩ := pending
  have arrives := mem_arrivals_of_edge valid stored place onEdge
  obtain ⟨input, arrived⟩ := input_of_arrival problem.graph.plan arrives
  exact ⟨edge.destination, input, here, arrived,
    shows.trans (rises.le_input valid good arrived arrives)⟩

/-! ### Passes -/

variable [DecidableEq V]

theorem rounds_edgesHold (valid : problem.graph.Valid)
    (invariant : problem.Invariant motion holds) {p : Progress V}
    (good : problem.EdgesHold holds p.edges) (n : Nat) :
    problem.EdgesHold holds ((problem.round motion)^[n] p).edges :=
  rounds_induct (fun p => problem.EdgesHold holds p.edges) (fun _ good => good)
    (fun _ good _ listed => advance_edgesHold valid invariant good listed) good n

section

variable (goesOn : problem.GoesOn alive) (carries : problem.Carries motion holds view)
  (valid : problem.graph.Valid)

include goesOn carries valid

theorem Pending.advance (order : problem.graph.plan.order = done ++ id :: rest) {p : Progress V}
    (good : problem.EdgesHold holds p.edges)
    (pending : problem.Pending view k alive p.edges (id :: rest)) :
    problem.Pending view k alive (problem.advance motion p id).edges rest := by
  refine pending.visit goesOn order carries.rises valid good ?_ ?_
  · intro slot elsewhere
    rcases problem.advance_cases motion p id with ⟨-, same⟩ | ⟨block, input, found, arrived, -⟩
    · rw [same]
    · exact (get?_advance valid found arrived slot).resolve_left fun own => elsewhere own.1
  · intro block input found arrived received i edge place
    have sent : (problem.send motion block (motion.through block input) p).edges.get? _ = _ :=
      get?_send_of_listed place _ p
    rw [valid.block_id found] at sent
    rw [advance_of_input found arrived]
    refine ⟨_, sent, ?_⟩
    rwa [carries.kept id block edge input found (List.mem_of_getElem? place)
      (input_holds valid carries.invariant good arrived)]

theorem Pending.round {p : Progress V} (good : problem.EdgesHold holds p.edges)
    (pending : problem.Pending view k alive p.edges []) :
    problem.Pending view k alive (problem.round motion p).edges [] := by
  have all (done rest : List BlockId) (order : problem.graph.plan.order = done ++ rest)
      (p : Progress V) (good : problem.EdgesHold holds p.edges)
      (pending : problem.Pending view k alive p.edges rest) :
      problem.Pending view k alive (rest.foldl (problem.advance motion) p).edges [] := by
    induction rest generalizing done p with
    | nil => exact pending
    | cons id rest ih =>
        have listed : id ∈ problem.graph.plan.order := by simp [order]
        exact ih (done ++ [id]) (by simp [order]) _
          (advance_edgesHold valid carries.invariant good listed)
          (pending.advance goesOn carries valid order good)
  apply all [] problem.graph.plan.order rfl { p with changed := false } good
  -- The next pass begins with the blocks that would have come next anyway.
  obtain ⟨source, block, i, edge, v, stored, place, here, onEdge, shows, before, after, split,
    waits⟩ := pending
  refine ⟨source, block, i, edge, v, stored, place, here, onEdge, shows, before,
    after ++ problem.graph.plan.order, ?_, waits⟩
  rw [List.nil_append] at split
  rw [split]
  simp

theorem Pending.rounds {p : Progress V} (good : problem.EdgesHold holds p.edges)
    (pending : problem.Pending view k alive p.edges []) (n : Nat) :
    problem.Pending view k alive ((problem.round motion)^[n] p).edges [] := by
  induction n with
  | zero => exact pending
  | succ n ih =>
      rw [Function.iterate_succ_apply']
      exact ih.round goesOn carries valid (rounds_edgesHold valid carries.invariant good n)

end

/-! ### Runs -/

section

variable {kind : σ → Prop}
  (visits : ∀ id ∈ problem.graph.plan.order, ∀ p q m after, kind m →
    (problem.visit problem.graph.plan p id).run m = (.ok q, after) →
      q = problem.advance motion p id ∧ kind after)

include visits

theorem pass_of_visits {p q : Progress V} {m after : σ} (now : kind m)
    (ran : (problem.pass problem.graph.plan p).run m = (.ok q, after)) :
    q = problem.round motion p ∧ kind after := by
  have all (ids : List BlockId) (listed : ∀ id ∈ ids, id ∈ problem.graph.plan.order)
      (p : Progress V) (m : σ) (now : kind m)
      (ran : (ids.foldlM (problem.visit problem.graph.plan) p).run m = (.ok q, after)) :
      q = ids.foldl (problem.advance motion) p ∧ kind after := by
    induction ids generalizing p m with
    | nil =>
        cases ran
        exact ⟨rfl, now⟩
    | cons first rest ih =>
        rw [List.foldlM_cons] at ran
        obtain ⟨next, between, ranFirst, ranRest⟩ := Step.run_bind_ok ran
        obtain ⟨rfl, kept⟩ := visits first (listed first List.mem_cons_self) p next m between now
          ranFirst
        exact ih (fun id later => listed id (List.mem_cons_of_mem first later)) _ between kept
          ranRest
  exact all _ (fun _ listed => listed) _ m now ran

/-- A run that ends well, and whose visits of listed blocks all advance, makes a number of passes
of which the last changes nothing. -/
theorem iterate_of_visits {limit budget count : Nat} {p : Progress V} {m after : σ}
    {solution : Solution V} (now : kind m)
    (ran : (problem.iterate problem.graph.plan limit budget count p).run m =
      (.ok solution, after)) :
    ∃ n, ((problem.round motion)^[n + 1] p).changed = false ∧
      solution.snapshots = ((problem.round motion)^[n + 1] p).snapshots := by
  induction budget generalizing count p m with
  | zero => cases ran
  | succ budget ih =>
      rw [iterate] at ran
      obtain ⟨next, between, ranPass, ranRest⟩ := Step.run_bind_ok ran
      obtain ⟨rfl, kept⟩ := pass_of_visits visits now ranPass
      split at ranRest
      · obtain ⟨n, still, snapshots⟩ := ih kept ranRest
        exact ⟨n + 1, still, snapshots⟩
      · next still =>
        cases ranRest
        exact ⟨0, by simpa using still, rfl⟩

end

end Problem

end PathCompletion
