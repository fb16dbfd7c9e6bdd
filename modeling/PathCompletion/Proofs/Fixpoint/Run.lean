import PathCompletion.Proofs.Fixpoint.Pass

/-!
A run of the fixpoint computation, taken apart: a run that ends well is a number of passes
of which only the last changes nothing, and a run that is never cancelled fails only when
its budget of passes is spent.
-/

namespace PathCompletion.Problem

variable {σ V : Type} [DecidableEq V] {problem : Problem σ V} {motion : Motion V}
  {kind : σ → Prop}

/-! ### Runs whose visits may fail -/

theorem valid_of_solve {limit : Nat} {m after : σ} {solution : Solution V}
    (ran : (problem.solve limit).run m = (.ok solution, after)) : problem.graph.Valid := by
  unfold solve at ran
  split at ran
  · cases ran
  · next accepted => exact accepted

/-- What a visit that ends well can do. -/
theorem visit_cases {p q : Progress V} {m after : σ} {plan : Plan} {id : BlockId}
    (ran : (problem.visit plan p id).run m = (.ok q, after)) :
    ((problem.graph.block? id = none ∨ problem.input? plan p.edges id = none) ∧
      q = p ∧ after = m) ∨
    ∃ block input output left between, problem.graph.block? id = some block ∧
      problem.input? plan p.edges id = some input ∧
      (problem.transfer.visitBlock block input).run m = (.ok output, between) ∧
      (problem.leave block output p).run between = (.ok left, after) ∧
      q = { left with snapshots := left.snapshots.insert id ⟨input, output⟩ } := by
  unfold visit at ran
  rw [Step.run_bind_of_ok (Step.run_get m)] at ran
  by_cases cancelled : problem.transfer.isCancelled m = true
  · simp only [cancelled, ↓reduceIte] at ran
    cases ran
  simp only [cancelled, Bool.false_eq_true, ↓reduceIte] at ran
  cases found : problem.graph.block? id with
  | none =>
      rw [found] at ran
      cases ran
      exact .inl ⟨.inl rfl, rfl, rfl⟩
  | some block =>
      cases arrived : problem.input? plan p.edges id with
      | none =>
          rw [found, arrived] at ran
          cases ran
          exact .inl ⟨.inr rfl, rfl, rfl⟩
      | some input =>
          rw [found, arrived] at ran
          obtain ⟨output, between, visited, ranRest⟩ := Step.run_bind_ok ran
          obtain ⟨left, last, sent, ranLast⟩ := Step.run_bind_ok ranRest
          cases ranLast
          exact .inr ⟨block, input, output, left, between, rfl, rfl, visited, sent, rfl⟩

theorem iterate_exit (problem : Problem σ V) (plan : Plan) (limit budget count : Nat)
    (p : Progress V) :
    Step.Ensures (problem.iterate plan limit budget count p) fun solution =>
      solution.exit = problem.graph.exit := by
  induction budget generalizing count p with
  | zero => exact .throw
  | succ budget ih =>
      refine .after fun next => ?_
      split
      · exact ih (count + 1) next
      · exact .pure rfl

theorem solve_exit (problem : Problem σ V) (limit : Nat) :
    Step.Ensures (problem.solve limit) fun solution => solution.exit = problem.graph.exit := by
  unfold solve
  split
  · exact .throw
  · exact problem.iterate_exit _ _ _ _ _

section

variable (computes : problem.transfer.Computes kind motion)

include computes

theorem leave_gives (block : Block) (output : V) (p : Progress V) :
    Step.Gives kind (problem.leave block output p) (problem.send motion block output p) := by
  apply Step.Gives.foldlM
  rintro q ⟨edge, index⟩ -
  exact (computes.edge block edge output).bind (.pure _)

theorem visit_run (p : Progress V) (id : BlockId) {m : σ} (now : kind m) :
    (problem.transfer.isCancelled m = true ∧
      (problem.visit problem.graph.plan p id).run m = (.error .cancelled, m)) ∨
    ∃ after, (problem.visit problem.graph.plan p id).run m =
      (.ok (problem.advance motion p id), after) ∧ kind after := by
  unfold visit
  rw [Step.run_bind_of_ok (Step.run_get m)]
  by_cases cancelled : problem.transfer.isCancelled m = true
  · exact .inl ⟨cancelled, by simp [cancelled, Step.run_throw]⟩
  · right
    simp only [cancelled, Bool.false_eq_true, ↓reduceIte]
    rcases problem.advance_cases motion p id with
      ⟨nothing | nothing, same⟩ | ⟨block, input, found, arrived, same⟩
    · rw [same, nothing]
      exact ⟨m, Step.run_pure p m, now⟩
    · rw [same, nothing]
      cases problem.graph.block? id <;> exact ⟨m, Step.run_pure p m, now⟩
    · rw [same, found, arrived]
      refine (computes.block block input).bind ((leave_gives computes block _ p).bind ?_) m now
      rw [snapshots_send]
      exact .pure _

theorem pass_run (p : Progress V) {m : σ} (now : kind m) :
    (∃ between after, kind between ∧ problem.transfer.isCancelled between = true ∧
      (problem.pass problem.graph.plan p).run m = (.error .cancelled, after)) ∨
    ∃ after, (problem.pass problem.graph.plan p).run m =
      (.ok (problem.round motion p), after) ∧ kind after := by
  unfold pass round
  generalize { p with changed := false } = q
  induction problem.graph.plan.order generalizing q m with
  | nil => exact .inr ⟨m, Step.run_pure q m, now⟩
  | cons first rest ih =>
      rw [List.foldlM_cons, List.foldl_cons]
      rcases visit_run computes q first now with ⟨cancelled, ran⟩ | ⟨after, ran, kept⟩
      · exact .inl ⟨m, m, now, cancelled, Step.run_bind_of_error ran⟩
      · rw [Step.run_bind_of_ok ran]
        exact ih kept _

/-! ### Runs that end well -/

theorem iterate_ok {limit budget count : Nat} {p : Progress V} {m after : σ}
    {solution : Solution V} (now : kind m)
    (ran : (problem.iterate problem.graph.plan limit budget count p).run m =
      (.ok solution, after)) :
    ∃ n, n < budget ∧ ((problem.round motion)^[n + 1] p).changed = false ∧
      solution.snapshots = ((problem.round motion)^[n + 1] p).snapshots := by
  induction budget generalizing count p m with
  | zero => cases ran
  | succ budget ih =>
      rw [iterate] at ran
      rcases pass_run computes p now with ⟨_, failed, -, -, ranPass⟩ | ⟨between, ranPass, kept⟩
      · rw [Step.run_bind_of_error ranPass] at ran
        cases ran
      · rw [Step.run_bind_of_ok ranPass] at ran
        split at ran
        · obtain ⟨n, within, still, snapshots⟩ := ih kept ran
          exact ⟨n + 1, Nat.succ_lt_succ within, still, snapshots⟩
        · next still =>
          cases ran
          exact ⟨0, Nat.succ_pos budget, by simpa using still, rfl⟩

/-- A run that ends well accepts the graph and makes a number of passes, the last of which
changes nothing. -/
theorem solve_ok {limit : Nat} {m after : σ} {solution : Solution V} (now : kind m)
    (ran : (problem.solve limit).run m = (.ok solution, after)) :
    problem.graph.Valid ∧ ∃ n, (problem.after motion (n + 1)).changed = false ∧
      solution.snapshots = (problem.after motion (n + 1)).snapshots := by
  unfold solve at ran
  split at ran
  · cases ran
  · next accepted =>
    obtain ⟨n, -, still, snapshots⟩ := iterate_ok computes now ran
    exact ⟨accepted, n, still, snapshots⟩

/-! ### Runs that are never cancelled -/

section

variable (uncancelled : ∀ m, kind m → problem.transfer.isCancelled m = false)

include uncancelled

theorem pass_gives (p : Progress V) :
    Step.Gives kind (problem.pass problem.graph.plan p) (problem.round motion p) := by
  intro m now
  rcases pass_run computes p now with ⟨between, -, kept, cancelled, -⟩ | done
  · rw [uncancelled between kept] at cancelled
    contradiction
  · exact done

theorem iterate_of_changing {limit budget count : Nat} {p : Progress V}
    (changing : ∀ k < budget, ((problem.round motion)^[k + 1] p).changed = true) {m : σ}
    (now : kind m) :
    ∃ after, (problem.iterate problem.graph.plan limit budget count p).run m =
      (.error (.notConverged problem.name limit), after) ∧ kind after := by
  induction budget generalizing count p m with
  | zero => exact ⟨m, rfl, now⟩
  | succ budget ih =>
      obtain ⟨between, ranPass, kept⟩ := pass_gives computes uncancelled p m now
      have changed : (problem.round motion p).changed = true := changing 0 (Nat.succ_pos budget)
      rw [iterate, Step.run_bind_of_ok ranPass, if_pos changed]
      exact ih (fun k below => changing (k + 1) (Nat.succ_lt_succ below)) kept

theorem iterate_of_settling {limit budget count n : Nat} {p : Progress V}
    (within : n < budget) (still : ((problem.round motion)^[n + 1] p).changed = false) {m : σ}
    (now : kind m) :
    ∃ solution after, (problem.iterate problem.graph.plan limit budget count p).run m =
      (.ok solution, after) ∧ kind after := by
  induction budget generalizing count n p m with
  | zero => contradiction
  | succ budget ih =>
      obtain ⟨between, ranPass, kept⟩ := pass_gives computes uncancelled p m now
      rw [iterate, Step.run_bind_of_ok ranPass]
      by_cases changed : (problem.round motion p).changed = true
      · rw [if_pos changed]
        cases n with
        | zero =>
            have contrary : (problem.round motion p).changed = false := still
            rw [changed] at contrary
            contradiction
        | succ n => exact ih (Nat.lt_of_succ_lt_succ within) still kept
      · rw [if_neg changed]
        exact ⟨_, between, rfl, kept⟩

theorem solve_of_changing (valid : problem.graph.Valid) {limit : Nat}
    (changing : ∀ k < limit, (problem.after motion (k + 1)).changed = true) {m : σ}
    (now : kind m) :
    ∃ after, (problem.solve limit).run m =
      (.error (.notConverged problem.name limit), after) ∧ kind after := by
  unfold solve
  rw [show problem.graph.fault? = none from valid]
  exact iterate_of_changing computes uncancelled changing now

theorem solve_of_settling (valid : problem.graph.Valid) {limit n : Nat} (within : n < limit)
    (still : (problem.after motion (n + 1)).changed = false) {m : σ} (now : kind m) :
    ∃ solution after, (problem.solve limit).run m = (.ok solution, after) ∧ kind after := by
  unfold solve
  rw [show problem.graph.fault? = none from valid]
  exact iterate_of_settling computes uncancelled within still now

end

end

/-! ### What the states on the edges keep -/

/-- What holds of the state that enters the graph, and is kept where states meet and where
they move. -/
structure Invariant (problem : Problem σ V) (motion : Motion V) (holds : BlockId → V → Prop) :
    Prop where
  initial : holds problem.graph.entry problem.transfer.initial
  merge : ∀ id a b, holds id a → holds id b → holds id (problem.domain.merge a b)
  move : ∀ id block edge v, problem.graph.block? id = some block → edge ∈ block.successors →
    holds id v → holds edge.destination (motion.along block edge (motion.through block v))

omit [DecidableEq V] in
theorem Invariant.always (problem : Problem σ V) (motion : Motion V) :
    problem.Invariant motion fun _ _ => True :=
  ⟨trivial, fun _ _ _ _ _ => trivial, fun _ _ _ _ _ _ _ => trivial⟩

/-- Every state on an edge comes from a listed block and is of the given kind where the edge
leads. -/
def EdgesHold (problem : Problem σ V) (holds : BlockId → V → Prop) (edges : SortedMap Slot V) :
    Prop :=
  ∀ slot v, edges.get? slot = some v → slot.source ∈ problem.graph.plan.order ∧
    ∃ block edge, problem.graph.block? slot.source = some block ∧
      block.successors[slot.index]? = some edge ∧ holds edge.destination v

variable {holds : BlockId → V → Prop} {edges : SortedMap Slot V}

omit [DecidableEq V] in
theorem arrivals_hold (valid : problem.graph.Valid)
    (initial : holds problem.graph.entry problem.transfer.initial)
    (good : problem.EdgesHold holds edges) (id : BlockId) :
    ∀ v ∈ problem.arrivals edges id, holds id v := by
  intro v member
  rcases List.mem_append.mp member with start | onEdge
  · split at start
    · next here =>
      rw [List.mem_singleton.mp start, here]
      exact initial
    · contradiction
  · obtain ⟨slot, incoming, found⟩ := List.mem_filterMap.mp onEdge
    obtain ⟨-, block, edge, stored, listed, now⟩ := good slot v found
    obtain ⟨_, _, storedToo, listedToo, arrives⟩ :=
      (Graph.mem_incomingSlots_iff valid).mp incoming
    rw [stored, Option.some.injEq] at storedToo
    subst storedToo
    rw [listed, Option.some.injEq] at listedToo
    subst listedToo
    exact arrives ▸ now

omit [DecidableEq V] in
theorem input_holds (valid : problem.graph.Valid) (invariant : problem.Invariant motion holds)
    (good : problem.EdgesHold holds edges) {plan : Plan} {id : BlockId} {input : V}
    (arrived : problem.input? plan edges id = some input) : holds id input :=
  (joined_of_input? arrived).induct (invariant.merge id)
    (arrivals_hold valid invariant.initial good id)

theorem advance_edgesHold (valid : problem.graph.Valid)
    (invariant : problem.Invariant motion holds) {p : Progress V}
    (good : problem.EdgesHold holds p.edges) {id : BlockId}
    (listed : id ∈ problem.graph.plan.order) :
    problem.EdgesHold holds (problem.advance motion p id).edges := by
  rcases problem.advance_cases motion p id with ⟨-, same⟩ | ⟨block, input, found, arrived, -⟩
  · rwa [same]
  · intro slot v onEdge
    rcases get?_advance valid found arrived slot with ⟨source, edge, member, sent⟩ | kept
    · cases onEdge.symm.trans sent
      rw [source]
      exact ⟨listed, block, edge, found, member, invariant.move id block edge input found
        (List.mem_of_getElem? member) (input_holds valid invariant good arrived)⟩
    · exact good slot v (kept.symm.trans onEdge)

theorem after_edgesHold (valid : problem.graph.Valid)
    (invariant : problem.Invariant motion holds) (n : Nat) :
    problem.EdgesHold holds (problem.after motion n).edges := by
  apply after_induct fun p => problem.EdgesHold holds p.edges
  · exact fun slot v found => nomatch found
  · exact fun p good => good
  · exact fun p good id listed => advance_edgesHold valid invariant good listed

def SnapshotsListed (problem : Problem σ V) (p : Progress V) : Prop :=
  ∀ id snapshot, p.snapshots.get? id = some snapshot → id ∈ problem.graph.plan.order

theorem advance_snapshotsListed {p : Progress V} (good : problem.SnapshotsListed p) {id : BlockId}
    (listed : id ∈ problem.graph.plan.order) :
    problem.SnapshotsListed (problem.advance motion p id) := by
  intro other snapshot found
  rcases problem.advance_cases motion p id with ⟨-, same⟩ | ⟨block, input, -, -, same⟩
  · rw [same] at found
    exact good other snapshot found
  · rw [same] at found
    by_cases here : id = other
    · exact here ▸ listed
    · rw [SortedMap.get?_insert_of_ne here] at found
      exact good other snapshot found

theorem rounds_snapshotsListed {p : Progress V} (good : problem.SnapshotsListed p) (n : Nat) :
    problem.SnapshotsListed ((problem.round motion)^[n] p) :=
  rounds_induct problem.SnapshotsListed (fun _ good => good)
    (fun _ good _ listed => advance_snapshotsListed good listed) good n

theorem after_snapshots (n : Nat) {id : BlockId} {snapshot : Snapshot V}
    (found : (problem.after motion n).snapshots.get? id = some snapshot) :
    id ∈ problem.graph.plan.order := by
  have start : problem.SnapshotsListed ({} : Progress V) := nofun
  exact rounds_snapshotsListed start n id snapshot found

end PathCompletion.Problem
