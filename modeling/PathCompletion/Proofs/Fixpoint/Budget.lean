import PathCompletion.Proofs.Fixpoint.Visited

/-!
What the budget of passes decides. A run that ends well makes some passes that change an edge,
and then one that changes none; which they are does not depend on the budget, whatever the visits
do and remember. So a budget that admits the last pass admits the whole run, and a smaller one
cuts the run off after as many passes as it admits.
-/

namespace PathCompletion.Problem

variable {σ V : Type} [DecidableEq V] {problem : Problem σ V} {plan : Plan}
  {p q : Progress V} {m after : σ} {n : Nat}

/-- Passes one after the other, so many of them, each of which ends well and changes an edge. -/
inductive Restless (problem : Problem σ V) (plan : Plan) :
    Nat → Progress V → σ → Progress V → σ → Prop where
  | none (p : Progress V) (m : σ) : Restless problem plan 0 p m p m
  | pass {n : Nat} {p next q : Progress V} {m between after : σ}
      (ran : (problem.pass plan p).run m = (.ok next, between)) (changed : next.changed = true)
      (rest : Restless problem plan n next between q after) :
      Restless problem plan (n + 1) p m q after

namespace Restless

/-- The passes that come first are such passes too. -/
theorem take (restless : Restless problem plan n p m q after) {k : Nat} (fewer : k ≤ n) :
    ∃ r between, Restless problem plan k p m r between := by
  induction restless generalizing k with
  | none p m =>
      rw [Nat.le_zero.mp fewer]
      exact ⟨p, m, .none p m⟩
  | @pass n p next q m between after ran changed rest ih =>
      cases k with
      | zero => exact ⟨p, m, .none p m⟩
      | succ k =>
          obtain ⟨r, last, before⟩ := ih (Nat.le_of_succ_le_succ fewer)
          exact ⟨r, last, .pass ran changed before⟩

/-- A run goes on from where such passes lead, with as much less of its budget. -/
theorem iterate_onward (restless : Restless problem plan n p m q after)
    (limit budget count : Nat) :
    (problem.iterate plan limit (n + budget) count p).run m =
      (problem.iterate plan limit budget (count + n) q).run after := by
  induction restless generalizing count with
  | none p m => rw [Nat.zero_add, Nat.add_zero]
  | @pass n p next q m between after ran changed rest ih =>
      rw [Nat.add_right_comm, iterate, Step.run_bind_of_ok ran, if_pos changed, ih (count + 1),
        Nat.add_right_comm count 1 n, Nat.add_assoc]

end Restless

/-! ### Runs that end well -/

/-- After a pass that changes nothing, a run ends well on any budget that admits the pass. -/
theorem iterate_still {last : Progress V}
    (ran : (problem.pass plan p).run m = (.ok last, after)) (still : last.changed = false)
    (limit budget count : Nat) :
    (problem.iterate plan limit (budget + 1) count p).run m =
      (.ok ⟨last.snapshots, problem.graph.exit, count + 1, last.regressions⟩, after) := by
  rw [iterate, Step.run_bind_of_ok ran, if_neg (by simp [still])]
  rfl

/-- A run that ends well has made passes that change an edge, and a last one that does not. -/
theorem restless_of_iterate {limit budget count : Nat} {solution : Solution V}
    (ran : (problem.iterate plan limit budget count p).run m = (.ok solution, after)) :
    ∃ n q between last, n < budget ∧ solution.iterations = count + n + 1 ∧
      Restless problem plan n p m q between ∧
      (problem.pass plan q).run between = (.ok last, after) ∧ last.changed = false := by
  induction budget generalizing count p m with
  | zero => cases ran
  | succ budget ih =>
      rw [iterate] at ran
      obtain ⟨next, between, ranPass, ranRest⟩ := Step.run_bind_ok ran
      split at ranRest
      · next changed =>
        obtain ⟨n, q, later, last, within, counted, restless, ranLast, still⟩ := ih ranRest
        refine ⟨n + 1, q, later, last, Nat.succ_lt_succ within, ?_,
          .pass ranPass changed restless, ranLast, still⟩
        rw [counted, Nat.add_right_comm count 1 n, Nat.add_assoc count n 1]
      · next still =>
        cases ranRest
        exact ⟨0, p, m, next, Nat.succ_pos budget, rfl, .none p m, ranPass, by simpa using still⟩

/-- A run that ends well makes one pass or more, and no more than its budget admits. Any other
budget that admits them ends the run in the same way, with the same memory; one that does not
cuts it off, and the error gives that budget as the number of passes. -/
theorem budget_only_cuts_off {limit : Nat} {solution : Solution V}
    (ran : (problem.solve limit).run m = (.ok solution, after)) :
    0 < solution.iterations ∧ solution.iterations ≤ limit ∧ ∀ budget,
      (solution.iterations ≤ budget →
        (problem.solve budget).run m = (.ok solution, after)) ∧
      (budget < solution.iterations → ∃ between,
        (problem.solve budget).run m = (.error (.notConverged problem.name budget), between)) := by
  have solve_eq (budget : Nat) :
      problem.solve budget = problem.iterate problem.graph.plan budget budget 0 {} := by
    rw [solve, show problem.graph.fault? = none from valid_of_solve ran]
  have ranHere := ran
  rw [solve_eq] at ranHere
  obtain ⟨n, q, between, last, within, counted, restless, ranLast, still⟩ :=
    restless_of_iterate ranHere
  rw [Nat.zero_add] at counted
  -- The same n passes that change something, and then the one that does not.
  have ends (budget : Nat) (admits : n + 1 ≤ budget) :
      (problem.solve budget).run m =
        (.ok ⟨last.snapshots, problem.graph.exit, n + 1, last.regressions⟩, after) := by
    obtain ⟨spare, rfl⟩ := Nat.exists_eq_add_of_le admits
    have split : n + 1 + spare = n + (spare + 1) := by omega
    rw [solve_eq, split, restless.iterate_onward, iterate_still ranLast still, Nat.zero_add]
  have same := (ends limit within).symm.trans ran
  refine ⟨by omega, by omega, fun budget => ⟨fun admits => ?_, fun spent => ?_⟩⟩
  · rw [ends budget (counted ▸ admits)]
    exact same
  · obtain ⟨r, cut, before⟩ := restless.take (Nat.le_of_lt_succ (counted ▸ spent))
    refine ⟨cut, ?_⟩
    rw [solve_eq]
    exact before.iterate_onward budget 0 0

/-- The run counts its visits in its memory, and its fifth pass is the first to change nothing. -/
theorem roundabout_budget_only_cuts_off :
    ∃ solution after, (roundabout.solve 10).run 0 = (.ok solution, after) ∧
      solution.iterations = 5 ∧ (roundabout.solve 5).run 0 = (.ok solution, after) ∧
      (∃ between, (roundabout.solve 4).run 0 = (.error (.notConverged "roundabout" 4), between)) ∧
      ∃ between, (roundabout.solve 0).run 0 = (.error (.notConverged "roundabout" 0), between) := by
  have shape : ((roundabout.solve 10).run 0).1.toOption.map Solution.iterations = some 5 := by
    decide +kernel
  rcases ran : (roundabout.solve 10).run 0 with ⟨error | solution, after⟩
  · simp [ran, Except.toOption] at shape
  · have passes : solution.iterations = 5 := by simpa [ran, Except.toOption] using shape
    obtain ⟨-, -, budgets⟩ := budget_only_cuts_off ran
    refine ⟨solution, after, rfl, passes, ?_, ?_, ?_⟩
    · exact (budgets 5).1 (by omega)
    · exact (budgets 4).2 (by omega)
    · exact (budgets 0).2 (by omega)

end PathCompletion.Problem
