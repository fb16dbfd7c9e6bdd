import Mathlib.Order.Preorder.Finite
import PathCompletion.Proofs.Fixpoint.Ascent

/-!
Passes that never settle. What a pass does depends on the states on the edges alone, so where
these come from a finite set the passes either settle or come back to states they have left
and circulate for ever. No view in which states rise sees a circulation move.
-/

namespace PathCompletion

variable {σ V K : Type} [DecidableEq V]

/-! ### A pass depends on the edges alone -/

def Progress.Agrees (p q : Progress V) : Prop := p.edges = q.edges ∧ p.changed = q.changed

theorem Progress.Agrees.record {p q : Progress V} (agrees : p.Agrees q) (d : Domain V)
    (slot : Slot) (v : V) : (p.record d slot v).Agrees (q.record d slot v) := by
  obtain ⟨edges, changed⟩ := agrees
  unfold Progress.record
  rw [edges]
  split
  · exact ⟨rfl, rfl⟩
  · split
    · exact ⟨edges, changed⟩
    · exact ⟨rfl, rfl⟩

namespace Problem

variable {problem : Problem σ V} {motion : Motion V}

theorem send_agrees {p q : Progress V} (agrees : p.Agrees q) (block : Block) (output : V) :
    (problem.send motion block output p).Agrees (problem.send motion block output q) := by
  unfold send
  generalize block.successors.zipIdx = pairs
  induction pairs generalizing p q with
  | nil => exact agrees
  | cons first rest ih => exact ih (agrees.record _ _ _)

theorem advance_agrees {p q : Progress V} (agrees : p.Agrees q) (id : BlockId) :
    (problem.advance motion p id).Agrees (problem.advance motion q id) := by
  unfold advance
  rw [agrees.1]
  split
  · exact send_agrees agrees _ _
  · exact agrees

theorem round_agrees {p q : Progress V} (edges : p.edges = q.edges) :
    (problem.round motion p).Agrees (problem.round motion q) := by
  have all (ids : List BlockId) {p q : Progress V} (agrees : p.Agrees q) :
      (ids.foldl (problem.advance motion) p).Agrees (ids.foldl (problem.advance motion) q) := by
    induction ids generalizing p q with
    | nil => exact agrees
    | cons first rest ih => exact ih (advance_agrees agrees first)
  exact all _ ⟨edges, rfl⟩

theorem after_congr {other : Problem σ V} (graph : problem.graph = other.graph)
    (domain : problem.domain = other.domain)
    (initial : problem.transfer.initial = other.transfer.initial) (motion : Motion V) :
    problem.after motion = other.after motion := by
  obtain ⟨_, _, _, _, _, _, _⟩ := problem
  obtain ⟨_, _, _, _, _, _, _⟩ := other
  cases graph
  cases domain
  cases initial
  rfl

theorem after_edges {i j : Nat}
    (edges : (problem.after motion i).edges = (problem.after motion j).edges) (t : Nat) :
    (problem.after motion (i + t)).edges = (problem.after motion (j + t)).edges := by
  induction t with
  | zero => exact edges
  | succ t ih =>
      rw [← Nat.add_assoc, ← Nat.add_assoc, after_succ, after_succ]
      exact (round_agrees ih).1

theorem after_changed {i j : Nat}
    (edges : (problem.after motion i).edges = (problem.after motion j).edges) :
    (problem.after motion (i + 1)).changed = (problem.after motion (j + 1)).changed := by
  rw [after_succ, after_succ]
  exact (round_agrees edges).2

/-! ### Settling and circulating -/

def Settles (problem : Problem σ V) (motion : Motion V) : Prop :=
  ∃ n, (problem.after motion (n + 1)).changed = false

def Circulates (problem : Problem σ V) (motion : Motion V) : Prop :=
  ∃ i j, i < j ∧ (problem.after motion i).edges = (problem.after motion j).edges ∧
    (problem.after motion (i + 1)).changed = true

theorem edges_of_settled {n : Nat} (still : (problem.after motion (n + 1)).changed = false)
    (t : Nat) : (problem.after motion (n + t)).edges = (problem.after motion n).edges := by
  have same : (problem.after motion (n + 1)).edges = (problem.after motion n).edges := by
    rw [after_succ] at still ⊢
    exact (round_of_unchanged still).1
  induction t with
  | zero => rfl
  | succ t ih =>
      rw [Nat.add_comm t, ← Nat.add_assoc]
      exact (after_edges same t).trans ih

theorem edges_of_period {i j : Nat} (below : i < j)
    (edges : (problem.after motion i).edges = (problem.after motion j).edges) (k : Nat) :
    (problem.after motion (i + k * (j - i))).edges = (problem.after motion i).edges := by
  induction k with
  | zero => rw [Nat.zero_mul, Nat.add_zero]
  | succ k ih =>
      have further := after_edges ih (j - i)
      rw [Nat.add_sub_cancel' (Nat.le_of_lt below), ← edges, Nat.add_assoc,
        ← Nat.succ_mul] at further
      exact further

theorem exists_period_ge {i j : Nat} (below : i < j)
    (edges : (problem.after motion i).edges = (problem.after motion j).edges) (n : Nat) :
    ∃ t, (problem.after motion (n + t)).edges = (problem.after motion i).edges := by
  have positive : 0 < j - i := Nat.sub_pos_of_lt below
  have far : n ≤ i + n * (j - i) :=
    (Nat.le_mul_of_pos_right n positive).trans (Nat.le_add_left _ i)
  obtain ⟨t, place⟩ := Nat.exists_eq_add_of_le far
  exact ⟨t, place ▸ edges_of_period below edges n⟩

theorem Circulates.not_settles (circulates : problem.Circulates motion) :
    ¬ problem.Settles motion := by
  rintro ⟨n, still⟩
  obtain ⟨i, j, below, edges, changed⟩ := circulates
  obtain ⟨t, again⟩ := exists_period_ge below edges n
  rw [← after_changed again, after_changed (edges_of_settled still t), still] at changed
  contradiction

/-- Where the states on the edges come from a finite set, passes that do not settle circulate. -/
theorem settles_iff_not_circulates {states : Set (SortedMap Slot V)} (finite : states.Finite)
    (inside : ∀ n, (problem.after motion n).edges ∈ states) :
    problem.Settles motion ↔ ¬ problem.Circulates motion := by
  constructor
  · exact fun settles circulates => circulates.not_settles settles
  · intro still
    by_contra unsettled
    -- Two of infinitely many passes leave the same states on the edges.
    obtain ⟨i, j, below, edges⟩ := finite.exists_lt_map_eq_of_forall_mem inside
    refine still ⟨i, j, below, edges, ?_⟩
    cases moved : (problem.after motion (i + 1)).changed with
    | true => rfl
    | false => exact absurd ⟨i, moved⟩ unsettled

/-! ### Views in which states rise -/

theorem send_of_listed {block : Block} {output : V} {p : Progress V}
    (listed : ∀ i edge, block.successors[i]? = some edge →
      p.edges.get? ⟨block.id, i⟩ = some (motion.along block edge output)) :
    problem.send motion block output p = p := by
  have pairs : ∀ pair ∈ block.successors.zipIdx,
      p.edges.get? ⟨block.id, pair.2⟩ = some (motion.along block pair.1 output) :=
    fun pair member => listed pair.2 pair.1 (List.mem_zipIdx_iff_getElem?.mp member)
  unfold send
  generalize block.successors.zipIdx = all at pairs
  induction all with
  | nil => rfl
  | cons first rest ih =>
      obtain ⟨edge, index⟩ := first
      have here :
          p.record problem.domain ⟨block.id, index⟩ (motion.along block edge output) = p := by
        simp [Progress.record, pairs (edge, index) List.mem_cons_self]
      rw [List.foldl_cons]
      dsimp only
      rw [here]
      exact ih fun pair later => pairs pair (List.mem_cons_of_mem _ later)

theorem advance_of_same_edges {p : Progress V} {id : BlockId}
    (same : (problem.advance motion p id).edges = p.edges) :
    (problem.advance motion p id).changed = p.changed := by
  rcases problem.advance_cases motion p id with ⟨-, kept⟩ | ⟨block, input, -, -, moved⟩
  · rw [kept]
  · rw [moved] at same ⊢
    have sent : problem.send motion block (motion.through block input) p = p := by
      apply send_of_listed
      intro i edge listed
      rw [← same]
      exact get?_send_of_listed listed _ p
    change (problem.send motion block (motion.through block input) p).changed = p.changed
    rw [sent]

variable [SemilatticeSup K] {view : V → K} {holds : BlockId → V → Prop}
  {edges raised : SortedMap Slot V}

omit [DecidableEq V] in
theorem Lifts.view_eq (up : Lifts view edges raised) (down : Lifts view raised edges)
    (slot : Slot) : (edges.get? slot).map view = (raised.get? slot).map view := by
  cases found : edges.get? slot with
  | none =>
      cases foundRaised : raised.get? slot with
      | none => rfl
      | some w =>
          obtain ⟨v, foundToo, -⟩ := down slot w foundRaised
          rw [found] at foundToo
          contradiction
  | some v =>
      obtain ⟨w, foundRaised, above⟩ := up slot v found
      obtain ⟨u, foundToo, under⟩ := down slot w foundRaised
      rw [found, Option.some.injEq] at foundToo
      rw [foundRaised, Option.map_some, Option.map_some, Option.some.injEq]
      exact le_antisymm above (foundToo ▸ under)

/-- Whatever circulates, no view in which states rise sees it move. -/
theorem Rises.view_of_circulates (rises : problem.Rises motion holds view)
    (valid : problem.graph.Valid) (circulates : problem.Circulates motion) :
    ∃ i, ∀ t slot, ((problem.after motion (i + t)).edges.get? slot).map view =
      ((problem.after motion i).edges.get? slot).map view := by
  obtain ⟨i, j, below, edges, -⟩ := circulates
  refine ⟨i, fun t slot => ?_⟩
  -- Pass `i + t` lies between pass `i` and a later one with the same states.
  obtain ⟨u, again⟩ := exists_period_ge below edges (i + t)
  have up := rises.after_lifts valid (Nat.le_add_right i t)
  have down := rises.after_lifts valid (Nat.le_add_right (i + t) u)
  rw [again] at down
  exact (up.view_eq down slot).symm

omit [DecidableEq V] in
theorem Lifts.antisymm
    (injective : ∀ id u v, holds id u → holds id v → view u = view v → u = v)
    (good : problem.EdgesHold holds edges) (goodRaised : problem.EdgesHold holds raised)
    (up : Lifts view edges raised) (down : Lifts view raised edges) : edges = raised := by
  apply SortedMap.ext
  intro slot
  have same := up.view_eq down slot
  cases found : edges.get? slot with
  | none =>
      rw [found, Option.map_none, eq_comm, Option.map_eq_none_iff] at same
      exact same.symm
  | some v =>
      rw [found, Option.map_some, eq_comm, Option.map_eq_some_iff] at same
      obtain ⟨w, foundRaised, looks⟩ := same
      obtain ⟨-, block, edge, stored, listed, now⟩ := good slot v found
      obtain ⟨-, _, _, storedToo, listedToo, nowRaised⟩ := goodRaised slot w foundRaised
      rw [stored, Option.some.injEq] at storedToo
      subst storedToo
      rw [listed, Option.some.injEq] at listedToo
      subst listedToo
      rw [foundRaised, injective _ w v nowRaised now looks]

/-- Visits that end no higher than they began have changed nothing on the way. -/
theorem Rises.foldl_advance_still (rises : problem.Rises motion holds view)
    (valid : problem.graph.Valid)
    (injective : ∀ id u v, holds id u → holds id v → view u = view v → u = v)
    (ids : List BlockId) (listed : ∀ id ∈ ids, id ∈ problem.graph.plan.order) {p : Progress V}
    (good : problem.EdgesHold holds p.edges) (below : problem.Below motion view p.edges)
    (down : Lifts view (ids.foldl (problem.advance motion) p).edges p.edges) :
    (ids.foldl (problem.advance motion) p).changed = p.changed := by
  induction ids generalizing p with
  | nil => rfl
  | cons first rest ih =>
      rw [List.foldl_cons] at down ⊢
      have here := listed first List.mem_cons_self
      have later := fun id member => listed id (List.mem_cons_of_mem first member)
      obtain ⟨up, belowNext⟩ := rises.advance valid good below here
      have goodNext := advance_edgesHold valid rises.invariant good here
      have upRest := (rises.foldl_advance valid rest later goodNext belowNext).1
      -- The edges after the first visit lie between those before it and those at the end.
      have same := Lifts.antisymm injective good goodNext up (upRest.trans down)
      rw [ih later goodNext belowNext (same ▸ down)]
      exact advance_of_same_edges same.symm

/-- Where the states rise in a view that tells them apart, nothing circulates. -/
theorem Rises.not_circulates (rises : problem.Rises motion holds view)
    (valid : problem.graph.Valid)
    (injective : ∀ id u v, holds id u → holds id v → view u = view v → u = v) :
    ¬ problem.Circulates motion := by
  rintro ⟨i, j, before, edges, changed⟩
  -- The states after pass `i + 1` are below those after pass `j`, which are those it began with.
  have down := rises.after_lifts valid before
  rw [← edges, after_succ] at down
  rw [after_succ] at changed
  have still : (problem.round motion (problem.after motion i)).changed = false :=
    rises.foldl_advance_still valid injective problem.graph.plan.order (fun _ listed => listed)
      (after_edgesHold valid rises.invariant i) (rises.after_below valid i) down
  rw [still] at changed
  contradiction

end Problem

end PathCompletion
