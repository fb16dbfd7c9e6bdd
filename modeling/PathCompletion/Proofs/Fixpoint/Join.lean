import Mathlib.Order.Lattice
import PathCompletion.Dataflow.Fixpoint

/-!
Joins of many values. `Joined values v` says that `v` is put together from all the values by
merging, in some order and with some bracketing; in a lawful domain the values determine `v`.
The input of a block is joined from what arrives there.
-/

namespace PathCompletion

variable {σ V : Type}

namespace Domain

structure Lawful (d : Domain V) : Prop where
  assoc : ∀ a b c, d.merge (d.merge a b) c = d.merge a (d.merge b c)
  comm : ∀ a b, d.merge a b = d.merge b a
  idem : ∀ a, d.merge a a = a

/-- All the values, merged in some order and with some bracketing. -/
inductive Joined (d : Domain V) : List V → V → Prop where
  | single (v : V) : Joined d [v] v
  | merge {left right : List V} {a b : V} (first : Joined d left a) (second : Joined d right b) :
      Joined d (left ++ right) (d.merge a b)
  | perm {values others : List V} {v : V} (joined : Joined d values v)
      (same : values.Perm others) : Joined d others v

variable {d : Domain V}

namespace Joined

theorem ne_nil {values : List V} {v : V} (joined : Joined d values v) : values ≠ [] := by
  induction joined with
  | single => simp
  | merge _ _ ih _ => simp [ih]
  | perm _ same ih => exact fun empty => ih (List.perm_nil.mp (empty ▸ same))

theorem induct {holds : V → Prop} (kept : ∀ a b, holds a → holds b → holds (d.merge a b))
    {values : List V} {v : V} (joined : Joined d values v) (all : ∀ w ∈ values, holds w) :
    holds v := by
  induction joined with
  | single v => exact all v List.mem_cons_self
  | merge _ _ ihFirst ihSecond =>
      apply kept
      · exact ihFirst fun w member => all w (List.mem_append_left _ member)
      · exact ihSecond fun w member => all w (List.mem_append_right _ member)
  | perm _ same ih => exact ih fun w member => all w (same.subset member)

theorem le {K : Type} [SemilatticeSup K] {view : V → K} (holds : V → Prop)
    (kept : ∀ a b, holds a → holds b → holds (d.merge a b))
    (sup : ∀ a b, holds a → holds b → view (d.merge a b) = view a ⊔ view b)
    {values : List V} {v : V} (joined : Joined d values v) (all : ∀ w ∈ values, holds w)
    {w : V} (part : w ∈ values) : view w ≤ view v := by
  induction joined with
  | single v => rw [List.mem_singleton.mp part]
  | @merge left right a b first second ihFirst ihSecond =>
      have allLeft : ∀ w ∈ left, holds w := fun w member => all w (List.mem_append_left _ member)
      have allRight : ∀ w ∈ right, holds w :=
        fun w member => all w (List.mem_append_right _ member)
      rw [sup a b (first.induct kept allLeft) (second.induct kept allRight)]
      rcases List.mem_append.mp part with here | there
      · exact (ihFirst allLeft here).trans le_sup_left
      · exact (ihSecond allRight there).trans le_sup_right
  | perm _ same ih => exact ih (fun w member => all w (same.subset member)) (same.symm.subset part)

end Joined

/-! ### The two ways in which inputs are joined -/

theorem joinOnto_none (d : Domain V) (first : V) (rest : List V) :
    d.joinOnto none (first :: rest) = d.joinOnto (some first) rest := rfl

theorem joinOnto_some (d : Domain V) (v : V) (values : List V) :
    d.joinOnto (some v) values = some (values.foldl d.merge v) := by
  induction values generalizing v with
  | nil => rfl
  | cons first rest ih => exact ih (d.merge v first)

theorem joined_foldl {known : List V} {v : V} (joined : Joined d known v) (values : List V) :
    Joined d (known ++ values) (values.foldl d.merge v) := by
  induction values generalizing known v with
  | nil => simpa using joined
  | cons first rest ih =>
      have next := ih (joined.merge (.single first))
      rwa [List.append_assoc] at next

theorem joined_of_joinOnto {start : Option V} {values : List V} {v : V}
    (found : d.joinOnto start values = some v) : Joined d (start.toList ++ values) v := by
  cases start with
  | some s =>
      rw [joinOnto_some] at found
      cases found
      exact joined_foldl (.single s) values
  | none =>
      cases values with
      | nil => contradiction
      | cons first rest =>
          rw [joinOnto_none, joinOnto_some] at found
          cases found
          exact joined_foldl (.single first) rest

theorem eq_nil_of_joinOnto {start : Option V} {values : List V}
    (absent : d.joinOnto start values = none) : start.toList ++ values = [] := by
  cases start with
  | some s => simp [joinOnto_some] at absent
  | none =>
      cases values with
      | nil => rfl
      | cons first rest => simp [joinOnto_none, joinOnto_some] at absent

theorem joined_of_mergeBackEdge {start : Option V} {forward back : List V} {v : V}
    (found : d.mergeBackEdge (d.joinOnto start forward) (d.joinOnto none back) = some v) :
    Joined d (start.toList ++ forward ++ back) v := by
  cases ahead : d.joinOnto start forward with
  | some a =>
      cases behind : d.joinOnto none back with
      | some b =>
          rw [ahead, behind] at found
          cases found
          exact (joined_of_joinOnto ahead).merge (joined_of_joinOnto behind)
      | none =>
          rw [ahead, behind] at found
          cases found
          have nothing : back = [] := eq_nil_of_joinOnto behind
          rw [nothing, List.append_nil]
          exact joined_of_joinOnto ahead
  | none =>
      rw [ahead] at found
      rw [eq_nil_of_joinOnto ahead]
      exact joined_of_joinOnto found

theorem eq_nil_of_mergeBackEdge {start : Option V} {forward back : List V}
    (absent : d.mergeBackEdge (d.joinOnto start forward) (d.joinOnto none back) = none) :
    start.toList ++ forward ++ back = [] := by
  cases ahead : d.joinOnto start forward with
  | some a => cases behind : d.joinOnto none back <;> simp [ahead, behind, mergeBackEdge] at absent
  | none =>
      rw [ahead] at absent
      have nothing : back = [] := eq_nil_of_joinOnto absent
      rw [eq_nil_of_joinOnto ahead, nothing]
      rfl

/-! ### Lawful joins -/

namespace Lawful

variable (lawful : d.Lawful)

include lawful

theorem merge_right_comm (a b c : V) : d.merge (d.merge a b) c = d.merge (d.merge a c) b := by
  rw [lawful.assoc, lawful.comm b c, ← lawful.assoc]

theorem foldl_merge (a b : V) (values : List V) :
    values.foldl d.merge (d.merge a b) = d.merge a (values.foldl d.merge b) := by
  induction values generalizing b with
  | nil => rfl
  | cons first rest ih => rw [List.foldl_cons, List.foldl_cons, lawful.assoc, ih]

theorem joinOnto_perm {values others : List V} (same : values.Perm others) :
    d.joinOnto none values = d.joinOnto none others := by
  apply same.foldl_eq'
  intro a _ b _ known
  cases known with
  | none => exact congrArg some (lawful.comm a b)
  | some v => exact congrArg some (lawful.merge_right_comm v a b)

/-- Every way of joining the same values gives the value that joining them in line gives. -/
theorem joinOnto_of_joined {values : List V} {v : V} (joined : Joined d values v) :
    d.joinOnto none values = some v := by
  induction joined with
  | single v => rfl
  | @merge left right a b _ second ihFirst ihSecond =>
      have appended : d.joinOnto none (left ++ right) = d.joinOnto (some a) right := by
        rw [← ihFirst]
        exact List.foldl_append
      rw [appended, joinOnto_some]
      -- The second list is not empty, so its join can be taken out of the fold.
      cases right with
      | nil => contradiction
      | cons first rest =>
          rw [joinOnto_none, joinOnto_some, Option.some.injEq] at ihSecond
          rw [List.foldl_cons, lawful.foldl_merge, ihSecond]
  | perm _ same ih => rw [← lawful.joinOnto_perm same, ih]

theorem joined_unique {values : List V} {v w : V} (first : Joined d values v)
    (second : Joined d values w) : v = w :=
  Option.some.inj ((lawful.joinOnto_of_joined first).symm.trans (lawful.joinOnto_of_joined second))

end Lawful

end Domain

/-! ### What arrives at a block -/

namespace Problem

def arrivals (problem : Problem σ V) (edges : SortedMap Slot V) (block : BlockId) : List V :=
  (if block = problem.graph.entry then [problem.transfer.initial] else []) ++
    (problem.graph.incomingSlots block).filterMap edges.get?

variable {problem : Problem σ V} {plan : Plan} {edges : SortedMap Slot V} {block : BlockId}

theorem arrivals_perm (problem : Problem σ V) (edges : SortedMap Slot V) (block : BlockId)
    (isBack : Slot → Bool) :
    ((if block = problem.graph.entry then some problem.transfer.initial else none).toList ++
      ((problem.graph.incomingSlots block).filter fun slot => !isBack slot).filterMap edges.get? ++
      ((problem.graph.incomingSlots block).filter isBack).filterMap edges.get?).Perm
      (problem.arrivals edges block) := by
  unfold arrivals
  have start :
      (if block = problem.graph.entry then some problem.transfer.initial else none).toList =
        if block = problem.graph.entry then [problem.transfer.initial] else [] := by
    split <;> rfl
  rw [start, List.append_assoc, ← List.filterMap_append]
  have split := List.filter_append_perm isBack (problem.graph.incomingSlots block)
  exact (((List.perm_append_comm.trans split).filterMap edges.get?).append_left _)

theorem joined_of_input? {input : V} (found : problem.input? plan edges block = some input) :
    problem.domain.Joined (problem.arrivals edges block) input :=
  (Domain.joined_of_mergeBackEdge found).perm (problem.arrivals_perm edges block _)

theorem input?_eq_none_iff :
    problem.input? plan edges block = none ↔ problem.arrivals edges block = [] := by
  constructor
  · intro absent
    have nothing := Domain.eq_nil_of_mergeBackEdge absent
    have same := problem.arrivals_perm edges block fun slot =>
      plan.back.contains ⟨slot.source, block⟩
    rw [nothing] at same
    exact List.nil_perm.mp same
  · intro nothing
    cases found : problem.input? plan edges block with
    | none => rfl
    | some input =>
        have joined := joined_of_input? found
        rw [nothing] at joined
        exact absurd rfl joined.ne_nil

end Problem

end PathCompletion
