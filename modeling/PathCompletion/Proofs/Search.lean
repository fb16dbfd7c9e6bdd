import Mathlib.Logic.Function.Iterate
import PathCompletion.Proofs.Walk

/-!
The depth-first walk as a loop with a stack. The nodes that the walk is on its way from are
kept with the number of their successors that were looked at. The loop ends, and has met and
left what the walk has.
-/

namespace PathCompletion

/-- A walk under way: the open nodes, innermost first, each with the place of the successor
that is looked at next. -/
structure Search (α : Type) where
  stack : List (α × Nat)
  walk : Walk α

namespace Search

variable {α : Type}

def start (a : α) : Search α := ⟨[(a, 0)], { met := [a] }⟩

variable [DecidableEq α] {next : α → List α} {s t : Search α}

/-- Looks at one more successor of the innermost node, or leaves the node after its last. A
successor is met when it is put on the stack. -/
def step (next : α → List α) (s : Search α) : Search α :=
  match s.stack with
  | [] => s
  | (a, i) :: rest =>
      match (next a)[i]? with
      | some b =>
          if b ∈ s.walk.met then { s with stack := (a, i + 1) :: rest }
          else ⟨(b, 0) :: (a, i + 1) :: rest, { s.walk with met := b :: s.walk.met }⟩
      | none => ⟨rest, { s.walk with left := a :: s.walk.left }⟩

def LeadsTo (next : α → List α) (s t : Search α) : Prop := ∃ n, (step next)^[n] s = t

theorem LeadsTo.refl (s : Search α) : LeadsTo next s s := ⟨0, rfl⟩

theorem LeadsTo.step (rest : LeadsTo next (s.step next) t) : LeadsTo next s t := by
  obtain ⟨n, ran⟩ := rest
  exact ⟨n + 1, ran⟩

theorem LeadsTo.trans {u : Search α} (first : LeadsTo next s t) (second : LeadsTo next t u) :
    LeadsTo next s u := by
  obtain ⟨n, rfl⟩ := first
  obtain ⟨m, rfl⟩ := second
  exact ⟨m + n, Function.iterate_add_apply _ m n s⟩

theorem visit_of_met {fuel : Nat} {a : α} {w : Walk α} (met : a ∈ w.met) :
    Walk.visit next fuel a w = w := by
  cases fuel with
  | zero => rfl
  | succ fuel => simp [Walk.visit, met]

variable {nodes : List α} (closed : ∀ x ∈ nodes, ∀ y ∈ next x, y ∈ nodes)

include closed

/-- With the first successors of a node looked at, the loop goes through the others as the walk
does, and leaves the node. -/
theorem leadsTo_foldl {fuel : Nat}
    (single : ∀ b ∈ nodes, ∀ (w : Walk α) rest, b ∉ w.met → Walk.unmet nodes w ≤ fuel →
      LeadsTo next ⟨(b, 0) :: rest, { w with met := b :: w.met }⟩
        ⟨rest, Walk.visit next fuel b w⟩)
    {a : α} (member : a ∈ nodes) (rest : List (α × Nat)) (done todo : List α)
    (split : next a = done ++ todo) (w : Walk α) (enough : Walk.unmet nodes w ≤ fuel) :
    LeadsTo next ⟨(a, done.length) :: rest, w⟩
      ⟨rest, let below := todo.foldl (fun w b => Walk.visit next fuel b w) w
        { below with left := a :: below.left }⟩ := by
  -- A frame counts the successors it has looked at, so the induction is on the rest.
  induction todo generalizing done w with
  | nil =>
      have last : (next a)[done.length]? = none := by simp [split]
      apply LeadsTo.step
      simp only [step, last]
      exact .refl _
  | cons b todo ih =>
      have place : (next a)[done.length]? = some b := by simp [split]
      have inside : b ∈ nodes := closed a member b (by simp [split])
      have later (v : Walk α) (enough : Walk.unmet nodes v ≤ fuel) :=
        ih (done ++ [b]) (by simp [split]) v enough
      simp only [List.length_append, List.length_cons, List.length_nil] at later
      rw [List.foldl_cons]
      apply LeadsTo.step
      by_cases met : b ∈ w.met
      · simp only [step, place, met, ↓reduceIte]
        rw [visit_of_met met]
        exact later w enough
      · simp only [step, place, met, ↓reduceIte]
        obtain ⟨grown, -⟩ := Walk.visit_grown closed fuel b inside w enough
        exact (single b inside w _ met enough).trans
          (later _ (Nat.le_trans (Walk.unmet_le_of_met grown.met) enough))

/-- From a node that was just met the loop comes to where the walk from it ends. -/
theorem leadsTo_visit (fuel : Nat) : ∀ a ∈ nodes, ∀ (w : Walk α) rest, a ∉ w.met →
    Walk.unmet nodes w ≤ fuel → LeadsTo next ⟨(a, 0) :: rest, { w with met := a :: w.met }⟩
      ⟨rest, Walk.visit next fuel a w⟩ := by
  induction fuel with
  | zero =>
      intro a member w rest fresh enough
      have met := List.countP_eq_zero.mp (Nat.le_zero.mp enough) a member
      simp [fresh] at met
  | succ fuel ih =>
      intro a member w rest fresh enough
      have fewer := Walk.unmet_meet_lt member fresh
      rw [Walk.visit, if_neg fresh]
      exact leadsTo_foldl closed ih member rest [] (next a) rfl _ (by omega)

theorem start_leadsTo {fuel : Nat} {a : α} (member : a ∈ nodes) (enough : nodes.length ≤ fuel) :
    LeadsTo next (start a) ⟨[], Walk.visit next fuel a {}⟩ :=
  leadsTo_visit closed fuel a member {} [] (List.not_mem_nil)
    (Nat.le_trans List.countP_le_length enough)

end Search

end PathCompletion
