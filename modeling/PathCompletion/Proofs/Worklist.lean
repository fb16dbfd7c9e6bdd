import Mathlib.Algebra.GroupWithZero.Nat
import Mathlib.Algebra.Order.BigOperators.Group.List
import Mathlib.Algebra.Order.Group.Nat
import Mathlib.Logic.Function.Iterate
import PathCompletion.Proofs.Walk

/-!
Searches by a list of pending nodes. A turn takes the node that was put there last. It is the
one looked for, or it was seen before and nothing more comes of it, or it is seen now and what
follows it is pending too. The search ends after no more turns than there are starts and
links, and it has found its goal exactly if a start leads there.
-/

namespace PathCompletion

structure Worklist (α : Type) where
  pending : List α
  seen : List α := []
  found : Bool := false

namespace Worklist

variable {α : Type} {next : α → List α} {goal : α → Bool} {starts : List α} {w : Worklist α}

def Ended (w : Worklist α) : Prop := w.found = true ∨ w.pending = []

variable [DecidableEq α]

def turn (next : α → List α) (goal : α → Bool) (w : Worklist α) : Worklist α :=
  if w.found then w
  else match w.pending with
    | [] => w
    | a :: rest =>
        if goal a then { w with found := true }
        else if a ∈ w.seen then { w with pending := rest }
        else { w with pending := (next a).reverse ++ rest, seen := a :: w.seen }

/-- What a turn does, unless the search has ended. -/
theorem turn_cases (next : α → List α) (goal : α → Bool) (going : ¬ w.Ended) :
    ∃ a rest, w.pending = a :: rest ∧
      (goal a = true ∧ w.turn next goal = { w with found := true } ∨
        goal a = false ∧ a ∈ w.seen ∧ w.turn next goal = { w with pending := rest } ∨
        goal a = false ∧ a ∉ w.seen ∧ w.turn next goal =
          { w with pending := (next a).reverse ++ rest, seen := a :: w.seen }) := by
  obtain ⟨pending, seen, found⟩ := w
  simp only [Ended, not_or, Bool.not_eq_true] at going
  obtain ⟨rfl, some⟩ := going
  obtain ⟨a, rest, rfl⟩ := List.exists_cons_of_ne_nil some
  refine ⟨a, rest, rfl, ?_⟩
  cases reached : goal a with
  | true => exact .inl ⟨rfl, by simp [turn, reached]⟩
  | false =>
      by_cases before : a ∈ seen
      · exact .inr (.inl ⟨rfl, before, by simp [turn, reached, before]⟩)
      · exact .inr (.inr ⟨rfl, before, by simp [turn, reached, before]⟩)

/-! ### Every search ends -/

def unseenLinks (next : α → List α) (nodes seen : List α) : Nat :=
  (nodes.map fun x => if x ∈ seen then 0 else (next x).length).sum

def debt (next : α → List α) (nodes : List α) (w : Worklist α) : Nat :=
  w.pending.length + unseenLinks next nodes w.seen

theorem unseenLinks_nil (next : α → List α) (nodes : List α) :
    unseenLinks next nodes [] = (nodes.map fun x => (next x).length).sum := by
  simp [unseenLinks]

/-- To see a node takes its links out of the account. -/
theorem unseenLinks_cons_le (nodes : List α) {seen : List α} {a : α} (fresh : a ∉ seen)
    (known : a ∈ nodes ∨ next a = []) :
    (next a).length + unseenLinks next nodes (a :: seen) ≤ unseenLinks next nodes seen := by
  have fewer (x : α) : (if x ∈ a :: seen then 0 else (next x).length) ≤
      if x ∈ seen then 0 else (next x).length := by
    by_cases before : x ∈ seen
    · simp [before]
    · split <;> simp
  unfold unseenLinks
  induction nodes with
  | nil => simp_all
  | cons head rest ih =>
      simp only [List.map_cons, List.sum_cons]
      by_cases here : head = a
      · subst here
        have later : (rest.map fun x => if x ∈ head :: seen then 0 else (next x).length).sum ≤
            (rest.map fun x => if x ∈ seen then 0 else (next x).length).sum :=
          List.sum_le_sum fun x _ => fewer x
        rw [if_pos List.mem_cons_self, if_neg fresh]
        omega
      · have later := ih (known.imp_left fun listed =>
          (List.mem_cons.mp listed).resolve_left (Ne.symm here))
        have first := fewer head
        omega

/-! ### What the search knows -/

/-- What holds of a search from these starts at every turn: it looks at nothing that no start leads
to, and what follows a start or a node that was seen is not lost. -/
structure Explores (next : α → List α) (goal : α → Bool) (starts : List α) (w : Worklist α) :
    Prop where
  led : ∀ x ∈ w.pending, ∃ a ∈ starts, Reaches next a x
  begun : ∀ a ∈ starts, a ∈ w.seen ∨ a ∈ w.pending
  closed : ∀ x ∈ w.seen, ∀ y ∈ next x, y ∈ w.seen ∨ y ∈ w.pending
  missed : ∀ x ∈ w.seen, goal x = false
  found : w.found = true → ∃ a ∈ starts, ∃ x, Reaches next a x ∧ goal x = true

omit [DecidableEq α] in
theorem explores_start (next : α → List α) (goal : α → Bool) (starts : List α) :
    Explores next goal starts { pending := starts } where
  led x member := ⟨x, member, .refl x⟩
  begun _ member := .inr member
  closed := nofun
  missed := nofun
  found := nofun

section

variable {a : α} {rest : List α} (explores : Explores next goal starts w)
  (pending : w.pending = a :: rest)

include explores pending

omit [DecidableEq α] in
/-- A node that was seen can be taken off the list. -/
theorem Explores.pass (seen : a ∈ w.seen) :
    Explores next goal starts { w with pending := rest } := by
  have stays (x : α) (here : x ∈ w.seen ∨ x ∈ w.pending) : x ∈ w.seen ∨ x ∈ rest := by
    rw [pending, List.mem_cons] at here
    rcases here with before | rfl | later
    · exact .inl before
    · exact .inl seen
    · exact .inr later
  exact {
    led := fun x later => explores.led x (by simp [pending, later])
    begun := fun x listed => stays x (explores.begun x listed)
    closed := fun x before y edge => stays y (explores.closed x before y edge)
    missed := explores.missed
    found := explores.found }

omit [DecidableEq α] in
/-- Or it is seen now, and what follows it is put on the list. -/
theorem Explores.look (missed : goal a = false) :
    Explores next goal starts
      { w with pending := (next a).reverse ++ rest, seen := a :: w.seen } := by
  have stays (x : α) (here : x ∈ w.seen ∨ x ∈ w.pending) :
      x ∈ a :: w.seen ∨ x ∈ (next a).reverse ++ rest := by
    rw [pending, List.mem_cons] at here
    rcases here with seen | rfl | later
    · exact .inl (List.mem_cons_of_mem a seen)
    · exact .inl List.mem_cons_self
    · exact .inr (List.mem_append_right _ later)
  refine ⟨?_, fun x listed => stays x (explores.begun x listed), ?_, ?_, explores.found⟩
  · intro x member
    rcases List.mem_append.mp member with follows | later
    · obtain ⟨start, listed, leads⟩ := explores.led a (by simp [pending])
      exact ⟨start, listed, leads.snoc (List.mem_reverse.mp follows)⟩
    · exact explores.led x (by simp [pending, later])
  · intro x seen y edge
    rcases List.mem_cons.mp seen with rfl | before
    · exact .inr (List.mem_append_left _ (List.mem_reverse.mpr edge))
    · exact stays y (explores.closed x before y edge)
  · intro x seen
    rcases List.mem_cons.mp seen with rfl | before
    · exact missed
    · exact explores.missed x before

end

theorem Explores.after_turn (explores : Explores next goal starts w) (going : ¬ w.Ended) :
    Explores next goal starts (w.turn next goal) := by
  obtain ⟨a, rest, pending, ⟨reached, after⟩ | ⟨-, before, after⟩ | ⟨missed, fresh, after⟩⟩ :=
    turn_cases next goal going
  · rw [after]
    obtain ⟨start, listed, leads⟩ := explores.led a (by simp [pending])
    exact { explores with found := fun _ => ⟨start, listed, a, leads, reached⟩ }
  · exact after ▸ explores.pass pending before
  · exact after ▸ explores.look pending missed

omit [DecidableEq α] in
/-- A search that has ended without its goal has seen all that its starts lead to. -/
theorem Explores.found_iff (explores : Explores next goal starts w) (ended : w.Ended) :
    w.found = true ↔ ∃ a ∈ starts, ∃ x, Reaches next a x ∧ goal x = true := by
  refine ⟨explores.found, fun ⟨a, listed, x, leads, reached⟩ => ended.resolve_right ?_⟩
  intro nothing
  have kept (y : α) (here : y ∈ w.seen) (z : α) (edge : z ∈ next y) : z ∈ w.seen :=
    (explores.closed y here z edge).resolve_right (by simp [nothing])
  have first : a ∈ w.seen := (explores.begun a listed).resolve_right (by simp [nothing])
  rw [explores.missed x (leads.induct kept first)] at reached
  contradiction

/-- A turn pays off the debt, or finds the goal. -/
theorem debt_turn_lt (goal : α → Bool) {nodes : List α}
    (known : ∀ x, x ∉ nodes → next x = []) (going : ¬ w.Ended) :
    0 < w.debt next nodes ∧ ((w.turn next goal).Ended ∨
      (w.turn next goal).debt next nodes < w.debt next nodes) := by
  obtain ⟨a, rest, pending, ⟨-, after⟩ | ⟨-, -, after⟩ | ⟨-, fresh, after⟩⟩ :=
    turn_cases next goal going
  · refine ⟨?_, .inl (.inl (by rw [after]))⟩
    simp only [debt, pending, List.length_cons]
    omega
  · rw [after]
    simp only [debt, pending, List.length_cons]
    exact ⟨by omega, .inr (by omega)⟩
  · have fewer := unseenLinks_cons_le nodes fresh
      (Classical.or_iff_not_imp_left.mpr (known a))
    rw [after]
    simp only [debt, pending, List.length_cons, List.length_append, List.length_reverse]
    exact ⟨by omega, .inr (by omega)⟩

/-- From a search under way the end is no more turns away than its debt. -/
theorem Explores.ends {nodes : List α} (known : ∀ x, x ∉ nodes → next x = [])
    (explores : Explores next goal starts w) {budget : Nat}
    (enough : w.debt next nodes ≤ budget) :
    ∃ n ≤ budget, ((turn next goal)^[n] w).Ended ∧
      Explores next goal starts ((turn next goal)^[n] w) := by
  induction budget generalizing w with
  | zero =>
      have ended : w.Ended := by
        by_contra going
        have owed := (debt_turn_lt goal known going).1
        omega
      exact ⟨0, le_refl 0, ended, explores⟩
  | succ budget ih =>
      by_cases ended : w.Ended
      · exact ⟨0, Nat.zero_le _, ended, explores⟩
      · have later := explores.after_turn ended
        rcases (debt_turn_lt goal known ended).2 with last | fewer
        · exact ⟨1, by omega, last, later⟩
        · obtain ⟨n, within, endedThen, exploresThen⟩ := ih later (by omega)
          exact ⟨n + 1, by omega, endedThen, exploresThen⟩

/-- A search ends after no more turns than there are starts and links, with its goal found exactly
if a start leads there. -/
theorem search_ends (next : α → List α) (goal : α → Bool) {nodes : List α}
    (known : ∀ x, x ∉ nodes → next x = []) (starts : List α) :
    ∃ n ≤ starts.length + (nodes.map fun x => (next x).length).sum, ∃ w : Worklist α,
      (turn next goal)^[n] { pending := starts } = w ∧ w.Ended ∧
        (w.found = true ↔ ∃ a ∈ starts, ∃ x, Reaches next a x ∧ goal x = true) := by
  have debt : debt next nodes { pending := starts } ≤
      starts.length + (nodes.map fun x => (next x).length).sum := by
    rw [Worklist.debt, unseenLinks_nil]
  obtain ⟨n, within, ended, explores⟩ := (explores_start next goal starts).ends known debt
  exact ⟨n, within, _, rfl, ended, explores.found_iff ended⟩

end Worklist

end PathCompletion
