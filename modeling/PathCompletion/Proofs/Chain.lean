import Mathlib.Data.List.Nodup
import Mathlib.Data.Set.Finite.List
import Mathlib.Order.WellFounded
import PathCompletion.Proofs.Walk

/-!
Chains of steps among finitely many nodes. A chain that can always go on, or always go back,
runs into a cycle, and one that ends needs no more steps than there are nodes.
-/

namespace PathCompletion

variable {α : Type} {next : α → List α}

def OnCycle (next : α → List α) (z : α) : Prop := ∃ y ∈ next z, Reaches next y z

/-- Among finitely many nodes, none of them on a cycle, some are led to by none of the others,
and some lead to none of the others. -/
theorem exists_ends {nodes : List α} {among : α → Prop} (listed : ∀ x, among x → x ∈ nodes)
    (acyclic : ∀ x, among x → ¬ OnCycle next x) {x : α} (here : among x) :
    (∃ first, among first ∧ ∀ y, among y → first ∉ next y) ∧
      ∃ last, among last ∧ ∀ y, among y → y ∉ next last := by
  let leads (a b : { x // among x }) : Prop := ∃ y ∈ next a.1, Reaches next y b.1
  have irrefl : Std.Irrefl leads := ⟨fun a round => acyclic a.1 a.2 round⟩
  have trans : IsTrans _ leads :=
    ⟨fun a b c ⟨y, edge, first⟩ ⟨z, edgeToo, second⟩ =>
      ⟨y, edge, first.trans (.step edgeToo second)⟩⟩
  have finite : Finite { x // among x } := (nodes.finite_toSet.subset listed).to_subtype
  constructor
  · have founded : WellFounded leads := Finite.wellFounded_of_trans_of_irrefl leads
    obtain ⟨first, -, least⟩ := founded.has_min Set.univ ⟨⟨x, here⟩, trivial⟩
    refine ⟨first.1, first.2, fun y before edge => ?_⟩
    exact least ⟨y, before⟩ trivial ⟨first.1, edge, .refl _⟩
  · have founded : WellFounded (Function.swap leads) :=
      Finite.wellFounded_of_trans_of_irrefl (Function.swap leads)
    obtain ⟨last, -, greatest⟩ := founded.has_min Set.univ ⟨⟨x, here⟩, trivial⟩
    refine ⟨last.1, last.2, fun y after edge => ?_⟩
    exact greatest ⟨y, after⟩ trivial ⟨y, edge, .refl _⟩

/-- Among finitely many nodes of which each follows another, some are on a cycle. -/
theorem exists_onCycle {nodes : List α} {among : α → Prop}
    (listed : ∀ x, among x → x ∈ nodes) (preceded : ∀ x, among x → ∃ y, among y ∧ x ∈ next y)
    {x : α} (here : among x) : ∃ z, among z ∧ OnCycle next z := by
  by_contra none
  obtain ⟨⟨first, isFirst, unled⟩, -⟩ :=
    exists_ends listed (fun z inside cycle => none ⟨z, inside, cycle⟩) here
  obtain ⟨y, before, edge⟩ := preceded first isFirst
  exact unled y before edge

/-- Among finitely many nodes of which each is followed by another, some are on a cycle. -/
theorem exists_onCycle_of_followed {nodes : List α} {among : α → Prop}
    (listed : ∀ x, among x → x ∈ nodes) (followed : ∀ x, among x → ∃ y ∈ next x, among y)
    {x : α} (here : among x) : ∃ z, among z ∧ OnCycle next z := by
  by_contra none
  obtain ⟨-, last, isLast, stops⟩ :=
    exists_ends listed (fun z inside cycle => none ⟨z, inside, cycle⟩) here
  obtain ⟨y, edge, after⟩ := followed last isLast
  exact stops y after edge

/-- A node that leads to a cycle is followed by one that does. -/
theorem Reaches.onward {y z : α} (reaches : Reaches next y z) (cycle : OnCycle next z) :
    ∃ x ∈ next y, Reaches next x z := by
  cases reaches with
  | refl => exact cycle
  | step edge rest => exact ⟨_, edge, rest⟩

/-! ### How many steps are enough -/

section

variable {settled : Nat → α → Prop} (mono : ∀ n a, settled n a → settled (n + 1) a)
  (onward : ∀ n a, settled (n + 2) a → ¬ settled (n + 1) a →
    ∃ b, settled (n + 1) b ∧ ¬ settled n b)

include mono onward

/-- A node that needs as many steps is the first of as many nodes, as no two of these need the
same number of steps. -/
theorem exists_nodup_of_settled {n : Nat} {a : α} (now : settled (n + 1) a)
    (before : ¬ settled n a) :
    ∃ nodes : List α, nodes.Nodup ∧ nodes.length = n + 1 ∧ ∀ x ∈ nodes, settled (n + 1) x := by
  induction n generalizing a with
  | zero => exact ⟨[a], List.nodup_singleton a, rfl, fun x member => by simp_all⟩
  | succ n ih =>
      obtain ⟨b, nowNext, beforeNext⟩ := onward n a now before
      obtain ⟨nodes, nodup, length, all⟩ := ih nowNext beforeNext
      refine ⟨a :: nodes, List.nodup_cons.mpr ⟨fun member => before (all a member), nodup⟩,
        congrArg (· + 1) length, ?_⟩
      intro x member
      rcases List.mem_cons.mp member with rfl | later
      · exact now
      · exact mono _ x (all x later)

/-- What is ever settled is settled after as many steps as there are nodes. -/
theorem settled_within {nodes : List α} (listed : ∀ n a, settled (n + 1) a → a ∈ nodes) {n : Nat}
    {a : α} (ever : settled n a) : settled nodes.length a := by
  classical
  have grows (k m : Nat) (now : settled k a) : settled (k + m) a := by
    induction m with
    | zero => exact now
    | succ m ih => exact mono _ a ih
  have exists_least : ∃ k, settled k a := ⟨n, ever⟩
  have least := Nat.find_spec exists_least
  have bound : Nat.find exists_least ≤ nodes.length := by
    cases need : Nat.find exists_least with
    | zero => exact Nat.zero_le _
    | succ k =>
        rw [need] at least
        have before : ¬ settled k a := Nat.find_min exists_least (by omega)
        obtain ⟨chain, nodup, length, all⟩ :=
          exists_nodup_of_settled mono onward least before
        rw [← length]
        exact (nodup.subperm fun x member => listed k x (all x member)).length_le
  obtain ⟨m, total⟩ := Nat.exists_eq_add_of_le bound
  rw [total]
  exact grows _ m least

end

end PathCompletion
