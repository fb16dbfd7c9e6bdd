import PathCompletion.Flow.Procedure
import PathCompletion.Proofs.Chain

/-!
Trees of operations. An operation is listed among those below another exactly if a chain of
operands leads there: no chain that matters is longer than the arena.
-/

namespace PathCompletion.Procedure

variable {p : Procedure} {n : Nat} {a b : OperationId} {op : Operation}

def operands (p : Procedure) (id : OperationId) : List OperationId :=
  match p.operation? id with
  | some op => op.children
  | none => []

def Below (p : Procedure) (root : OperationId) (op : Operation) : Prop :=
  ∃ id, Reaches p.operands root id ∧ p.operation? id = some op

/-- It is an operation, and a chain of operands leads to it from a root of the block. -/
def Evaluates (p : Procedure) (block : BlockId) (id : OperationId) : Prop :=
  (p.operation? id).isSome = true ∧
    ∃ b, p.graph.block? block = some b ∧ ∃ root ∈ b.roots, Reaches p.operands root id

theorem mem_postorderWithin_succ :
    op ∈ p.postorderWithin (n + 1) a ↔
      p.operation? a = some op ∨ ∃ b ∈ p.operands a, op ∈ p.postorderWithin n b := by
  rw [postorderWithin, operands]
  cases found : p.operation? a with
  | none => simp
  | some root => simp [or_comm, eq_comm]

theorem postorderWithin_mono (listed : op ∈ p.postorderWithin n a) :
    op ∈ p.postorderWithin (n + 1) a := by
  induction n generalizing a with
  | zero => exact absurd listed List.not_mem_nil
  | succ n ih =>
      refine mem_postorderWithin_succ.mpr ((mem_postorderWithin_succ.mp listed).imp_right ?_)
      exact fun ⟨b, operand, below⟩ => ⟨b, operand, ih below⟩

theorem below_of_mem (listed : op ∈ p.postorderWithin n a) : p.Below a op := by
  induction n generalizing a with
  | zero => exact absurd listed List.not_mem_nil
  | succ n ih =>
      rcases mem_postorderWithin_succ.mp listed with here | ⟨b, operand, below⟩
      · exact ⟨a, .refl a, here⟩
      · obtain ⟨id, reaches, found⟩ := ih below
        exact ⟨id, .step operand reaches, found⟩

theorem exists_mem_of_reaches (reaches : Reaches p.operands a b)
    (found : p.operation? b = some op) : ∃ n, op ∈ p.postorderWithin n a := by
  induction reaches with
  | refl => exact ⟨1, mem_postorderWithin_succ.mpr (.inl found)⟩
  | step operand _ ih =>
      obtain ⟨n, below⟩ := ih found
      exact ⟨n + 1, mem_postorderWithin_succ.mpr (.inr ⟨_, operand, below⟩)⟩

def places (p : Procedure) : List OperationId := (List.range p.operations.length).map .mk

theorem mem_places_iff : a ∈ p.places ↔ a.index < p.operations.length := by
  rw [places, List.mem_map]
  exact ⟨fun ⟨i, inside, same⟩ => same ▸ List.mem_range.mp inside,
    fun inside => ⟨a.index, List.mem_range.mpr inside, rfl⟩⟩

theorem operation?_of_not_mem_places (outside : a ∉ p.places) : p.operation? a = none :=
  List.getElem?_eq_none (Nat.le_of_not_lt (mt mem_places_iff.mpr outside))

theorem mem_places (listed : op ∈ p.postorderWithin (n + 1) a) : a ∈ p.places := by
  by_contra outside
  simp [postorderWithin, operation?_of_not_mem_places outside] at listed

theorem mem_postorder_iff : op ∈ p.postorder a ↔ p.Below a op := by
  refine ⟨below_of_mem, fun ⟨b, reaches, found⟩ => ?_⟩
  obtain ⟨n, listed⟩ := exists_mem_of_reaches reaches found
  have onward (n : Nat) (a : OperationId) (now : op ∈ p.postorderWithin (n + 2) a)
      (before : op ∉ p.postorderWithin (n + 1) a) :
      ∃ b, op ∈ p.postorderWithin (n + 1) b ∧ op ∉ p.postorderWithin n b := by
    rcases mem_postorderWithin_succ.mp now with here | ⟨b, operand, below⟩
    · exact absurd (mem_postorderWithin_succ.mpr (.inl here)) before
    · refine ⟨b, below, fun earlier => before ?_⟩
      exact mem_postorderWithin_succ.mpr (.inr ⟨b, operand, earlier⟩)
  have within := @settled_within _ (fun n a => op ∈ p.postorderWithin n a)
    (fun _ _ => postorderWithin_mono) onward _ (fun _ _ => mem_places) _ _ listed
  simpa [postorder, places] using within

end PathCompletion.Procedure
