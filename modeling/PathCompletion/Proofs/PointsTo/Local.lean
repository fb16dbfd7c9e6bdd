import PathCompletion.PointsTo.Local
import PathCompletion.Proofs.Completion.Rule

/-!
Where the locations of a local points-to analysis come from. Values are passed from operation
to operation and through cells, but nothing is ever passed that the procedure has not made: an
allocation of one of its operations, what one of its parameters holds, or the default of a
field.
-/

namespace PathCompletion

theorem SortedMap.mem_of_get?_foldl_insert {κ ν : Type} [Key κ] {entries : List (κ × ν)} {k : κ}
    {v : ν} {start : SortedMap κ ν}
    (found : (entries.foldl (fun m entry => m.insert entry.1 entry.2) start).get? k = some v) :
    (k, v) ∈ entries ∨ start.get? k = some v := by
  induction entries generalizing start with
  | nil => exact .inr found
  | cons first rest ih =>
      rcases ih found with later | now
      · exact .inl (List.mem_cons_of_mem first later)
      · rw [get?_insert] at now
        split at now
        · next here =>
          rw [Key.key_eq_iff] at here
          subst here
          cases now
          exact .inl List.mem_cons_self
        · exact .inr now

def OperationKind.allocates : OperationKind → Bool
  | .objectCreation .. | .invocation .. | .argument _ .out _ => true
  | _ => false

def OperationKind.mayEscape : OperationKind → Bool
  | .argument .. | .assignment .. | .returned _ | .delegateCreation .. => true
  | _ => false

def Location.owner? (l : Location) : Option ProcedureId :=
  match l.kind with
  | .allocation site => some site.procedure
  | .parameter procedure _ => some procedure
  | .null | .fieldDefault _ => none

namespace Procedure

inductive Makes (p : Procedure) : Location → Prop where
  | allocation {id : OperationId} {op : Operation} (found : p.operation? id = some op)
      (allocates : op.kind.allocates = true) : Makes p (p.allocation id op.ty)
  | parameter (index : Nat) (ty : TypeId) : Makes p ⟨.parameter p.id index, some ty⟩
  | fieldDefault (field : FieldId) (ty : Option TypeId) : Makes p ⟨.fieldDefault field, ty⟩

def MakesAll (p : Procedure) (locations : LocationSet) : Prop := ∀ l ∈ locations, p.Makes l

variable {p : Procedure}

theorem Makes.owner {l : Location} (made : p.Makes l) :
    l.isFieldDefault = true ∨ l.owner? = some p.id := by
  cases made with
  | allocation => exact .inr rfl
  | parameter => exact .inr rfl
  | fieldDefault => exact .inl rfl

theorem makesAll_empty : p.MakesAll ∅ := fun l member => absurd member (SortedSet.not_mem_empty l)

theorem makesAll_single {l : Location} (made : p.Makes l) (nullness : Nullness) :
    p.MakesAll (PointsTo.single l nullness).locations := by
  intro other member
  rw [SortedSet.mem_singleton.mp member]
  exact made

theorem MakesAll.union {s t : LocationSet} (left : p.MakesAll s) (right : p.MakesAll t) :
    p.MakesAll (s ∪ t) :=
  fun l member => (SortedSet.mem_union.mp member).elim (left l) (right l)

theorem parameterEntry_made (index : Nat) : p.MakesAll (p.parameterEntry index).locations := by
  unfold parameterEntry
  split
  · exact makesAll_single (.parameter ..) _
  · exact makesAll_empty

/-! ### Passes -/

structure MakesState (p : Procedure) (s : PointsToState) : Prop where
  value : ∀ id, p.MakesAll (s.value id).locations
  cell : ∀ cell, p.MakesAll (s.cell cell).locations

namespace MakesState

variable {s : PointsToState}

theorem empty : p.MakesState {} := ⟨fun _ => makesAll_empty, fun _ => makesAll_empty⟩

theorem widenValue (made : p.MakesState s) (id : OperationId) {v : PointsTo}
    (new : p.MakesAll v.locations) : p.MakesState (s.widenValue id v) := by
  refine ⟨fun other => ?_, made.cell⟩
  unfold PointsToState.value PointsToState.widenValue
  rw [SortedMap.get?_insert]
  split
  · exact (made.value id).union new
  · exact made.value other

theorem widenCell (made : p.MakesState s) (cell : Cell) {v : PointsTo}
    (new : p.MakesAll v.locations) : p.MakesState (s.widenCell cell v) := by
  refine ⟨made.value, fun other => ?_⟩
  unfold PointsToState.cell PointsToState.widenCell
  rw [SortedMap.get?_insert]
  split
  · exact (made.cell cell).union new
  · exact made.cell other

theorem evaluate (made : p.MakesState s) {id : OperationId} {op : Operation}
    (found : p.operation? id = some op) : p.MakesAll (p.evaluate s id op).locations := by
  have allocated (allocates : op.kind.allocates = true) (nullness : Nullness) :
      p.MakesAll (PointsTo.single (p.allocation id op.ty) nullness).locations :=
    makesAll_single (.allocation found allocates) nullness
  unfold Procedure.evaluate
  cases kind : op.kind with
  | objectCreation constructor arguments => exact allocated (by rw [kind]; rfl) _
  | invocation method target arguments =>
      dsimp only
      split
      · exact allocated (by rw [kind]; rfl) _
      · exact makesAll_empty
  | argument index passing value =>
      cases passing with
      | out => exact allocated (by rw [kind]; rfl) _
      | none => exact made.value value
      | ref => exact made.value value
  | assignment target value => exact made.value value
  | conversion operand => exact made.value operand
  | localReference cell => exact made.cell _
  | parameterReference index => exact (parameterEntry_made index).union (made.cell _)
  | fieldReference field target =>
      dsimp only
      split
      · exact (makesAll_single (.fieldDefault field op.ty) _).union (made.cell _)
      · exact makesAll_empty
  | _ => exact makesAll_empty

theorem step (made : p.MakesState s) (id : OperationId) : p.MakesState (p.pointsToStep s id) := by
  unfold pointsToStep
  split
  · exact made
  · next op found =>
    have valued := made.widenValue id (made.evaluate found)
    dsimp only
    split
    · exact valued
    · split
      · exact valued
      · exact valued.widenCell _ (valued.value _)

theorem pass (made : p.MakesState s) : p.MakesState (p.pointsToPass s) :=
  List.foldlRecOn _ _ made fun _ now id _ => now.step id

theorem iterate (made : p.MakesState s) (fuel : Nat) : p.MakesState (p.pointsToIterate fuel s) := by
  induction fuel generalizing s with
  | zero => exact made
  | succ fuel ih =>
      unfold pointsToIterate
      dsimp only
      split
      · exact made
      · exact ih made.pass

/-! ### The oracle -/

theorem escapesAt? (made : p.MakesState s) {op : Operation} {escaped : LocationSet}
    (escapes : p.escapesAt? s op = some escaped) : p.MakesAll escaped := by
  unfold Procedure.escapesAt? at escapes
  split at escapes
  · split at escapes
    · cases escapes
      exact made.value _
    · cases escapes
  · cases escapes
    exact made.value _
  · cases escapes
    exact fun l member => made.value _ l (SortedSet.mem_erase.mp member).2
  · cases escapes
    exact List.foldlRecOn _ _ makesAll_empty fun _ now cell _ => now.union (made.cell _)
  · cases escapes

end MakesState

/-- What leaves at an operation is said of an operation with that id. -/
theorem escapesAt?_of_mem_escapes {s : PointsToState} {operation : OperationId} {l : Location}
    (member : l ∈ ((p.escapes s).get? operation).getD ∅) :
    ∃ op ∈ p.operations, op.id = operation ∧
      ∃ escaped, p.escapesAt? s op = some escaped ∧ l ∈ escaped := by
  cases found : (p.escapes s).get? operation with
  | none =>
      rw [found] at member
      exact absurd member (SortedSet.not_mem_empty l)
  | some escaped =>
      have entry := (SortedMap.mem_of_get?_foldl_insert found).resolve_right nofun
      obtain ⟨op, here, listed⟩ := List.mem_filterMap.mp entry
      obtain ⟨all, escapes, pair⟩ := Option.map_eq_some_iff.mp listed
      cases pair
      rw [found, Option.getD_some, SortedSet.mem_filter] at member
      exact ⟨op, here, rfl, all, escapes, member.1⟩

/-- The local oracle mentions nothing but what the procedure makes. -/
theorem makes_of_mentions {l : Location} (mentioned : p.localOracle.Mentions l) : p.Makes l := by
  have made : p.MakesState p.pointsToState := MakesState.empty.iterate p.pointsToBound
  cases mentioned with
  | value operation here => exact made.value operation l here
  | escaping operation here =>
      obtain ⟨op, -, -, escaped, escapes, member⟩ := escapesAt?_of_mem_escapes here
      exact made.escapesAt? escapes l member
  | parameter index here => exact parameterEntry_made index l here

/-- Things leave only where they are passed, stored, returned or captured. -/
theorem mayEscape_of_mem_escaped {operation : OperationId} {l : Location}
    (member : l ∈ p.localOracle.escaped operation) :
    ∃ op ∈ p.operations, op.id = operation ∧ op.kind.mayEscape = true := by
  obtain ⟨op, here, named, escaped, escapes, -⟩ := escapesAt?_of_mem_escapes member
  refine ⟨op, here, named, ?_⟩
  unfold Procedure.escapesAt? at escapes
  split at escapes
  · next kind => rw [kind]; rfl
  · next kind => rw [kind]; rfl
  · next kind => rw [kind]; rfl
  · next kind => rw [kind]; rfl
  · cases escapes

end Procedure

end PathCompletion
