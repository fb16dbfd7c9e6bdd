import Mathlib.Logic.Equiv.Basic
import PathCompletion.Proofs.PointsTo.Flow

/-!
The order of the arena does not matter to the local points-to analysis. Renaming the operations
carries what each of them brings, and every step of a value, from one arena to the other, and
so what the analysis finds.
-/

namespace PathCompletion

/-! ### Renaming operations -/

def OperationKind.rename (σ : OperationId → OperationId) : OperationKind → OperationKind
  | .objectCreation constructor arguments => .objectCreation constructor (arguments.map σ)
  | .invocation method target arguments => .invocation method (target.map σ) (arguments.map σ)
  | .argument index passing value => .argument index passing (σ value)
  | .localReference cell => .localReference cell
  | .parameterReference index => .parameterReference index
  | .fieldReference field target => .fieldReference field (target.map σ)
  | .instanceReference => .instanceReference
  | .literal => .literal
  | .nullLiteral => .nullLiteral
  | .conversion operand => .conversion (σ operand)
  | .assignment target value => .assignment (σ target) (σ value)
  | .binary operator left right => .binary operator (σ left) (σ right)
  | .isNull operand => .isNull (σ operand)
  | .returned value => .returned (value.map σ)
  | .thrown value => .thrown (value.map σ)
  | .delegateCreation body captures => .delegateCreation body captures
  | .other children => .other (children.map σ)

def Operation.rename (σ : OperationId → OperationId) (op : Operation) : Operation :=
  { op with id := σ op.id, kind := op.kind.rename σ, parent := op.parent.map σ }

/-- An allocation moves with its operation. -/
def Location.rename (σ : OperationId → OperationId) (l : Location) : Location :=
  match l.kind with
  | .allocation site => ⟨.allocation ⟨site.procedure, σ site.operation⟩, l.ty⟩
  | _ => l

def PointsTo.rename (σ : OperationId → OperationId) (v : PointsTo) : PointsTo :=
  { v with locations := .ofList (v.locations.toList.map (Location.rename σ)) }

def Aspect.rename (σ : OperationId → OperationId) : Aspect → Aspect
  | .location l => .location (l.rename σ)
  | other => other

theorem PointsTo.has_rename {σ : OperationId → OperationId} {v : PointsTo} {x : Aspect} :
    (v.rename σ).Has x ↔ ∃ y, v.Has y ∧ y.rename σ = x := by
  constructor
  · intro has
    cases x with
    | location l =>
        obtain ⟨other, member, rfl⟩ := List.mem_map.mp (SortedSet.mem_ofList.mp has)
        exact ⟨.location other, SortedSet.mem_toList.mp member, rfl⟩
    | computed => exact ⟨.computed, has, rfl⟩
    | unbounded => exact ⟨.unbounded, has, rfl⟩
    | null => exact ⟨.null, has, rfl⟩
    | notNull => exact ⟨.notNull, has, rfl⟩
  · rintro ⟨y, has, rfl⟩
    cases y with
    | location l =>
        have listed := List.mem_map_of_mem (f := Location.rename σ) (SortedSet.mem_toList.mpr has)
        exact SortedSet.mem_ofList.mpr listed
    | _ => exact has

theorem OperationKind.rename_symm (σ : Equiv.Perm OperationId) (kind : OperationKind) :
    (kind.rename σ).rename σ.symm = kind := by
  cases kind <;> simp [rename, Function.comp_def]

theorem Operation.rename_symm (σ : Equiv.Perm OperationId) (op : Operation) :
    (op.rename σ).rename σ.symm = op := by
  simp [rename, OperationKind.rename_symm, Function.comp_def]

theorem OperationKind.copied?_rename (σ : OperationId → OperationId) (kind : OperationKind) :
    (kind.rename σ).copied? = kind.copied?.map σ := by
  cases kind with
  | argument index passing value => cases passing <;> rfl
  | _ => rfl

namespace Procedure

theorem store?_rename (σ : OperationId → OperationId) (id : OperationId) (op : Operation) :
    store? (σ id) (op.rename σ) = (store? id op).map (Prod.map σ σ) := by
  obtain ⟨own, kind, ty, source, parent⟩ := op
  cases kind with
  | argument index passing value => cases passing <;> rfl
  | _ => rfl

/-- The second procedure has the operations of the first, in another order. -/
structure Reorders (p : Procedure) (σ : Equiv.Perm OperationId) (q : Procedure) : Prop where
  id : q.id = p.id
  parameters : q.parameters = p.parameters
  operation? : ∀ i, q.operation? (σ i) = (p.operation? i).map (Operation.rename σ)

namespace Reorders

variable {p q : Procedure} {σ : Equiv.Perm OperationId} {i j o : OperationId} {c : Cell}

theorem symm (reorders : p.Reorders σ q) : q.Reorders σ.symm p := by
  refine ⟨reorders.id.symm, reorders.parameters.symm, fun j => ?_⟩
  have here := reorders.operation? (σ.symm j)
  rw [Equiv.apply_symm_apply] at here
  rw [here, Option.map_map]
  cases p.operation? (σ.symm j) with
  | none => rfl
  | some op => exact congrArg some (op.rename_symm σ).symm

variable (reorders : p.Reorders σ q)

include reorders

theorem isThis (target : Option OperationId) : q.isThis (target.map σ) = p.isThis target := by
  cases target with
  | none => rfl
  | some i =>
      unfold Procedure.isThis
      rw [Option.map_some, Option.bind_some, Option.bind_some, reorders.operation?]
      cases p.operation? i with
      | none => rfl
      | some op =>
          unfold Operation.isInstanceReference
          cases kind : op.kind <;> simp [Operation.rename, OperationKind.rename, kind]

theorem cellOf? (op : Operation) : q.cellOf? (op.rename σ) = p.cellOf? op := by
  unfold Procedure.cellOf?
  cases kind : op.kind <;>
    simp [Operation.rename, OperationKind.rename, kind, reorders.isThis]

theorem allocation (i : OperationId) (ty : Option TypeId) :
    q.allocation (σ i) ty = (p.allocation i ty).rename σ := by
  unfold Procedure.allocation Procedure.site
  rw [reorders.id]
  rfl

theorem parameterEntry (index : Nat) :
    q.parameterEntry index = (p.parameterEntry index).rename σ := by
  unfold Procedure.parameterEntry
  rw [reorders.id, reorders.parameters]
  cases p.parameters[index]? <;> rfl

theorem brought (i : OperationId) (op : Operation) :
    q.brought (σ i) (op.rename σ) = (p.brought i op).rename σ := by
  have made (nullness : Nullness) : PointsTo.single (q.allocation (σ i) op.ty) nullness =
      (PointsTo.single (p.allocation i op.ty) nullness).rename σ := by
    rw [reorders.allocation]
    rfl
  obtain ⟨id, kind, ty, source, parent⟩ := op
  cases kind with
  | objectCreation constructor arguments => exact made _
  | invocation method target arguments =>
      cases ty with
      | none => rfl
      | some ty => exact made _
  | argument index passing value =>
      cases passing with
      | out => exact made _
      | none => rfl
      | ref => rfl
  | parameterReference index => exact reorders.parameterEntry index
  | fieldReference field target =>
      change (if q.isThis (target.map σ) then _ else _) =
        (if p.isThis target then _ else _ : PointsTo).rename σ
      rw [reorders.isThis]
      split <;> rfl
  | _ => rfl

theorem base (i : OperationId) : q.base (σ i) = (p.base i).rename σ := by
  unfold Procedure.base
  rw [reorders.operation?]
  cases p.operation? i with
  | none => rfl
  | some op => exact reorders.brought i op

theorem reads (reads : p.Reads i c) : q.Reads (σ i) c := by
  obtain ⟨op, found, refers⟩ := Option.bind_eq_some_iff.mp reads
  rw [Reads, reorders.operation?, found, Option.map_some, Option.bind_some, reorders.cellOf?]
  exact refers

theorem stores (stores : p.Stores i c) : q.Stores (σ i) c := by
  obtain ⟨id, op, place, found, writes, reads⟩ := stores
  refine ⟨σ id, op.rename σ, σ place, ?_, ?_, reorders.reads reads⟩
  · rw [reorders.operation?, found, Option.map_some]
  · rw [store?_rename, writes]
    rfl

theorem passes (passes : p.Passes i j) : q.Passes (σ i) (σ j) := by
  cases passes with
  | @copy _ _ op found copied =>
      have moved : q.operation? (σ j) = some (op.rename σ) := by
        rw [reorders.operation?, found, Option.map_some]
      refine .copy moved ?_
      rw [Operation.rename, OperationKind.copied?_rename, copied, Option.map_some]
  | throughCell stores reads => exact .throughCell (reorders.stores stores) (reorders.reads reads)

theorem flows (flows : p.Flows i o) : q.Flows (σ i) (σ o) :=
  Relation.ReflTransGen.lift σ (fun _ _ => reorders.passes) _ _ flows

theorem flows_iff : q.Flows (σ i) (σ o) ↔ p.Flows i o := by
  refine ⟨fun flows => ?_, reorders.flows⟩
  simpa using reorders.symm.flows flows

theorem pointsTo (indexed : p.Indexed) (indexedToo : q.Indexed) (o : OperationId) :
    q.localOracle.pointsTo (σ o) = (p.localOracle.pointsTo o).rename σ := by
  apply PointsTo.ext_has
  intro x
  rw [has_pointsTo_iff indexedToo, PointsTo.has_rename]
  constructor
  · rintro ⟨j, flows, brings⟩
    obtain ⟨i, rfl⟩ := σ.surjective j
    rw [reorders.base, PointsTo.has_rename] at brings
    obtain ⟨y, has, rfl⟩ := brings
    exact ⟨y, (has_pointsTo_iff indexed).mpr ⟨i, reorders.flows_iff.mp flows, has⟩, rfl⟩
  · rintro ⟨y, has, rfl⟩
    obtain ⟨i, flows, brings⟩ := (has_pointsTo_iff indexed).mp has
    refine ⟨σ i, reorders.flows flows, ?_⟩
    rw [reorders.base, PointsTo.has_rename]
    exact ⟨y, brings, rfl⟩

end Reorders

theorem Indexed.localOracle? {p : Procedure} (indexed : p.Indexed) :
    p.localOracle? = .ok p.localOracle := by
  have none : p.strayOperation? = none := by
    rw [strayOperation?, List.find?_eq_none]
    intro id member
    obtain ⟨op, here, rfl⟩ := List.mem_map.mp member
    have found := indexed.operation? here
    have inside := (List.getElem?_eq_some_iff.mp found).1
    simpa using inside
  rw [Procedure.localOracle?, none]

/-- The local analysis gives an answer, after passes of which one more would change nothing. At
every operation it finds the union of what is brought by the operations whose values flow
there, no more and no less, whatever the order of the arena. -/
theorem localOracle_is_value_flow {p : Procedure} (indexed : p.Indexed) :
    p.localOracle? = .ok p.localOracle ∧
    (∃ n, p.pointsToState = p.pointsToPass^[n] {}) ∧
    p.pointsToPass p.pointsToState = p.pointsToState ∧
    (∀ o, p.localOracle.pointsTo o = .unionAll ((p.sources o).map p.base)) ∧
    (∀ o x, (p.localOracle.pointsTo o).Has x ↔ ∃ i, p.Flows i o ∧ (p.base i).Has x) ∧
    ∀ σ q, q.Indexed → p.Reorders σ q →
      ∀ o, q.localOracle.pointsTo (σ o) = (p.localOracle.pointsTo o).rename σ := by
  refine ⟨indexed.localOracle?, p.exists_pointsToIterate_eq p.pointsToBound {},
    pointsToState_still indexed, pointsTo_eq_unionAll indexed, ?_, ?_⟩
  · exact fun o x => has_pointsTo_iff indexed
  · exact fun σ q indexedToo reorders o => reorders.pointsTo indexed indexedToo o

/-- `x = y; y = x; y = new T(); y = given; Make(out y); y = this.f`: two locals that are copied to
each other, and after the copies a creation, a parameter, an out argument and a field. -/
def exchanging : Procedure where
  id := ⟨0⟩
  method := none
  name := "Run"
  file := ""
  isConstructor := false
  parameters := [⟨"given", ⟨0⟩, .none⟩]
  operations :=
    [{ id := ⟨0⟩, kind := .localReference ⟨0⟩ },
      { id := ⟨1⟩, kind := .localReference ⟨1⟩ },
      { id := ⟨2⟩, kind := .assignment ⟨0⟩ ⟨1⟩ },
      { id := ⟨3⟩, kind := .assignment ⟨1⟩ ⟨0⟩ },
      { id := ⟨4⟩, kind := .objectCreation ⟨0⟩ [], ty := some ⟨0⟩ },
      { id := ⟨5⟩, kind := .assignment ⟨1⟩ ⟨4⟩ },
      { id := ⟨6⟩, kind := .parameterReference 0, ty := some ⟨0⟩ },
      { id := ⟨7⟩, kind := .assignment ⟨1⟩ ⟨6⟩ },
      { id := ⟨8⟩, kind := .argument 0 .out ⟨1⟩, ty := some ⟨0⟩ },
      { id := ⟨9⟩, kind := .instanceReference },
      { id := ⟨10⟩, kind := .fieldReference ⟨0⟩ (some ⟨9⟩), ty := some ⟨0⟩ },
      { id := ⟨11⟩, kind := .assignment ⟨1⟩ ⟨10⟩ }]
  owners := []
  graph := { blocks := [], regions := [], entry := ⟨0⟩, exit := ⟨1⟩ }

def exchangingToo : Procedure :=
  { exchanging with
    operations :=
      [{ id := ⟨0⟩, kind := .objectCreation ⟨0⟩ [], ty := some ⟨0⟩ },
        { id := ⟨1⟩, kind := .localReference ⟨1⟩ },
        { id := ⟨2⟩, kind := .assignment ⟨4⟩ ⟨1⟩ },
        { id := ⟨3⟩, kind := .assignment ⟨1⟩ ⟨4⟩ },
        { id := ⟨4⟩, kind := .localReference ⟨0⟩ },
        { id := ⟨5⟩, kind := .assignment ⟨1⟩ ⟨0⟩ },
        { id := ⟨6⟩, kind := .parameterReference 0, ty := some ⟨0⟩ },
        { id := ⟨7⟩, kind := .assignment ⟨1⟩ ⟨6⟩ },
        { id := ⟨8⟩, kind := .argument 0 .out ⟨1⟩, ty := some ⟨0⟩ },
        { id := ⟨9⟩, kind := .instanceReference },
        { id := ⟨10⟩, kind := .fieldReference ⟨0⟩ (some ⟨9⟩), ty := some ⟨0⟩ },
        { id := ⟨11⟩, kind := .assignment ⟨1⟩ ⟨10⟩ }] }

def exchanged (creation : OperationId) : PointsTo :=
  .known (.ofList [⟨.allocation ⟨⟨0⟩, creation⟩, some ⟨0⟩⟩, ⟨.parameter ⟨0⟩ 0, some ⟨0⟩⟩,
    ⟨.allocation ⟨⟨0⟩, ⟨8⟩⟩, some ⟨0⟩⟩, ⟨.fieldDefault ⟨0⟩, some ⟨0⟩⟩]) .maybeNull

theorem exchanging_reorders : exchanging.Reorders (Equiv.swap ⟨0⟩ ⟨4⟩) exchangingToo := by
  refine ⟨rfl, rfl, ?_⟩
  rintro ⟨i⟩
  match i with
  | 0 | 1 | 2 | 3 | 4 | 5 | 6 | 7 | 8 | 9 | 10 | 11 => rfl
  | n + 12 =>
      rw [Equiv.swap_apply_of_ne_of_ne (by simp) (by simp)]
      rfl

theorem exchanging_is_value_flow :
    exchanging.Indexed ∧ exchangingToo.Indexed ∧
    exchanging.Reorders (Equiv.swap ⟨0⟩ ⟨4⟩) exchangingToo ∧
    exchanging.localOracle.pointsTo ⟨0⟩ =
      .unionAll ((exchanging.sources ⟨0⟩).map exchanging.base) ∧
    exchanging.localOracle.pointsTo ⟨0⟩ = exchanged ⟨4⟩ ∧
    exchangingToo.localOracle.pointsTo ⟨4⟩ = exchanged ⟨0⟩ := by
  have indexed : exchanging.Indexed := by decide
  have indexedToo : exchangingToo.Indexed := by decide
  have found : exchanging.localOracle.pointsTo ⟨0⟩ = exchanged ⟨4⟩ := by decide +kernel
  obtain ⟨-, -, -, union, -, moved⟩ := localOracle_is_value_flow indexed
  have there := moved _ _ indexedToo exchanging_reorders ⟨0⟩
  rw [found] at there
  exact ⟨indexed, indexedToo, exchanging_reorders, union ⟨0⟩, found, there⟩

end Procedure

end PathCompletion
