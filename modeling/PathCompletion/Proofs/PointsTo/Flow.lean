import Mathlib.Algebra.Order.BigOperators.Group.List
import Mathlib.Algebra.Order.Ring.Nat
import Mathlib.Data.Finset.Card
import Mathlib.Data.List.ProdSigma
import Mathlib.Logic.Relation
import PathCompletion.Proofs.Completion.Genuine

/-!
The local points-to analysis is exact. Some operations bring a value of their own; copies pass
values from an operand to an operation, and stores pass them to every reference to the cell.
What the passes over the arena end with is, at each operation, the union of what is brought by
the operations from which a chain of such steps leads there. The passes end because all they
can ever add are finitely many facts.
-/

namespace PathCompletion

/-! ### What a value tells -/

inductive Aspect where
  | location (l : Location)
  /-- Something was computed. -/
  | computed
  /-- Locations other than those listed are possible. -/
  | unbounded
  | null
  | notNull
  deriving DecidableEq

namespace PointsTo

variable {a b : PointsTo} {x : Aspect}

def Has (v : PointsTo) : Aspect → Prop
  | .location l => l ∈ v.locations
  | .computed => v.extent ≠ .undefined
  | .unbounded => v.extent = .unknown
  | .null => v.nullness = .null ∨ v.nullness = .maybeNull
  | .notNull => v.nullness = .notNull ∨ v.nullness = .maybeNull

@[simp] theorem not_has_undefined : ¬ undefined.Has x := by
  cases x <;> simp [Has, undefined]

@[simp] theorem has_union : (a.union b).Has x ↔ a.Has x ∨ b.Has x := by
  obtain ⟨extent, locations, nullness⟩ := a
  obtain ⟨extentRight, locationsRight, nullnessRight⟩ := b
  cases x with
  | location l => exact SortedSet.mem_union
  | computed => cases extent <;> cases extentRight <;> simp [Has, union, Extent.merge]
  | unbounded => cases extent <;> cases extentRight <;> simp [Has, union, Extent.merge]
  | null => cases nullness <;> cases nullnessRight <;> simp [Has, union, Nullness.merge]
  | notNull => cases nullness <;> cases nullnessRight <;> simp [Has, union, Nullness.merge]

/-- A value is what it tells. -/
theorem ext_has (same : ∀ x, a.Has x ↔ b.Has x) : a = b := by
  obtain ⟨extent, locations, nullness⟩ := a
  obtain ⟨extentRight, locationsRight, nullnessRight⟩ := b
  have listed : locations = locationsRight := SortedSet.ext fun l => same (.location l)
  have extents : extent = extentRight := by
    have computed := same .computed
    have unbounded := same .unbounded
    cases extent <;> cases extentRight <;> simp_all [Has]
  have nulls : nullness = nullnessRight := by
    have null := same .null
    have notNull := same .notNull
    cases nullness <;> cases nullnessRight <;> simp_all [Has]
  rw [listed, extents, nulls]

def unionAll (values : List PointsTo) : PointsTo := values.foldr union undefined

theorem has_unionAll {values : List PointsTo} :
    (unionAll values).Has x ↔ ∃ v ∈ values, v.Has x := by
  induction values with
  | nil => simp [unionAll]
  | cons first rest ih =>
      change (first.union (unionAll rest)).Has x ↔ _
      simp [ih]

/-- The value tells this; that it is there needs no telling. -/
def Tells (v : PointsTo) : Option Aspect → Prop
  | none => True
  | some x => v.Has x

end PointsTo

/-! ### Facts about a state -/

inductive Holder where
  | operation (id : OperationId)
  | cell (c : Cell)
  deriving DecidableEq

namespace PointsToState

variable {s t u : PointsToState} {h k : Holder} {a : Option Aspect} {v : PointsTo}

def content? (s : PointsToState) : Holder → Option PointsTo
  | .operation id => s.values.get? id
  | .cell c => s.cells.get? c

def widen (s : PointsToState) : Holder → PointsTo → PointsToState
  | .operation id => s.widenValue id
  | .cell c => s.widenCell c

def Holds (s : PointsToState) (h : Holder) (a : Option Aspect) : Prop :=
  ∃ v, s.content? h = some v ∧ v.Tells a

theorem holds_value {id : OperationId} {x : Aspect} :
    s.Holds (.operation id) (some x) ↔ (s.value id).Has x := by
  change (∃ v, s.values.get? id = some v ∧ v.Has x) ↔ ((s.values.get? id).getD .undefined).Has x
  cases s.values.get? id <;> simp

theorem holds_cell {c : Cell} {x : Aspect} :
    s.Holds (.cell c) (some x) ↔ (s.cell c).Has x := by
  change (∃ v, s.cells.get? c = some v ∧ v.Has x) ↔ ((s.cells.get? c).getD .undefined).Has x
  cases s.cells.get? c <;> simp

theorem content?_widen (s : PointsToState) (h k : Holder) (v : PointsTo) :
    (s.widen h v).content? k =
      if h = k then some (((s.content? h).getD .undefined).union v) else s.content? k := by
  cases h with
  | operation id =>
      cases k with
      | operation other =>
          simp only [widen, widenValue, content?, SortedMap.get?_insert, Key.key_eq_iff,
            Holder.operation.injEq, value]
      | cell c => rfl
  | cell c =>
      cases k with
      | operation id => rfl
      | cell other =>
          simp only [widen, widenCell, content?, SortedMap.get?_insert, Key.key_eq_iff,
            Holder.cell.injEq, cell]

theorem holds_widen : (s.widen h v).Holds k a ↔ s.Holds k a ∨ (k = h ∧ v.Tells a) := by
  unfold Holds
  rw [content?_widen]
  by_cases here : h = k
  · subst here
    cases a with
    | none => simp [PointsTo.Tells]
    | some x => cases s.content? h <;> simp [PointsTo.Tells]
  · simp [here, Ne.symm here]

theorem holds_ext (same : ∀ h a, s.Holds h a ↔ t.Holds h a) : s = t := by
  have entries (h : Holder) : s.content? h = t.content? h := by
    cases left : s.content? h with
    | none =>
        cases right : t.content? h with
        | none => rfl
        | some w =>
            obtain ⟨_, here, -⟩ := (same h none).mpr ⟨w, right, trivial⟩
            rw [left] at here
            contradiction
    | some v =>
        obtain ⟨w, right, -⟩ := (same h none).mp ⟨v, left, trivial⟩
        rw [right]
        congr 1
        apply PointsTo.ext_has
        intro x
        have facts := same h (some x)
        simpa [Holds, left, right, PointsTo.Tells] using facts
  obtain ⟨values, cells⟩ := s
  obtain ⟨valuesToo, cellsToo⟩ := t
  have sameValues : values = valuesToo := SortedMap.ext fun id => entries (.operation id)
  have sameCells : cells = cellsToo := SortedMap.ext fun c => entries (.cell c)
  rw [sameValues, sameCells]

def Within (s t : PointsToState) : Prop := ∀ h a, s.Holds h a → t.Holds h a

theorem Within.trans (first : s.Within t) (second : t.Within u) : s.Within u :=
  fun h a known => second h a (first h a known)

theorem Within.antisymm (left : s.Within t) (right : t.Within s) : s = t :=
  holds_ext fun h a => ⟨left h a, right h a⟩

theorem within_widen (s : PointsToState) (h : Holder) (v : PointsTo) : s.Within (s.widen h v) :=
  fun _ _ known => holds_widen.mpr (.inl known)

end PointsToState

/-! ### The flow of values -/

def OperationKind.copied? : OperationKind → Option OperationId
  | .argument _ .none value | .argument _ .ref value | .assignment _ value
  | .conversion value => some value
  | _ => none

namespace Procedure

variable {p : Procedure} {s : PointsToState} {id : OperationId} {op : Operation} {x : Aspect}

def brought (p : Procedure) (id : OperationId) (op : Operation) : PointsTo :=
  match op.kind with
  | .objectCreation .. => .single (p.allocation id op.ty) .notNull
  | .invocation .. =>
      if op.ty.isSome then .single (p.allocation id op.ty) .maybeNull else .undefined
  | .argument _ .out _ => .single (p.allocation id op.ty) .maybeNull
  | .parameterReference index => p.parameterEntry index
  | .fieldReference field target =>
      if p.isThis target then .single ⟨.fieldDefault field, op.ty⟩ .maybeNull else .unknown
  | .instanceReference | .literal => .known ∅ .notNull
  | .nullLiteral => .null
  | _ => .undefined

def base (p : Procedure) (id : OperationId) : PointsTo :=
  ((p.operation? id).map (p.brought id)).getD .undefined

theorem exists_brought (brings : (p.base id).Has x) :
    ∃ op, p.operation? id = some op ∧ (p.brought id op).Has x := by
  unfold base at brings
  cases found : p.operation? id with
  | none =>
      rw [found] at brings
      exact absurd brings PointsTo.not_has_undefined
  | some op =>
      rw [found] at brings
      exact ⟨op, rfl, brings⟩

def Reads (p : Procedure) (id : OperationId) (c : Cell) : Prop :=
  (p.operation? id).bind p.cellOf? = some c

def Stores (p : Procedure) (stored : OperationId) (c : Cell) : Prop :=
  ∃ id op place, p.operation? id = some op ∧ store? id op = some (place, stored) ∧ p.Reads place c

inductive Passes (p : Procedure) : OperationId → OperationId → Prop where
  | copy {id value : OperationId} {op : Operation} (found : p.operation? id = some op)
      (copied : op.kind.copied? = some value) : Passes p value id
  | throughCell {stored reader : OperationId} {c : Cell} (stores : p.Stores stored c)
      (reads : p.Reads reader c) : Passes p stored reader

def Flows (p : Procedure) : OperationId → OperationId → Prop := Relation.ReflTransGen p.Passes

theorem has_evaluate (found : p.operation? id = some op) :
    (p.evaluate s id op).Has x ↔ (p.base id).Has x ∨
      (∃ value, op.kind.copied? = some value ∧ (s.value value).Has x) ∨
      ∃ c, p.cellOf? op = some c ∧ (s.cell c).Has x := by
  rw [base, found, Option.map_some, Option.getD_some]
  unfold evaluate brought cellOf? OperationKind.copied?
  cases op.kind with
  | argument index passing value => cases passing <;> simp
  | fieldReference field target => by_cases own : p.isThis target <;> simp [own]
  | _ => simp

/-! ### What a step brings -/

def target? (p : Procedure) (id : OperationId) (op : Operation) : Option (OperationId × Cell) :=
  (store? id op).bind fun (place, stored) =>
    ((p.operation? place).bind p.cellOf?).map fun c => (stored, c)

theorem Stores.of_target (found : p.operation? id = some op) {stored : OperationId} {c : Cell}
    (stores : p.target? id op = some (stored, c)) : p.Stores stored c := by
  obtain ⟨⟨place, other⟩, writes, here⟩ := Option.bind_eq_some_iff.mp stores
  obtain ⟨_, reads, pair⟩ := Option.map_eq_some_iff.mp here
  cases pair
  exact ⟨id, op, place, found, writes, reads⟩

theorem Stores.target {stored : OperationId} {c : Cell} (stores : p.Stores stored c) :
    ∃ id op, p.operation? id = some op ∧ p.target? id op = some (stored, c) := by
  obtain ⟨id, op, place, found, writes, reads⟩ := stores
  have here : (p.operation? place).bind p.cellOf? = some c := reads
  refine ⟨id, op, found, ?_⟩
  rw [target?, writes, Option.bind_some]
  dsimp only
  rw [here, Option.map_some]

theorem pointsToStep_eq (found : p.operation? id = some op) :
    p.pointsToStep s id =
      let valued := s.widen (.operation id) (p.evaluate s id op)
      match p.target? id op with
      | none => valued
      | some (stored, c) => valued.widen (.cell c) (valued.value stored) := by
  unfold pointsToStep target?
  rw [found]
  dsimp only
  cases store? id op with
  | none => rfl
  | some pair =>
      dsimp only [Option.bind_some]
      cases (p.operation? pair.1).bind p.cellOf? <;> rfl

/-- What a step adds: the value of its operation, then to the cell it stores in, if any, the
value that is stored. -/
theorem holds_pointsToStep (found : p.operation? id = some op) {h : Holder}
    {a : Option Aspect} :
    (p.pointsToStep s id).Holds h a ↔ s.Holds h a ∨
      (h = .operation id ∧ (p.evaluate s id op).Tells a) ∨
      ∃ stored c, p.target? id op = some (stored, c) ∧ h = .cell c ∧
        ((s.widen (.operation id) (p.evaluate s id op)).value stored).Tells a := by
  rw [pointsToStep_eq found]
  cases target : p.target? id op with
  | none => simp [PointsToState.holds_widen]
  | some pair =>
      obtain ⟨stored, c⟩ := pair
      simp [PointsToState.holds_widen, or_assoc]

theorem within_pointsToStep (s : PointsToState) (id : OperationId) :
    s.Within (p.pointsToStep s id) := by
  intro h a known
  cases found : p.operation? id with
  | none =>
      unfold pointsToStep
      rw [found]
      exact known
  | some op => exact (holds_pointsToStep found).mpr (.inl known)

theorem within_foldl (ids : List OperationId) (s : PointsToState) :
    s.Within (ids.foldl p.pointsToStep s) := by
  induction ids generalizing s with
  | nil => exact fun _ _ known => known
  | cons first rest ih => exact (within_pointsToStep s first).trans (ih _)

/-- Where all steps together change nothing, none does. -/
theorem pointsToStep_of_foldl (ids : List OperationId) (s : PointsToState)
    (still : ids.foldl p.pointsToStep s = s) : ∀ id ∈ ids, p.pointsToStep s id = s := by
  induction ids generalizing s with
  | nil => exact nofun
  | cons first rest ih =>
      have back : (p.pointsToStep s first).Within s := by
        have onward := within_foldl (p := p) rest (p.pointsToStep s first)
        rw [List.foldl_cons] at still
        rwa [still] at onward
      have same := back.antisymm (within_pointsToStep s first)
      rw [List.foldl_cons, same] at still
      intro id member
      rcases List.mem_cons.mp member with rfl | later
      · exact same
      · exact ih s still id later

/-! ### Nothing extra -/

/-- The value of the operation reaches the holder. -/
def Supplies (p : Procedure) (i : OperationId) : Holder → Prop
  | .operation id => p.Flows i id
  | .cell c => ∃ stored, p.Stores stored c ∧ p.Flows i stored

def Keeps (p : Procedure) : Holder → Prop
  | .operation id => ∃ op, p.operation? id = some op
  | .cell c => ∃ stored, p.Stores stored c

/-- Each holder is of the procedure, and what it tells is told by a value that reaches it. -/
structure Explains (p : Procedure) (s : PointsToState) : Prop where
  keeps : ∀ h, s.Holds h none → p.Keeps h
  supplies : ∀ h x, s.Holds h (some x) → ∃ i, p.Supplies i h ∧ (p.base i).Has x

namespace Explains

theorem empty : p.Explains {} := by
  constructor
  · rintro (id | c) ⟨v, found, -⟩ <;> cases found
  · rintro (id | c) x ⟨v, found, -⟩ <;> cases found

theorem widen (explains : p.Explains s) (h : Holder) (keeps : p.Keeps h) {v : PointsTo}
    (supplies : ∀ x, v.Has x → ∃ i, p.Supplies i h ∧ (p.base i).Has x) :
    p.Explains (s.widen h v) := by
  constructor
  · intro k here
    rcases PointsToState.holds_widen.mp here with known | ⟨rfl, -⟩
    · exact explains.keeps k known
    · exact keeps
  · intro k x here
    rcases PointsToState.holds_widen.mp here with known | ⟨rfl, tells⟩
    · exact explains.supplies k x known
    · exact supplies x tells

theorem evaluate (explains : p.Explains s) (found : p.operation? id = some op)
    (has : (p.evaluate s id op).Has x) : ∃ i, p.Flows i id ∧ (p.base i).Has x := by
  rcases (has_evaluate found).mp has with own | ⟨value, copied, here⟩ | ⟨c, reads, here⟩
  · exact ⟨id, .refl, own⟩
  · obtain ⟨i, flows, brings⟩ := explains.supplies _ x (PointsToState.holds_value.mpr here)
    exact ⟨i, flows.tail (.copy found copied), brings⟩
  · obtain ⟨i, ⟨stored, stores, flows⟩, brings⟩ :=
      explains.supplies _ x (PointsToState.holds_cell.mpr here)
    have reader : p.Reads id c := by rw [Reads, found, Option.bind_some, reads]
    exact ⟨i, flows.tail (.throughCell stores reader), brings⟩

theorem step (explains : p.Explains s) (id : OperationId) : p.Explains (p.pointsToStep s id) := by
  cases found : p.operation? id with
  | none =>
      unfold pointsToStep
      rwa [found]
  | some op =>
      have valued : p.Explains (s.widen (.operation id) (p.evaluate s id op)) :=
        explains.widen (.operation id) ⟨op, found⟩ fun x has => explains.evaluate found has
      rw [pointsToStep_eq found]
      dsimp only
      split
      · exact valued
      · next stored c target =>
        have stores := Stores.of_target found target
        refine valued.widen (.cell c) ⟨stored, stores⟩ fun x has => ?_
        obtain ⟨i, flows, brings⟩ := valued.supplies _ x (PointsToState.holds_value.mpr has)
        exact ⟨i, ⟨stored, stores, flows⟩, brings⟩

theorem pass (explains : p.Explains s) : p.Explains (p.pointsToPass s) :=
  List.foldlRecOn _ _ explains fun _ now id _ => now.step id

end Explains

/-! ### Nothing missed -/

theorem Indexed.id_eq (indexed : p.Indexed) (found : p.operation? id = some op) : op.id = id :=
  indexed (op, id.index) (List.mem_zipIdx_iff_getElem?.mpr found)

theorem Indexed.mem_ids (indexed : p.Indexed) (found : p.operation? id = some op) :
    id ∈ p.operations.map Operation.id :=
  List.mem_map.mpr ⟨op, List.mem_of_getElem? found, indexed.id_eq found⟩

section

variable (indexed : p.Indexed) (still : p.pointsToPass s = s)

include indexed still

theorem has_value_of_evaluate (found : p.operation? id = some op)
    (has : (p.evaluate s id op).Has x) : (s.value id).Has x := by
  rw [← PointsToState.holds_value,
    ← pointsToStep_of_foldl _ s still id (indexed.mem_ids found), holds_pointsToStep found]
  exact .inr (.inl ⟨rfl, has⟩)

theorem has_cell_of_stores {stored : OperationId} {c : Cell} (stores : p.Stores stored c)
    (has : (s.value stored).Has x) : (s.cell c).Has x := by
  obtain ⟨id, op, found, target⟩ := stores.target
  rw [← PointsToState.holds_cell,
    ← pointsToStep_of_foldl _ s still id (indexed.mem_ids found), holds_pointsToStep found]
  refine .inr (.inr ⟨stored, c, target, rfl, ?_⟩)
  exact PointsToState.holds_value.mp
    (PointsToState.within_widen s _ _ _ _ (PointsToState.holds_value.mpr has))

theorem has_value_of_passes {i j : OperationId} (passes : p.Passes i j)
    (has : (s.value i).Has x) : (s.value j).Has x := by
  cases passes with
  | copy found copied =>
      apply has_value_of_evaluate indexed still found
      exact (has_evaluate found).mpr (.inr (.inl ⟨i, copied, has⟩))
  | @throughCell _ _ c stores reads =>
      obtain ⟨op, found, refers⟩ := Option.bind_eq_some_iff.mp reads
      apply has_value_of_evaluate indexed still found
      have held := has_cell_of_stores indexed still stores has
      exact (has_evaluate found).mpr (.inr (.inr ⟨c, refers, held⟩))

theorem has_value_of_flows {i o : OperationId} (flows : p.Flows i o) (brings : (p.base i).Has x) :
    (s.value o).Has x := by
  induction flows with
  | refl =>
      obtain ⟨op, found, -⟩ := exists_brought brings
      apply has_value_of_evaluate indexed still found
      exact (has_evaluate found).mpr (.inl brings)
  | tail _ passes ih => exact has_value_of_passes indexed still passes ih

end

/-! ### The passes end -/

def facts (p : Procedure) : List (Holder × Option Aspect) :=
  ((p.operations.map fun op => .operation op.id) ++
    p.operations.filterMap fun op => (p.target? op.id op).map fun pair => .cell pair.2) ×ˢ
  ([none, some .computed, some .unbounded, some .null, some .notNull] ++
    p.operations.flatMap fun op =>
      (p.brought op.id op).locations.toList.map fun l => some (.location l))

theorem brought_locations_length (p : Procedure) (id : OperationId) (op : Operation) :
    (p.brought id op).locations.toList.length ≤ 1 := by
  have one (l : Location) (nullness : Nullness) :
      (PointsTo.single l nullness).locations.toList.length ≤ 1 := Nat.le_refl 1
  unfold brought
  cases op.kind with
  | objectCreation constructor arguments => exact one _ _
  | invocation method target arguments =>
      dsimp only
      split
      · exact one _ _
      · exact Nat.zero_le 1
  | argument index passing value =>
      cases passing with
      | out => exact one _ _
      | none => exact Nat.zero_le 1
      | ref => exact Nat.zero_le 1
  | parameterReference index =>
      dsimp only
      unfold parameterEntry
      split
      · exact one _ _
      · exact Nat.zero_le 1
  | fieldReference field target =>
      dsimp only
      split
      · exact one _ _
      · exact Nat.zero_le 1
  | _ => exact Nat.zero_le 1

theorem facts_length (p : Procedure) : p.facts.length ≤ p.pointsToBound := by
  have cells := p.operations.length_filterMap_le fun op =>
    (p.target? op.id op).map fun pair => Holder.cell pair.2
  have locations : (p.operations.flatMap fun op => (p.brought op.id op).locations.toList.map
      fun l => some (Aspect.location l)).length ≤ p.operations.length := by
    rw [List.length_flatMap]
    have each : ∀ count ∈ p.operations.map fun op => ((p.brought op.id op).locations.toList.map
        fun l => some (Aspect.location l)).length, count ≤ 1 := by
      intro count member
      obtain ⟨op, -, rfl⟩ := List.mem_map.mp member
      rw [List.length_map]
      exact p.brought_locations_length op.id op
    simpa using List.sum_le_card_nsmul _ _ each
  rw [facts, List.length_product, List.length_append, List.length_append, List.length_map]
  unfold pointsToBound
  calc _ ≤ (p.operations.length + p.operations.length) * (5 + p.operations.length) :=
        Nat.mul_le_mul (Nat.add_le_add_left cells _) (Nat.add_le_add_left locations _)
    _ ≤ 2 * p.operations.length * (p.operations.length + p.parameters.length + 5) := by
        rw [← Nat.two_mul]
        exact Nat.mul_le_mul_left _ (by omega)
    _ ≤ _ := Nat.le_succ _

theorem mem_facts (indexed : p.Indexed) (explains : p.Explains s) {h : Holder} {a : Option Aspect}
    (known : s.Holds h a) : (h, a) ∈ p.facts := by
  have present : s.Holds h none := known.imp fun _ both => ⟨both.1, trivial⟩
  refine List.pair_mem_product.mpr ⟨List.mem_append.mpr ?_, List.mem_append.mpr ?_⟩
  · have kept := explains.keeps h present
    cases h with
    | operation id =>
        obtain ⟨op, found⟩ := kept
        refine .inl (List.mem_map.mpr ⟨op, List.mem_of_getElem? found, ?_⟩)
        rw [indexed.id_eq found]
    | cell c =>
        obtain ⟨stored, stores⟩ := kept
        obtain ⟨id, op, found, target⟩ := stores.target
        refine .inr (List.mem_filterMap.mpr ⟨op, List.mem_of_getElem? found, ?_⟩)
        rw [indexed.id_eq found, target, Option.map_some]
  · match a, known with
    | none, _ | some .computed, _ | some .unbounded, _ | some .null, _ | some .notNull, _ => simp
    | some (.location l), known =>
        obtain ⟨i, -, brings⟩ := explains.supplies h _ known
        obtain ⟨op, found, here⟩ := exists_brought brings
        refine .inr (List.mem_flatMap.mpr ⟨op, List.mem_of_getElem? found, ?_⟩)
        rw [indexed.id_eq found]
        exact List.mem_map.mpr ⟨l, SortedSet.mem_toList.mpr here, rfl⟩

open Classical in
noncomputable def held (p : Procedure) (s : PointsToState) : Finset (Holder × Option Aspect) :=
  p.facts.toFinset.filter fun fact => s.Holds fact.1 fact.2

theorem mem_held (indexed : p.Indexed) (explains : p.Explains s)
    {fact : Holder × Option Aspect} : fact ∈ p.held s ↔ s.Holds fact.1 fact.2 := by
  simp only [held, Finset.mem_filter, List.mem_toFinset, and_iff_right_iff_imp]
  exact mem_facts indexed explains

theorem card_held_le (s : PointsToState) : (p.held s).card ≤ p.pointsToBound := by
  have among : p.held s ⊆ p.facts.toFinset := by
    intro fact known
    simp only [held, Finset.mem_filter] at known
    exact known.1
  exact (Finset.card_le_card among).trans (p.facts.toFinset_card_le.trans p.facts_length)

theorem card_held_lt (indexed : p.Indexed) (explains : p.Explains s)
    (changed : p.pointsToPass s ≠ s) : (p.held s).card < (p.held (p.pointsToPass s)).card := by
  have within : s.Within (p.pointsToPass s) := within_foldl _ s
  apply Finset.card_lt_card
  refine ⟨?_, fun back => changed ?_⟩
  · intro fact known
    rw [mem_held indexed explains] at known
    rw [mem_held indexed explains.pass]
    exact within _ _ known
  · refine PointsToState.Within.antisymm (fun h a known => ?_) within
    have here : (h, a) ∈ p.held (p.pointsToPass s) := (mem_held indexed explains.pass).mpr known
    exact (mem_held indexed explains).mp (back here)

/-- Fuel for the facts that are missing is enough. -/
theorem pointsToIterate_still (indexed : p.Indexed) (explains : p.Explains s) {fuel : Nat}
    (enough : p.pointsToBound ≤ (p.held s).card + fuel) :
    p.pointsToPass (p.pointsToIterate fuel s) = p.pointsToIterate fuel s := by
  induction fuel generalizing s with
  | zero =>
      by_contra changed
      have more := card_held_lt indexed explains changed
      have most := card_held_le (p := p) (p.pointsToPass s)
      omega
  | succ fuel ih =>
      rw [pointsToIterate]
      split
      · next still => exact still
      · next changed =>
        have more := card_held_lt indexed explains changed
        exact ih explains.pass (by omega)

theorem exists_pointsToIterate_eq (p : Procedure) (fuel : Nat) (s : PointsToState) :
    ∃ n, p.pointsToIterate fuel s = p.pointsToPass^[n] s := by
  induction fuel generalizing s with
  | zero => exact ⟨0, rfl⟩
  | succ fuel ih =>
      rw [pointsToIterate]
      split
      · exact ⟨0, rfl⟩
      · obtain ⟨n, same⟩ := ih (p.pointsToPass s)
        exact ⟨n + 1, same⟩

theorem pointsToState_still (indexed : p.Indexed) :
    p.pointsToPass p.pointsToState = p.pointsToState :=
  pointsToIterate_still indexed .empty (Nat.le_add_left _ _)

theorem explains_pointsToState (p : Procedure) : p.Explains p.pointsToState := by
  obtain ⟨n, same⟩ := p.exists_pointsToIterate_eq p.pointsToBound {}
  rw [pointsToState, same]
  clear same
  induction n with
  | zero => exact .empty
  | succ n ih =>
      rw [Function.iterate_succ_apply']
      exact ih.pass

/-- What an operation's value tells is what the values that flow there tell. -/
theorem has_pointsTo_iff (indexed : p.Indexed) {o : OperationId} :
    (p.localOracle.pointsTo o).Has x ↔ ∃ i, p.Flows i o ∧ (p.base i).Has x := by
  constructor
  · intro has
    exact p.explains_pointsToState.supplies (.operation o) x (PointsToState.holds_value.mpr has)
  · rintro ⟨i, flows, brings⟩
    exact has_value_of_flows indexed (pointsToState_still indexed) flows brings

open Classical in
/-- The operations whose values flow to an operation, in the order of the arena. -/
noncomputable def sources (p : Procedure) (o : OperationId) : List OperationId :=
  (p.operations.map Operation.id).filter fun i => p.Flows i o

theorem pointsTo_eq_unionAll (indexed : p.Indexed) (o : OperationId) :
    p.localOracle.pointsTo o = .unionAll ((p.sources o).map p.base) := by
  apply PointsTo.ext_has
  intro x
  rw [has_pointsTo_iff indexed, PointsTo.has_unionAll]
  constructor
  · rintro ⟨i, flows, brings⟩
    obtain ⟨op, found, -⟩ := exists_brought brings
    have source : i ∈ p.sources o :=
      List.mem_filter.mpr ⟨indexed.mem_ids found, by simpa using flows⟩
    exact ⟨p.base i, List.mem_map_of_mem source, brings⟩
  · rintro ⟨_, member, brings⟩
    obtain ⟨i, source, rfl⟩ := List.mem_map.mp member
    exact ⟨i, by simpa using (List.mem_filter.mp source).2, brings⟩

end Procedure

end PathCompletion
