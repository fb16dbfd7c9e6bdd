import PathCompletion.Proofs.Completion.Effect

/-!
The rules that look at no other procedure, each as effects. Every one of them touches only
locations that the oracle knows of, brings values only to finitely many trackable locations,
and leaves evidence only of finitely many sites.
-/

namespace PathCompletion

inductive Oracle.Mentions (oracle : Oracle) (l : Location) : Prop where
  | value (operation : OperationId) (here : l ∈ (oracle.pointsTo operation).locations)
  | escaping (operation : OperationId) (here : l ∈ oracle.escaped operation)
  | parameter (index : Nat) (here : l ∈ (oracle.parameter index).locations)

namespace Context

/-- What rules may do to a location, given the cells they may fill and the sites they may
leave evidence of. -/
def Allows (c : Context) (cells : Set Location) (sites : Set Site) (l : Location) : Effect → Prop
  | .set v => c.isTrackable l = true ∧ l ∈ cells ∧ (v = .notCompleted ∨ v = .unknown)
  | .replace v => v = .unknown
  | .complete site | .escape site => site ∈ sites
  | .invalidate => True

/-- The rule runs effects of the given sort, at locations that the oracle mentions, with
finitely many cells and sites. -/
def Bounded (c : Context) (sort : Effect → Prop) (f : State → State) : Prop :=
  ∃ cells sites, cells.Finite ∧ sites.Finite ∧
    Acts (fun l effect => c.Allows cells sites l effect ∧ sort effect ∧ c.oracle.Mentions l) f

/-- No completion, and an escape only at an argument or where the oracle lets something escape. -/
def Regular (c : Context) : Effect → Prop
  | .complete _ => False
  | .escape site => ∃ operation, site = c.site operation ∧
      ((c.argument? operation).isSome = true ∨ ∃ l, l ∈ c.oracle.escaped operation)
  | _ => True

theorem Regular.plain {c : Context} {effect : Effect} (regular : c.Regular effect) :
    effect.Plain := by
  cases effect with
  | complete site => exact regular
  | _ => trivial

theorem Allows.mono {c : Context} {cells more : Set Location} {sites others : Set Site}
    (cellsIn : cells ⊆ more) (sitesIn : sites ⊆ others) {l : Location} {effect : Effect}
    (allowed : c.Allows cells sites l effect) : c.Allows more others l effect := by
  cases effect with
  | set v => exact ⟨allowed.1, cellsIn allowed.2.1, allowed.2.2⟩
  | replace v => exact allowed
  | complete site => exact sitesIn allowed
  | escape site => exact sitesIn allowed
  | invalidate => trivial

namespace Bounded

variable {c : Context} {sort : Effect → Prop} {f g : State → State}

theorem id : c.Bounded sort fun s => s :=
  ⟨∅, ∅, Set.finite_empty, Set.finite_empty, Acts.id⟩

theorem comp (second : c.Bounded sort g) (first : c.Bounded sort f) :
    c.Bounded sort fun s => g (f s) := by
  obtain ⟨cells, sites, cellsFinite, sitesFinite, acts⟩ := first
  obtain ⟨more, others, moreFinite, othersFinite, actsLater⟩ := second
  refine ⟨cells ∪ more, sites ∪ others, cellsFinite.union moreFinite,
    sitesFinite.union othersFinite, Acts.comp ?_ ?_⟩
  · exact actsLater.mono fun l effect allowed =>
      ⟨allowed.1.mono Set.subset_union_right Set.subset_union_right, allowed.2⟩
  · exact acts.mono fun l effect allowed =>
      ⟨allowed.1.mono Set.subset_union_left Set.subset_union_left, allowed.2⟩

theorem mono {wider : Effect → Prop} (bounded : c.Bounded sort f)
    (more : ∀ effect, sort effect → wider effect) : c.Bounded wider f := by
  obtain ⟨cells, sites, cellsFinite, sitesFinite, acts⟩ := bounded
  exact ⟨cells, sites, cellsFinite, sitesFinite,
    acts.mono fun l effect allowed => ⟨allowed.1, more effect allowed.2.1, allowed.2.2⟩⟩

theorem foldl {α : Type} {f : State → α → State} (items : List α)
    (each : ∀ a ∈ items, c.Bounded sort fun s => f s a) :
    c.Bounded sort fun s => items.foldl f s := by
  induction items with
  | nil => exact id
  | cons first rest ih =>
      have later := ih fun a member => each a (List.mem_cons_of_mem first member)
      exact later.comp (each first List.mem_cons_self)

theorem ite (condition : Prop) [Decidable condition] (yes : c.Bounded sort f)
    (no : c.Bounded sort g) : c.Bounded sort fun s => if condition then f s else g s := by
  by_cases now : condition
  · simpa only [now, ↓reduceIte] using yes
  · simpa only [now, ↓reduceIte] using no

/-- A rule leaves alone what the oracle does not mention. -/
theorem untouched (bounded : c.Bounded sort f) {l : Location} (unmentioned : ¬ c.oracle.Mentions l)
    (s : State) : (f s).get? l = s.get? l := by
  obtain ⟨cells, sites, -, -, acts⟩ := bounded
  refine Acts.untouched (acts.mono fun other effect allowed => ?_) s
  rintro rfl
  exact unmentioned allowed.2.2

end Bounded

variable (c : Context)

/-! ### Creation, completion, escape -/

theorem setAll_bounded {locations : LocationSet} {v : Value}
    (mentioned : ∀ l ∈ locations, c.oracle.Mentions l) (fresh : v = .notCompleted ∨ v = .unknown) :
    c.Bounded c.Regular (c.setAll locations v) := by
  refine ⟨{ l | l ∈ locations.toList }, ∅, List.finite_toSet _, Set.finite_empty, ?_⟩
  apply setAll_acts
  intro l member trackable
  exact ⟨⟨trackable, SortedSet.mem_toList.mpr member, fresh⟩, trivial, mentioned l member⟩

theorem create_bounded (reachable : Bool) (ty : Option TypeId) (operation : OperationId) :
    c.Bounded c.Regular (c.create reachable ty (c.locations operation)) :=
  .ite _ (c.setAll_bounded (fun _ => .value operation) (.inl rfl)) .id

theorem escape_bounded {operation : OperationId} {locations : LocationSet}
    (mentioned : ∀ l ∈ locations, c.oracle.Mentions l)
    (regular : ∀ l ∈ locations,
      (c.argument? operation).isSome = true ∨ ∃ other, other ∈ c.oracle.escaped operation) :
    c.Bounded c.Regular (c.escape operation locations) := by
  refine ⟨∅, {c.site operation}, Set.finite_empty, Set.finite_singleton _, ?_⟩
  exact revise_acts (.escape (c.site operation)) (fun _ => rfl) fun l member =>
    ⟨Set.mem_singleton _, ⟨operation, rfl, regular l member⟩, mentioned l member⟩

theorem invalidate_bounded (operation : OperationId) :
    c.Bounded c.Regular (c.invalidate operation) := by
  refine ⟨∅, ∅, Set.finite_empty, Set.finite_empty, ?_⟩
  exact revise_acts (.invalidate) (fun _ => rfl) fun l member =>
    ⟨trivial, trivial, .value operation member⟩

theorem applyEscapes_bounded (op : Operation) : c.Bounded c.Regular (c.applyEscapes op) :=
  .ite _ (c.escape_bounded (fun _ => .escaping op.id) fun l here => .inr ⟨l, here⟩) .id

def completed (target : Option OperationId) : Set Location :=
  { l | ∃ id, target = some id ∧ c.isTarget ((c.procedure.operation? id).bind Operation.ty) = true ∧
    l ∈ c.locations id }

theorem complete_acts (invocation : OperationId) (target : Option OperationId) :
    Acts (fun l effect => l ∈ c.completed target ∧ effect = .complete (c.site invocation))
      (c.complete invocation target) := by
  cases target with
  | none => exact Acts.id
  | some id =>
      unfold complete
      dsimp only
      split
      · next isTarget =>
        exact revise_acts (.complete (c.site invocation)) (fun _ => rfl) fun l member =>
          ⟨⟨id, rfl, isTarget, member⟩, rfl⟩
      · exact Acts.id

theorem complete_bounded (invocation : OperationId) (target : Option OperationId) :
    c.Bounded (fun _ => True) (c.complete invocation target) := by
  refine ⟨∅, {c.site invocation}, Set.finite_empty, Set.finite_singleton _, ?_⟩
  apply (c.complete_acts invocation target).mono
  rintro l _ ⟨⟨id, -, -, member⟩, rfl⟩
  exact ⟨Set.mem_singleton _, trivial, .value id member⟩

/-! ### Arguments and calls into unknown code -/

theorem finishArgument_bounded (reachable : Bool) (shape : CallShape) (analyzed isLast : Bool)
    (argument : OperationId) :
    c.Bounded c.Regular (c.finishArgument reachable shape analyzed isLast argument) := by
  unfold finishArgument
  cases found : c.argument? argument with
  | none => exact .id
  | some passed =>
      have isArgument : (c.argument? argument).isSome = true := by rw [found]; rfl
      obtain ⟨index, passing, value⟩ := passed
      have brought := Bounded.ite (passing = .out)
        (c.create_bounded reachable ((c.procedure.operation? argument).bind Operation.ty)
          argument) .id
      -- The effect comes after what an out argument brings, so the rule is taken apart here.
      refine Bounded.comp (g := fun s => if analyzed then s
        else if c.transfersOwnership passing shape then c.escape argument (c.locations value) s
        else if passing = .ref && isLast && shape.isTryGet then
          c.setAll (c.locations value) .notCompleted s
        else if passing = .none then s
        else c.escape argument (c.oracle.escaped argument) s) ?_ brought
      have mentioned (l : Location) : l ∈ c.locations value → c.oracle.Mentions l := .value value
      have returned := c.setAll_bounded mentioned (.inl rfl)
      have given := c.escape_bounded mentioned fun _ _ => .inl isArgument
      have leaves := c.escape_bounded (fun _ => .escaping argument) fun _ _ => .inl isArgument
      exact .ite _ .id (.ite _ given (.ite _ returned (.ite _ .id leaves)))

theorem finishArguments_bounded (reachable : Bool) (shape : CallShape) (analyzed : Bool)
    (arguments : List OperationId) :
    c.Bounded c.Regular (c.finishArguments reachable shape analyzed arguments) :=
  .foldl _ fun _ _ => c.finishArgument_bounded ..

theorem construct_bounded (reachable : Bool) (op : Operation) (arguments : List OperationId) :
    c.Bounded c.Regular (c.construct reachable op arguments) :=
  (c.create_bounded ..).comp (c.finishArguments_bounded ..)

theorem degrade_bounded (op : Operation) (arguments : List OperationId) :
    c.Bounded c.Regular (c.degrade op arguments) := by
  have unknown : c.Bounded c.Regular (c.setAll (c.locations op.id) .unknown) :=
    c.setAll_bounded (fun _ => .value op.id) (.inr rfl)
  have result := Bounded.ite (c.isTarget op.ty = true) unknown .id
  unfold degrade
  refine Bounded.comp (g := fun s => arguments.foldl _ s) (.foldl arguments fun argument _ => ?_)
    result
  cases c.argument? argument with
  | none => exact .id
  | some found =>
      obtain ⟨index, passing, value⟩ := found
      cases passing with
      | ref =>
          refine ⟨∅, ∅, Set.finite_empty, Set.finite_empty, ?_⟩
          exact revise_acts (.replace .unknown) (fun old => rfl) fun l member =>
            ⟨rfl, trivial, .value value member⟩
      | none => exact .id
      | out => exact .id

theorem release_bounded : c.Bounded c.Regular c.release :=
  .foldl _ fun (_, index) _ =>
    .ite _ .id (c.setAll_bounded (fun _ => .parameter index) (.inr rfl))

/-! ### Branch conditions -/

theorem refineComparison_bounded (condition : Condition) (operator : BinaryOperator)
    (left right : OperationId) :
    c.Bounded c.Regular (c.refineComparison condition operator left right) :=
  .ite _ .id (.ite _ (c.invalidate_bounded left) (.ite _ (c.invalidate_bounded right) .id))

theorem refineTryGet_bounded (analyzed : OperationId → Bool) (condition : Condition)
    (op : Operation) (method : MethodId) (arguments : List OperationId) :
    c.Bounded c.Regular (c.refineTryGet analyzed condition op method arguments) := by
  refine .ite _ (.foldl arguments fun argument _ => ?_) .id
  cases c.argument? argument with
  | none => exact .id
  | some found =>
      obtain ⟨index, passing, value⟩ := found
      cases passing with
      | out => exact c.invalidate_bounded argument
      | none => exact .id
      | ref => exact .id

theorem refine_bounded (analyzed : OperationId → Bool) (condition : Condition) (op : Operation) :
    c.Bounded c.Regular fun s => c.refine analyzed condition s op := by
  unfold refine
  cases op.kind with
  | binary operator left right => exact c.refineComparison_bounded condition operator left right
  | isNull operand => exact .ite _ (c.invalidate_bounded operand) .id
  | invocation method target arguments =>
      exact c.refineTryGet_bounded analyzed condition op method arguments
  | _ => exact .id

theorem refineEdge_bounded (analyzed : OperationId → Bool) (block : Block) (edge : Edge) :
    c.Bounded c.Regular (c.refineEdge analyzed block edge) := by
  unfold refineEdge
  cases block.branchValue with
  | none => exact .id
  | some value =>
      exact .ite _ .id (.foldl _ fun op _ => c.refine_bounded analyzed edge.condition op)

end Context

end PathCompletion
