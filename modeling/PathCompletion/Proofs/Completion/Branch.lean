import PathCompletion.Analysis.Transfer
import PathCompletion.PointsTo.Local
import PathCompletion.Proofs.Completion.Motion
import PathCompletion.Proofs.Flow.Operand
import PathCompletion.Report.Finding

/-!
What an edge learns from a branch value. The condition of the edge is the truth value of the
branch value alone, but the edge takes every operation below it by the same condition. So it
invalidates what any of them would deny if it had that truth value itself.
-/

namespace PathCompletion

def BinaryOperator.SaysSame (operator : BinaryOperator) (condition : Condition) : Prop :=
  condition = .whenTrue ∧ operator.isEquality = true ∨
    condition = .whenFalse ∧ operator.isInequality = true

theorem Effect.act_invalidate_twice (old : Option Value) :
    invalidate.act (invalidate.act old) = invalidate.act old := by
  cases old with
  | none => rfl
  | some v =>
      rw [act_some, act_some]
      obtain ⟨kind, evidence⟩ := v
      cases kind <;> rfl

namespace Context

variable {c : Context} {analyzed : OperationId → Bool} {condition : Condition} {op : Operation}
  {l : Location}

/-- An operation with the truth value of the edge denies that the location holds an instance:
something equal to it is null, it is null itself, or it was to be brought out by a call that
answers false and was not analyzed. -/
inductive Denies (c : Context) (analyzed : OperationId → Bool) (condition : Condition)
    (op : Operation) (l : Location) : Prop where
  | left {operator : BinaryOperator} {left right : OperationId}
      (kind : op.kind = .binary operator left right) (same : operator.SaysSame condition)
      (null : c.oracle.nullness right = .null) (here : l ∈ c.locations left)
  | right {operator : BinaryOperator} {left right : OperationId}
      (kind : op.kind = .binary operator left right) (same : operator.SaysSame condition)
      (other : c.oracle.nullness right ≠ .null) (null : c.oracle.nullness left = .null)
      (here : l ∈ c.locations right)
  | isNull {operand : OperationId} (kind : op.kind = .isNull operand)
      (holds : condition = .whenTrue) (here : l ∈ c.locations operand)
  | out {method : MethodId} {target : Option OperationId} {arguments : List OperationId}
      {signature : Signature} {argument value : OperationId} {index : Nat}
      (kind : op.kind = .invocation method target arguments) (refused : condition = .whenFalse)
      (unanalyzed : analyzed op.id = false)
      (known : c.env.symbols.method method = some signature)
      (answers : c.returnsBool signature = true) (passed : argument ∈ arguments)
      (out : c.argument? argument = some (index, .out, value)) (here : l ∈ c.locations argument)

/-- Only comparisons, null tests and calls deny anything. -/
theorem Denies.isTest (denies : c.Denies analyzed condition op l) :
    match op.kind with
    | .binary .. | .isNull _ | .invocation .. => True
    | _ => False := by
  cases denies with
  | left kind | right kind | isNull kind | out kind => rw [kind]; trivial

/-! ### Rules that only invalidate -/

/-- The rule invalidates the trackable locations among these and leaves all others. -/
structure Invalidates (c : Context) (which : Location → Prop) (f : State → State) : Prop where
  inside : ∀ s l, which l → c.isTrackable l = true →
    (f s).get? l = Effect.invalidate.act (s.get? l)
  outside : ∀ s l, ¬ (which l ∧ c.isTrackable l = true) → (f s).get? l = s.get? l

namespace Invalidates

variable {which other : Location → Prop} {f g : State → State}

theorem congr (invalidates : c.Invalidates which f) (same : ∀ l, which l ↔ other l) :
    c.Invalidates other f := by
  obtain rfl : which = other := funext fun l => propext (same l)
  exact invalidates

theorem id (none : ∀ l, ¬ which l) : c.Invalidates which fun s => s :=
  ⟨fun _ l now => absurd now (none l), fun _ _ _ => rfl⟩

theorem comp (second : c.Invalidates other g) (first : c.Invalidates which f) :
    c.Invalidates (fun l => which l ∨ other l) fun s => g (f s) := by
  constructor
  · intro s l now trackable
    by_cases later : other l
    · rw [second.inside _ l later trackable]
      by_cases before : which l
      · rw [first.inside s l before trackable, Effect.act_invalidate_twice]
      · rw [first.outside s l fun both => before both.1]
    · rw [second.outside _ l fun both => later both.1]
      exact first.inside s l (now.resolve_right later) trackable
  · intro s l unaffected
    rw [second.outside _ l fun both => unaffected ⟨.inr both.1, both.2⟩]
    exact first.outside s l fun both => unaffected ⟨.inl both.1, both.2⟩

theorem foldl {α : Type} {f : State → α → State} (which : α → Location → Prop) (items : List α)
    (each : ∀ a ∈ items, c.Invalidates (which a) fun s => f s a) :
    c.Invalidates (fun l => ∃ a ∈ items, which a l) fun s => items.foldl f s := by
  induction items with
  | nil => exact .id fun _ ⟨_, member, _⟩ => List.not_mem_nil member
  | cons first rest ih =>
      have later := ih fun a member => each a (List.mem_cons_of_mem first member)
      exact (later.comp (each first List.mem_cons_self)).congr fun l => by simp

theorem ite (condition : Prop) [Decidable condition] (yes : c.Invalidates which f)
    (no : c.Invalidates other g) :
    c.Invalidates (fun l => condition ∧ which l ∨ ¬ condition ∧ other l)
      fun s => if condition then f s else g s := by
  by_cases now : condition
  · simpa [now] using yes
  · simpa [now] using no

theorem when (condition : Prop) [Decidable condition] (yes : c.Invalidates which f) :
    c.Invalidates (fun l => condition ∧ which l) fun s => if condition then f s else s :=
  (ite condition yes (.id fun _ => not_false)).congr fun l => by simp

end Invalidates

theorem invalidate_invalidates (c : Context) (operation : OperationId) :
    c.Invalidates (· ∈ c.locations operation) (c.invalidate operation) := by
  refine (Invalidates.foldl (fun l => (l = ·)) (c.locations operation).toList ?_).congr ?_
  · intro l _
    constructor
    · rintro s _ rfl trackable
      cases found : s.get? l with
      | none => simp [found, Effect.act]
      | some old =>
          cases changed : old.invalidate? with
          | none => simp [found, changed, Effect.act_some, Effect.change]
          | some v => simp [changed, Effect.act_some, Effect.change, get?_setValue, trackable]
    · intro s other elsewhere
      split
      · rw [get?_setValue, if_neg]
        rintro ⟨rfl, trackable⟩
        exact elsewhere ⟨rfl, trackable⟩
      · rfl
  · simp [SortedSet.mem_toList]

/-! ### Branch values -/

theorem refineComparison_invalidates (condition : Condition) (operator : BinaryOperator)
    (left right : OperationId) (kind : op.kind = .binary operator left right) :
    c.Invalidates (c.Denies analyzed condition op)
      (c.refineComparison condition operator left right) := by
  refine (Invalidates.ite _ (.id fun _ => not_false) (.ite _ (c.invalidate_invalidates left)
    (.when _ (c.invalidate_invalidates right)))).congr fun l => ?_
  have path : operator.SaysSame condition ↔
      ¬ (!(condition = .whenTrue && operator.isEquality ||
        condition = .whenFalse && operator.isInequality)) = true := by
    simp only [BinaryOperator.SaysSame, Bool.not_eq_true', Bool.not_eq_false, Bool.or_eq_true,
      Bool.and_eq_true, decide_eq_true_eq]
  rw [← path, and_false, false_or]
  constructor
  · rintro ⟨same, ⟨null, here⟩ | ⟨other, null, here⟩⟩
    · exact .left kind same null here
    · exact .right kind same other null here
  · intro denies
    cases denies with
    | left found same null here =>
        cases kind.symm.trans found
        exact ⟨same, .inl ⟨null, here⟩⟩
    | right found same other null here =>
        cases kind.symm.trans found
        exact ⟨same, .inr ⟨other, null, here⟩⟩
    | isNull found | out found => cases kind.symm.trans found

theorem refineTryGet_invalidates (analyzed : OperationId → Bool) (condition : Condition)
    (method : MethodId) (target : Option OperationId) (arguments : List OperationId)
    (kind : op.kind = .invocation method target arguments) :
    c.Invalidates (c.Denies analyzed condition op)
      (c.refineTryGet analyzed condition op method arguments) := by
  refine (Invalidates.when _ (.foldl (fun argument l =>
    (∃ index value, c.argument? argument = some (index, .out, value)) ∧
      l ∈ c.locations argument) arguments ?_)).congr fun l => ?_
  · intro argument _
    split
    · next index value found =>
      exact (c.invalidate_invalidates argument).congr fun l => by simp [found]
    · next notOut =>
      apply Invalidates.id
      rintro l ⟨⟨index, value, found⟩, -⟩
      exact notOut index value found
  -- What remains is when the test is made: what a denial says besides the argument.
  rw [Bool.and_eq_true, Bool.and_eq_true, decide_eq_true_eq, Bool.not_eq_true']
  constructor
  · rintro ⟨⟨⟨refused, unanalyzed⟩, answers⟩, argument, passed, ⟨index, value, out⟩, here⟩
    cases known : c.env.symbols.method method with
    | none =>
        rw [known] at answers
        cases answers
    | some signature =>
        rw [known] at answers
        exact .out kind refused unanalyzed known answers passed out here
  · intro denies
    cases denies with
    | out found refused unanalyzed known answers passed out here =>
        cases kind.symm.trans found
        rw [known]
        exact ⟨⟨⟨refused, unanalyzed⟩, answers⟩, _, passed, ⟨_, _, out⟩, here⟩
    | left found | right found | isNull found => cases kind.symm.trans found

theorem refine_invalidates (analyzed : OperationId → Bool) (condition : Condition)
    (op : Operation) :
    c.Invalidates (c.Denies analyzed condition op) fun s => c.refine analyzed condition s op := by
  unfold refine
  cases kind : op.kind with
  | binary operator left right =>
      exact refineComparison_invalidates condition operator left right kind
  | isNull operand =>
      refine (Invalidates.when _ (c.invalidate_invalidates operand)).congr fun l => ?_
      constructor
      · rintro ⟨holds, here⟩
        exact .isNull kind holds here
      · intro denies
        cases denies with
        | isNull found holds here =>
            cases kind.symm.trans found
            exact ⟨holds, here⟩
        | left found | right found | out found => cases kind.symm.trans found
  | invocation method target arguments =>
      exact refineTryGet_invalidates analyzed condition method target arguments kind
  | _ => exact .id fun l denies => by simpa [kind] using denies.isTest

def DeniedBelow (c : Context) (analyzed : OperationId → Bool) (condition : Condition)
    (root : OperationId) (l : Location) : Prop :=
  ∃ op, c.procedure.Below root op ∧ c.Denies analyzed condition op l

def DeniedAt (c : Context) (analyzed : OperationId → Bool) (condition : Condition)
    (root : OperationId) (l : Location) : Prop :=
  ∃ op, c.procedure.operation? root = some op ∧ c.Denies analyzed condition op l

theorem refineEdge_invalidates {block : Block} {edge : Edge} {value : OperationId}
    (branch : block.branchValue = some value) (conditional : edge.condition ≠ .always) :
    c.Invalidates (c.DeniedBelow analyzed edge.condition value)
      (c.refineEdge analyzed block edge) := by
  have each := Invalidates.foldl _ (c.procedure.postorder value) fun op _ =>
    c.refine_invalidates analyzed edge.condition op
  have tested : c.refineEdge analyzed block edge = fun s =>
      (c.procedure.postorder value).foldl (c.refine analyzed edge.condition) s := by
    funext s
    simp only [refineEdge, branch, conditional, ↓reduceIte]
  rw [tested]
  exact each.congr fun l => exists_congr fun op =>
    and_congr_left fun _ => Procedure.mem_postorder_iff

/-- What was not completed becomes invalid. -/
theorem Invalidates.changes {which : Location → Prop} {f : State → State}
    (invalidates : c.Invalidates which f) (now : which l) (trackable : c.isTrackable l = true) :
    ∃ s, s.get? l = some .notCompleted ∧ (f s).get? l = some .invalid := by
  have given : (SortedMap.insert (∅ : State) l .notCompleted).get? l = some .notCompleted := by
    rw [SortedMap.get?_insert, if_pos rfl]
  refine ⟨_, given, ?_⟩
  rw [invalidates.inside _ l now trackable, given]
  rfl

/-- A conditional edge invalidates exactly what the operations of the branch value's tree deny,
each taken by the condition of the edge. So it changes a location only for the sake of the
branch value itself exactly if nothing below it denies more than it does. -/
theorem edge_takes_all_below_by_one_condition (c : Context) (block : Block) (edge : Edge)
    {value : OperationId} (branch : block.branchValue = some value)
    (conditional : edge.condition ≠ .always) (m : Memory) :
    ∃ sent : State → State, (∀ s, (c.visitEdge block edge s).run m = (.ok (sent s), m)) ∧
      c.Invalidates (c.DeniedBelow m.analyzed.contains edge.condition value) sent ∧
      ((∀ s l, (sent s).get? l ≠ s.get? l →
          c.DeniedAt m.analyzed.contains edge.condition value l) ↔
        ∀ l, c.isTrackable l = true →
          c.DeniedBelow m.analyzed.contains edge.condition value l →
            c.DeniedAt m.analyzed.contains edge.condition value l) := by
  have invalidates : c.Invalidates (c.DeniedBelow m.analyzed.contains edge.condition value)
      (c.refineEdge m.analyzed.contains block edge) := refineEdge_invalidates branch conditional
  refine ⟨c.refineEdge m.analyzed.contains block edge, fun s => rfl, invalidates, ?_⟩
  constructor
  · intro promise l trackable denied
    obtain ⟨s, given, changed⟩ := invalidates.changes denied trackable
    apply promise s l
    rw [given, changed]
    decide
  · intro covered s l changed
    by_contra undenied
    refine changed (invalidates.outside s l fun both => undenied ?_)
    exact covered l both.2 both.1

/-! ### A test by itself, and below another operation -/

def testing (test : OperationId) : Block :=
  { id := ⟨0⟩, kind := .entry, operations := [⟨2⟩], branchValue := some test,
    successors := [⟨⟨0⟩, ⟨1⟩, .whenTrue⟩, ⟨⟨0⟩, ⟨2⟩, .whenFalse⟩] }

/-- An instance is created, and completed unless the test holds. Operation 5 asks whether the
instance is null. Of operation 6, which may well be a negation, nothing is known but that
operation 5 is its operand. -/
def guarded (test : OperationId) : Context :=
  let c := oneInstance
    [{ id := ⟨0⟩, kind := .objectCreation ⟨0⟩ [], ty := some ⟨0⟩,
        source := some ⟨⟨1, 0, 1, 11⟩, "new Scope()"⟩ },
      { id := ⟨1⟩, kind := .localReference ⟨0⟩, ty := some ⟨0⟩ },
      { id := ⟨2⟩, kind := .assignment ⟨1⟩ ⟨0⟩, ty := some ⟨0⟩ },
      { id := ⟨3⟩, kind := .localReference ⟨0⟩, ty := some ⟨0⟩ },
      { id := ⟨4⟩, kind := .nullLiteral },
      { id := ⟨5⟩, kind := .binary .equals ⟨3⟩ ⟨4⟩ },
      { id := ⟨6⟩, kind := .other [⟨5⟩] },
      { id := ⟨7⟩, kind := .localReference ⟨0⟩, ty := some ⟨0⟩ },
      { id := ⟨8⟩, kind := .invocation ⟨1⟩ (some ⟨7⟩) [] }]
    []
    [testing test,
      { id := ⟨1⟩, kind := .exit },
      { id := ⟨2⟩, kind := .block, operations := [⟨8⟩], successors := [⟨⟨2⟩, ⟨1⟩, .always⟩] }]
  { env := c.env, body := ⟨c.procedure, c.procedure.localOracle⟩ }

def pastCompletion : Edge := ⟨⟨0⟩, ⟨1⟩, .whenTrue⟩

def created : Location := ⟨.allocation ⟨⟨0⟩, ⟨0⟩⟩, some ⟨0⟩⟩

/-- Where the test is the branch value itself, the edge invalidates the instance and nothing
but what the test denies. -/
theorem guarded_by_the_test_itself :
    (testing ⟨5⟩).branchValue = some ⟨5⟩ ∧ pastCompletion.condition ≠ .always ∧
      ∃ sent : State → State,
        (∀ s, ((guarded ⟨5⟩).visitEdge (testing ⟨5⟩) pastCompletion s).run
          ((guarded ⟨5⟩).initialMemory false) =
            (.ok (sent s), (guarded ⟨5⟩).initialMemory false)) ∧
        (sent (.ofList [(created, .notCompleted)])).get? created = some .invalid ∧
        ∀ s l, (sent s).get? l ≠ s.get? l →
          (guarded ⟨5⟩).DeniedAt ((guarded ⟨5⟩).initialMemory false).analyzed.contains
            .whenTrue ⟨5⟩ l := by
  obtain ⟨sent, ran, invalidates, promise⟩ :=
    edge_takes_all_below_by_one_condition (guarded ⟨5⟩) (testing ⟨5⟩) pastCompletion rfl
      (by decide) ((guarded ⟨5⟩).initialMemory false)
  refine ⟨rfl, by decide, sent, ran, ?_, promise.mpr ?_⟩
  · have denied : (guarded ⟨5⟩).Denies ((guarded ⟨5⟩).initialMemory false).analyzed.contains
        .whenTrue { id := ⟨5⟩, kind := .binary .equals ⟨3⟩ ⟨4⟩ } created :=
      .left rfl (.inl ⟨rfl, rfl⟩) (by decide +kernel) (by decide +kernel)
    rw [invalidates.inside _ created ⟨_, ⟨⟨5⟩, .refl _, rfl⟩, denied⟩ (by decide)]
    decide +kernel
  · rintro l - ⟨op, below, denies⟩
    have listed := Procedure.mem_postorder_iff.mpr below
    have operands : (guarded ⟨5⟩).procedure.postorder ⟨5⟩ =
        [{ id := ⟨3⟩, kind := .localReference ⟨0⟩, ty := some ⟨0⟩ },
          { id := ⟨4⟩, kind := .nullLiteral },
          { id := ⟨5⟩, kind := .binary .equals ⟨3⟩ ⟨4⟩ }] := by decide +kernel
    rw [operands] at listed
    simp only [List.mem_cons, List.not_mem_nil, or_false] at listed
    rcases listed with rfl | rfl | rfl
    · exact denies.isTest.elim
    · exact denies.isTest.elim
    · exact ⟨_, rfl, denies⟩

def findingCount? (c : Context) : Option Nat :=
  match (c.analyze false).1 with
  | .ok result => some (c.procedure.findings result.exitState? "" .nonExceptionPaths).length
  | .error _ => none

/-- Where the test is an operand of something else, which denies nothing itself, the edge
invalidates the instance all the same. The leak past the completion, which is found where the
branch value is no test at all, is then not found. -/
theorem guarded_by_an_operand_hides_the_leak :
    (guarded ⟨6⟩).procedure.graph.Valid ∧
      (guarded ⟨6⟩).procedure.graph.block? ⟨0⟩ = some (testing ⟨6⟩) ∧
      (∀ analyzed l, ¬ (guarded ⟨6⟩).DeniedAt analyzed .whenTrue ⟨6⟩ l) ∧
      (((guarded ⟨6⟩).visitEdge (testing ⟨6⟩) pastCompletion
        (.ofList [(created, .notCompleted)])).run ((guarded ⟨6⟩).initialMemory false)).1 =
          .ok (.ofList [(created, .invalid)]) ∧
      (guarded ⟨6⟩).findingCount? = some 0 ∧ (guarded ⟨4⟩).findingCount? = some 1 := by
  refine ⟨by decide +kernel, by decide +kernel, ?_, by decide +kernel, by decide +kernel,
    by decide +kernel⟩
  rintro analyzed l ⟨op, found, denies⟩
  cases found
  exact denies.isTest

end Context

end PathCompletion
