import PathCompletion.Proofs.Completion.Branch

/-!
What an edge does to the state that goes along it. The test that the edge puts rules locations
out, before any state is looked at; in a state, instances at these locations become invalid, and
nothing else happens.
-/

namespace PathCompletion

theorem Effect.change_invalidate (v : Value) :
    invalidate.change v = if v.kind = .nonTarget then v else .invalid := by
  obtain ⟨kind, evidence⟩ := v
  cases kind <;> rfl

namespace Context

variable {c d : Context} {m n : Memory} {block other : Block} {edge along : Edge} {l : Location}

/-! ### Rules that only invalidate -/

namespace Invalidates

variable {which : Location → Prop} {f : State → State}

theorem contains (invalidates : c.Invalidates which f) (s : State) (l : Location) :
    (f s).contains l = s.contains l := by
  unfold SortedMap.contains
  by_cases affected : which l ∧ c.isTrackable l = true
  · rw [invalidates.inside s l affected.1 affected.2]
    cases s.get? l <;> rfl
  · rw [invalidates.outside s l affected]

theorem idempotent (invalidates : c.Invalidates which f) (s : State) : f (f s) = f s := by
  apply SortedMap.ext
  intro l
  by_cases affected : which l ∧ c.isTrackable l = true
  · rw [invalidates.inside _ l affected.1 affected.2, invalidates.inside s l affected.1 affected.2,
      Effect.act_invalidate_twice]
  · rw [invalidates.outside _ l affected]

theorem of_ruled_out (invalidates : c.Invalidates which f) {s : State} {v : Value}
    (known : s.get? l = some v) (trackable : c.isTrackable l = true) (ruledOut : which l) :
    (f s).get? l = some (if v.kind = .nonTarget then v else .invalid) := by
  rw [invalidates.inside s l ruledOut trackable, known, Effect.act_some, Effect.change_invalidate]

theorem of_not_ruled_out (invalidates : c.Invalidates which f) (s : State) (stays : ¬ which l) :
    (f s).get? l = s.get? l :=
  invalidates.outside s l fun affected => stays affected.1

end Invalidates

/-! ### Tests -/

def RulesOut (c : Context) (analyzed : OperationId → Bool) (block : Block) (edge : Edge)
    (l : Location) : Prop :=
  edge.condition ≠ .always ∧ ∃ value, block.branchValue = some value ∧
    c.DeniedBelow analyzed edge.condition value l

theorem refineEdge_of_untested (untested : edge.condition = .always ∨ block.branchValue = none)
    (analyzed : OperationId → Bool) (s : State) : c.refineEdge analyzed block edge s = s := by
  rcases untested with unconditional | valueless
  · simp only [refineEdge, unconditional, ↓reduceIte]
    split <;> rfl
  · simp only [refineEdge, valueless]

theorem refineEdge_rules_out (c : Context) (analyzed : OperationId → Bool) (block : Block)
    (edge : Edge) :
    c.Invalidates (c.RulesOut analyzed block edge) (c.refineEdge analyzed block edge) := by
  by_cases untested : edge.condition = .always ∨ block.branchValue = none
  · have still : c.refineEdge analyzed block edge = fun s => s :=
      funext (refineEdge_of_untested untested analyzed)
    rw [still]
    refine .id fun l rulesOut => ?_
    obtain ⟨conditional, value, branch, -⟩ := rulesOut
    rw [branch] at untested
    exact untested.elim conditional nofun
  · obtain ⟨conditional, valued⟩ := not_or.mp untested
    obtain ⟨value, branch⟩ := Option.ne_none_iff_exists'.mp valued
    exact (refineEdge_invalidates branch conditional).congr fun l => by
      simp [RulesOut, branch, conditional]

/-- Two edges put the same test: they have the same condition on the same tree of operations,
with the same alias information, the same symbols and the same calls noted as analyzed. -/
structure SameTest (c d : Context) (m n : Memory) (block other : Block) (edge along : Edge) :
    Prop where
  value : block.branchValue = other.branchValue
  tree : ∀ value, block.branchValue = some value → ∀ id, Reaches c.procedure.operands value id →
    c.procedure.operation? id = d.procedure.operation? id
  condition : edge.condition = along.condition
  oracle : c.oracle = d.oracle
  symbols : c.env.symbols = d.env.symbols
  analyzed : ∀ call, m.analyzed.contains call = n.analyzed.contains call

namespace SameTest

theorem reaches (same : c.SameTest d m n block other edge along) {value id : OperationId}
    (branch : block.branchValue = some value) (below : Reaches d.procedure.operands value id) :
    Reaches c.procedure.operands value id := by
  have kept : ∀ x, Reaches c.procedure.operands value x → ∀ y ∈ d.procedure.operands x,
      Reaches c.procedure.operands value y := by
    intro x above y operand
    refine above.snoc ?_
    rw [Procedure.operands, same.tree value branch x above]
    exact operand
  exact below.induct kept (.refl value)

theorem symm (same : c.SameTest d m n block other edge along) :
    d.SameTest c n m other block along edge where
  value := same.value.symm
  tree value branch id below := by
    have branchToo := same.value.trans branch
    exact (same.tree value branchToo id (same.reaches branchToo below)).symm
  condition := same.condition.symm
  oracle := same.oracle.symm
  symbols := same.symbols.symm
  analyzed call := (same.analyzed call).symm

theorem argument? (same : c.SameTest d m n block other edge along) {value id : OperationId}
    (branch : block.branchValue = some value) (below : Reaches c.procedure.operands value id) :
    c.argument? id = d.argument? id := by
  rw [Context.argument?, Context.argument?, same.tree value branch id below]

theorem denies (same : c.SameTest d m n block other edge along) {value id : OperationId}
    {op : Operation} (branch : block.branchValue = some value)
    (below : Reaches c.procedure.operands value id) (found : c.procedure.operation? id = some op)
    (denied : c.Denies m.analyzed.contains edge.condition op l) :
    d.Denies n.analyzed.contains along.condition op l := by
  have locations (id : OperationId) : c.locations id = d.locations id := by
    rw [Context.locations, Context.locations, same.oracle]
  rw [← same.condition]
  cases denied with
  | left kind equal null here =>
      exact .left kind equal (same.oracle ▸ null) (locations _ ▸ here)
  | right kind equal unlike null here =>
      exact .right kind equal (same.oracle ▸ unlike) (same.oracle ▸ null) (locations _ ▸ here)
  | isNull kind holds here => exact .isNull kind holds (locations _ ▸ here)
  | @out method target arguments signature argument _ _
      kind refused unanalyzed known answers passed out here =>
      have operand : argument ∈ c.procedure.operands id := by
        simp [Procedure.operands, found, Operation.children, OperationKind.children, kind, passed]
      rw [same.argument? branch (below.snoc operand)] at out
      rw [same.analyzed] at unanalyzed
      have answersToo : d.returnsBool signature = true := by
        rw [← answers, returnsBool, returnsBool, same.symbols]
      exact .out kind refused unanalyzed (same.symbols ▸ known) answersToo passed out
        (locations _ ▸ here)

theorem rulesOut (same : c.SameTest d m n block other edge along)
    (ruledOut : c.RulesOut m.analyzed.contains block edge l) :
    d.RulesOut n.analyzed.contains other along l := by
  obtain ⟨conditional, value, branch, op, ⟨id, below, found⟩, denied⟩ := ruledOut
  refine ⟨same.condition ▸ conditional, value, same.value ▸ branch, op, ⟨id, ?_, ?_⟩, ?_⟩
  · exact same.symm.reaches (same.value ▸ branch) below
  · rw [← same.tree value branch id below]
    exact found
  · exact same.denies branch below found denied

end SameTest

/-- An edge invalidates, and does nothing else: keys stay, and so do values but for those that
become invalid. Which locations it rules out is settled by its test alone: by the tree of the
branch value, the condition, the alias information, the symbols and the calls noted as analyzed,
the same for all contexts, memories and states that have these in common. What has gone along the
edge is not changed by it again, and an edge without a test changes nothing. -/
theorem edges_only_invalidate (c : Context) (m : Memory) (block : Block) (edge : Edge) :
    ∃ ruledOut : Location → Prop, ∀ (d : Context) (n : Memory) (other : Block) (along : Edge),
      c.SameTest d m n block other edge along → ∀ s : State,
        (s.Each fun l _ => d.isTrackable l = true) →
        ∃ sent, (d.visitEdge other along s).run n = (.ok sent, n) ∧
          (∀ l, sent.contains l = s.contains l) ∧
          (∀ l v, s.get? l = some v → ruledOut l →
            sent.get? l = some (if v.kind = .nonTarget then v else .invalid)) ∧
          (∀ l, ¬ ruledOut l → sent.get? l = s.get? l) ∧
          (d.visitEdge other along sent).run n = (.ok sent, n) ∧
          (along.condition = .always ∨ other.branchValue = none → sent = s) := by
  refine ⟨c.RulesOut m.analyzed.contains block edge, ?_⟩
  intro d n other along same s trackable
  have invalidates := d.refineEdge_rules_out n.analyzed.contains other along
  have run (s : State) : (d.visitEdge other along s).run n =
      (.ok (d.refineEdge n.analyzed.contains other along s), n) := rfl
  refine ⟨_, run s, invalidates.contains s, ?_, ?_, ?_,
    fun untested => refineEdge_of_untested untested _ s⟩
  · intro l v known ruledOut
    exact invalidates.of_ruled_out known (trackable l v known) (same.rulesOut ruledOut)
  · intro l stays
    exact invalidates.of_not_ruled_out s fun ruledOut => stays (same.symm.rulesOut ruledOut)
  · rw [run, invalidates.idempotent]

def testOnly (test : OperationId) : Block := { testing test with operations := [] }

theorem guarded_edge_only_invalidates :
    (guarded ⟨5⟩).SameTest (guarded ⟨5⟩) {} {} (testing ⟨5⟩) (testOnly ⟨5⟩) pastCompletion
        pastCompletion ∧
      State.Each (fun l _ => (guarded ⟨5⟩).isTrackable l = true)
        (.ofList [(created, .notCompleted)]) ∧
      ∃ sent, ((guarded ⟨5⟩).visitEdge (testOnly ⟨5⟩) pastCompletion
          (.ofList [(created, .notCompleted)])).run {} = (.ok sent, {}) ∧
        sent.get? created = some .invalid ∧
        ((guarded ⟨5⟩).visitEdge (testOnly ⟨5⟩) pastCompletion sent).run {} = (.ok sent, {}) := by
  have same : (guarded ⟨5⟩).SameTest (guarded ⟨5⟩) {} {} (testing ⟨5⟩) (testOnly ⟨5⟩)
      pastCompletion pastCompletion := ⟨rfl, fun _ _ _ _ => rfl, rfl, rfl, rfl, fun _ => rfl⟩
  have trackable : State.Each (fun l _ => (guarded ⟨5⟩).isTrackable l = true)
      (.ofList [(created, .notCompleted)]) := by
    intro l v known
    have listed : (l, v) ∈ [(created, Value.notCompleted)] := SortedMap.mem_entries_iff.mpr known
    cases List.mem_singleton.mp listed
    decide
  obtain ⟨ruledOut, only⟩ := edges_only_invalidate (guarded ⟨5⟩) {} (testing ⟨5⟩) pastCompletion
  obtain ⟨sent, ran, -, -, -, again, -⟩ := only _ _ _ _ same _ trackable
  have outcome : (((guarded ⟨5⟩).visitEdge (testOnly ⟨5⟩) pastCompletion
      (.ofList [(created, .notCompleted)])).run {}).1 = .ok (.ofList [(created, .invalid)]) := by
    decide +kernel
  rw [ran] at outcome
  cases outcome
  exact ⟨same, trackable, _, ran, by decide +kernel, again⟩

end Context

end PathCompletion
