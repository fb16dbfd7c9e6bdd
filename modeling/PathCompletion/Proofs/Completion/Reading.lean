import PathCompletion.Proofs.Completion.Summary
import PathCompletion.Proofs.Fixpoint.Residue

/-!
Procedures that only read. What a visit of such a procedure does beyond passing states on comes
from its references to fields: the first one to a field tracks the field, and writes over what
the state has for its content; later ones bring the content only where it is missing. So a visit
depends on what was visited before, until all fields that are read are tracked, and from then on
on the state alone.
-/

namespace PathCompletion

def OperationKind.onlyReads : OperationKind → Bool
  | .instanceReference | .literal | .nullLiteral | .fieldReference .. => true
  | _ => false

theorem OperationKind.mayEscape_of_onlyReads {kind : OperationKind}
    (reads : kind.onlyReads = true) : kind.mayEscape = false := by
  cases kind with
  | instanceReference | literal | nullLiteral | fieldReference => rfl
  | _ => contradiction

structure Body.OnlyReads (b : Body) : Prop where
  kinds : ∀ op ∈ b.procedure.operations, op.kind.onlyReads = true
  inside : ∀ op ∈ b.procedure.operations, b.oracle.escaped op.id = ∅

/-- The alias information that a procedure gives by itself lets nothing leave by a read. -/
theorem Body.onlyReads_of_local {b : Body}
    (kinds : ∀ op ∈ b.procedure.operations, op.kind.onlyReads = true)
    (aliases : b.oracle = b.procedure.localOracle) : b.OnlyReads := by
  refine ⟨kinds, fun op _ => SortedSet.ext fun l => ?_⟩
  refine ⟨fun member => ?_, fun member => absurd member (SortedSet.not_mem_empty l)⟩
  rw [aliases] at member
  obtain ⟨other, listed, -, escapes⟩ := Procedure.mayEscape_of_mem_escaped member
  rw [OperationKind.mayEscape_of_onlyReads (kinds other listed)] at escapes
  contradiction

theorem PointsTo.toList_of_singleLocation? {v : PointsTo} {l : Location}
    (single : v.singleLocation? = some l) : v.locations.toList = [l] := by
  unfold singleLocation? at single
  split at single
  · next same =>
    cases single
    exact same
  · contradiction

/-- A reference to a field of the current instance that can bring its content. -/
structure Read where
  field : FieldId
  content : PointsTo
  location : Location

namespace Context

/-! ### References to fields -/

def read? (c : Context) (reachable : Bool) (op : Operation) : Option Read :=
  match op.kind, (c.oracle.pointsTo op.id).singleLocation? with
  | .fieldReference field target, some l =>
      if c.procedure.isThis target && l.isFieldDefault && c.creates reachable op.ty then
        some ⟨field, c.oracle.pointsTo op.id, l⟩
      else none
  | _, _ => none

def reads (c : Context) (block : Block) : List Read :=
  (c.evaluated block).filterMap (c.read? block.isReachable)

def bring (c : Context) (s : State) (r : Read) : State :=
  if s.contains r.location then s else c.setValue s r.location .notCompleted

def look (c : Context) (now : State × TrackedFields) (r : Read) : State × TrackedFields :=
  if now.2.contains r.field then (c.bring now.1 r, now.2)
  else (c.setValue now.1 r.location .notCompleted, now.2.insert r.field r.content)

/-- How states move when all fields that are read are tracked. -/
def rereading (c : Context) : Motion State where
  through block s := (c.reads block).foldl c.bring s
  along _ _ s := s

variable {c : Context} {s : State} {fields : TrackedFields} {m : Memory} {l : Location}
  {w : Value}

theorem create_of_single {op : Operation} {reachable : Bool}
    (creates : c.creates reachable op.ty = true)
    (single : (c.oracle.pointsTo op.id).singleLocation? = some l) :
    c.create reachable op.ty (c.oracle.pointsTo op.id).locations s =
      c.setValue s l .notCompleted := by
  simp only [create, creates, ↓reduceIte, setAll, PointsTo.toList_of_singleLocation? single,
    List.foldl_cons, List.foldl_nil]

theorem visitField_eq {op : Operation} {field : FieldId} {target : Option OperationId}
    (kind : op.kind = .fieldReference field target) (tracked : m.fields = some fields)
    (reachable : Bool) :
    c.visitField reachable op field target s m = match c.read? reachable op with
      | some r => ((c.look (s, fields) r).1, { m with fields := some (c.look (s, fields) r).2 })
      | none => (s, m) := by
  have same : { m with fields := some fields } = m := by rw [← tracked]
  cases single : (c.oracle.pointsTo op.id).singleLocation? with
  | none => simp only [visitField, read?, kind, tracked, single]
  | some l =>
      simp only [visitField, read?, kind, tracked, single]
      by_cases brings : (c.procedure.isThis target && l.isFieldDefault &&
          c.creates reachable op.ty) = true
      · have something : (!c.procedure.isThis target || !l.isFieldDefault ||
            !c.creates reachable op.ty) = false := by simp_all
        have creates : c.creates reachable op.ty = true := (Bool.and_eq_true_iff.mp brings).2
        simp only [brings, something, create_of_single creates single, look, bring,
          Bool.false_eq_true, ↓reduceIte]
        by_cases known : fields.contains field = true
        · by_cases present : s.contains l = true <;> simp [known, present, same]
        · simp [known]
      · have nothing : (!c.procedure.isThis target || !l.isFieldDefault ||
            !c.creates reachable op.ty) = true := by
          by_contra
          simp_all
        simp only [brings, nothing, Bool.false_eq_true, ↓reduceIte]

/-- One of the references is the first to its field, counting the earlier ones, and brings this
location, for which states are kept. -/
def Overwrites (c : Context) (earlier reads : List Read) (l : Location) : Prop :=
  c.isTrackable l = true ∧ ∃ before r after, reads = before ++ r :: after ∧ r.location = l ∧
    ∀ x ∈ earlier ++ before, x.field ≠ r.field

theorem not_overwrites_nil {earlier : List Read} : ¬ c.Overwrites earlier [] l := by
  rintro ⟨-, before, r, after, split, -⟩
  simp at split

theorem overwrites_cons_iff {earlier rest : List Read} {r : Read} :
    c.Overwrites earlier (r :: rest) l ↔
      (c.isTrackable l = true ∧ r.location = l ∧ ∀ x ∈ earlier, x.field ≠ r.field) ∨
        c.Overwrites (earlier ++ [r]) rest l := by
  constructor
  · rintro ⟨trackable, before, first, after, split, here, fresh⟩
    cases before with
    | nil =>
        cases split
        exact .inl ⟨trackable, here, by simpa using fresh⟩
    | cons head before =>
        cases split
        exact .inr ⟨trackable, before, first, after, rfl, here, by simpa using fresh⟩
  · rintro (⟨trackable, here, fresh⟩ | ⟨trackable, before, first, after, rfl, here, fresh⟩)
    · exact ⟨trackable, [], r, rest, rfl, here, by simpa using fresh⟩
    · exact ⟨trackable, r :: before, first, after, rfl, here, by simpa using fresh⟩

def Tracks (fields : TrackedFields) (reads : List Read) : Prop :=
  ∀ field, fields.contains field = true ↔ ∃ r ∈ reads, r.field = field

theorem Tracks.look {earlier : List Read} (tracks : Tracks fields earlier) (r : Read) :
    Tracks (c.look (s, fields) r).2 (earlier ++ [r]) := by
  intro field
  unfold Context.look
  dsimp only
  split
  · next known =>
    rw [tracks field]
    constructor
    · rintro ⟨x, member, same⟩
      exact ⟨x, List.mem_append_left _ member, same⟩
    · rintro ⟨x, member, rfl⟩
      rcases List.mem_append.mp member with before | last
      · exact ⟨x, before, rfl⟩
      · rw [List.mem_singleton.mp last]
        exact (tracks r.field).mp known
  · have inserted : (fields.insert r.field r.content).contains field = true ↔
        r.field = field ∨ fields.contains field = true := by
      simp only [SortedMap.contains, SortedMap.get?_insert, Key.key_eq_iff]
      by_cases same : r.field = field <;> simp [same]
    rw [inserted, tracks field]
    simp only [List.mem_append, List.mem_singleton]
    constructor
    · rintro (same | ⟨x, member, same⟩)
      · exact ⟨r, .inr rfl, same⟩
      · exact ⟨x, .inl member, same⟩
    · rintro ⟨x, member | rfl, same⟩
      · exact .inr ⟨x, member, same⟩
      · exact .inl same

theorem Tracks.foldl_look {earlier : List Read} (tracks : Tracks fields earlier)
    (reads : List Read) (s : State) :
    Tracks (reads.foldl c.look (s, fields)).2 (earlier ++ reads) := by
  induction reads generalizing s fields earlier with
  | nil => simpa using tracks
  | cons r rest ih =>
      have later := ih (tracks.look (c := c) (s := s) r) (c.look (s, fields) r).1
      rwa [List.append_assoc] at later

theorem get?_bring (r : Read) (now : s.get? l = some w) : (c.bring s r).get? l = some w := by
  unfold bring
  split
  · exact now
  · next absent =>
    have elsewhere : r.location ≠ l := by
      rintro rfl
      exact absent (SortedMap.contains_iff.mpr ⟨w, now⟩)
    rw [get?_setValue, if_neg fun both => elsewhere both.1, now]

/-- What is there is overwritten by the first reference to a field, and by no other. -/
theorem get?_look {earlier : List Read} (tracks : Tracks fields earlier) (r : Read)
    (now : s.get? l = some w) :
    (c.isTrackable l = true ∧ r.location = l ∧ (∀ x ∈ earlier, x.field ≠ r.field) ∧
      (c.look (s, fields) r).1.get? l = some .notCompleted) ∨
    (¬ (c.isTrackable l = true ∧ r.location = l ∧ ∀ x ∈ earlier, x.field ≠ r.field) ∧
      (c.look (s, fields) r).1.get? l = some w) := by
  have written := get?_setValue c s r.location l .notCompleted
  unfold look
  by_cases known : fields.contains r.field = true
  · obtain ⟨x, member, same⟩ := (tracks r.field).mp known
    refine .inr ⟨fun ⟨_, _, fresh⟩ => fresh x member same, ?_⟩
    simp only [known, ↓reduceIte]
    exact get?_bring r now
  · have fresh : ∀ x ∈ earlier, x.field ≠ r.field :=
      fun x member same => known ((tracks r.field).mpr ⟨x, member, same⟩)
    simp only [known, Bool.false_eq_true, ↓reduceIte]
    by_cases here : r.location = l ∧ c.isTrackable r.location = true
    · rw [if_pos here] at written
      exact .inl ⟨here.1 ▸ here.2, here.1, fresh, written⟩
    · rw [if_neg here, now] at written
      exact .inr ⟨fun ⟨trackable, same, _⟩ => here ⟨same, same ▸ trackable⟩, written⟩

theorem get?_foldl_look {earlier : List Read} (tracks : Tracks fields earlier)
    (reads : List Read) (now : s.get? l = some w) :
    (c.Overwrites earlier reads l →
      (reads.foldl c.look (s, fields)).1.get? l = some .notCompleted) ∧
    (¬ c.Overwrites earlier reads l → (reads.foldl c.look (s, fields)).1.get? l = some w) := by
  induction reads generalizing s fields earlier w with
  | nil => exact ⟨fun overwrites => absurd overwrites not_overwrites_nil, fun _ => now⟩
  | cons r rest ih =>
      rw [List.foldl_cons, overwrites_cons_iff]
      have tracksNext := tracks.look (c := c) (s := s) r
      rcases get?_look (c := c) tracks r now with
        ⟨trackable, here, fresh, written⟩ | ⟨other, kept⟩
      · have later := ih tracksNext written
        have stays : (rest.foldl c.look (c.look (s, fields) r)).1.get? l = some .notCompleted :=
          (Classical.em _).elim later.1 later.2
        exact ⟨fun _ => stays, fun not => absurd (.inl ⟨trackable, here, fresh⟩) not⟩
      · have later := ih tracksNext kept
        exact ⟨fun overwrites => later.1 (overwrites.resolve_left other),
          fun not => later.2 fun overwrites => not (.inr overwrites)⟩

theorem foldl_look_of_tracked (block : Block)
    (known : ∀ r ∈ c.reads block, fields.contains r.field = true) :
    (c.reads block).foldl c.look (s, fields) = (c.rereading.through block s, fields) := by
  unfold rereading
  dsimp only
  generalize c.reads block = reads at known
  induction reads generalizing s with
  | nil => rfl
  | cons r rest ih =>
      have step : c.look (s, fields) r = (c.bring s r, fields) := by
        simp only [look, known r List.mem_cons_self, ↓reduceIte]
      rw [List.foldl_cons, List.foldl_cons, step]
      exact ih fun x member => known x (List.mem_cons_of_mem r member)

theorem get?_rereading (block : Block) (now : s.get? l = some w) :
    (c.rereading.through block s).get? l = some w := by
  unfold rereading
  dsimp only
  generalize c.reads block = reads
  induction reads generalizing s with
  | nil => exact now
  | cons r rest ih => exact ih (get?_bring r now)

/-! ### Visits -/

theorem refine_of_onlyReads {op : Operation} (reads : op.kind.onlyReads = true)
    (analyzed : OperationId → Bool) (condition : Condition) :
    c.refine analyzed condition s op = s := by
  unfold refine
  cases kind : op.kind with
  | binary | isNull | invocation =>
      rw [kind] at reads
      contradiction
  | _ => rfl

section

variable (only : c.body.OnlyReads) (descend : Option Runner)

include only

theorem visitOperation_reads {op : Operation} (listed : op ∈ c.procedure.operations)
    (tracked : m.fields = some fields) (reachable : Bool) :
    (c.visitOperation descend reachable s op).run m = match c.read? reachable op with
      | some r => (.ok (c.look (s, fields) r).1,
          { m with fields := some (c.look (s, fields) r).2 })
      | none => (.ok s, m) := by
  have kinds := only.kinds op listed
  have stays (s : State) : c.applyEscapes op s = s := by
    have nothing : c.oracle.escaped op.id = ∅ := only.inside op listed
    simp only [applyEscapes, nothing, escape, revise]
    split <;> rfl
  unfold visitOperation
  cases kind : op.kind with
  | fieldReference field target =>
      rw [Step.run_bind_of_ok (Step.run_modifyGet _ m), visitField_eq kind tracked]
      cases c.read? reachable op <;> simp only [stays, Step.run_pure]
  | instanceReference | literal | nullLiteral =>
      rw [Step.run_bind_of_ok (Step.run_pure s m)]
      simp only [stays, read?, kind, Step.run_pure]
  | _ => simp [kind, OperationKind.onlyReads] at kinds

theorem visitBlock_reads (callee : c.isCallee = true) (tracked : m.fields = some fields)
    (block : Block) :
    (c.visitBlock descend block s).run m =
      (.ok ((c.reads block).foldl c.look (s, fields)).1,
        { m with fields := some ((c.reads block).foldl c.look (s, fields)).2 }) := by
  have all (ops : List Operation) (listed : ∀ op ∈ ops, op ∈ c.procedure.operations) (s : State)
      (m : Memory) (fields : TrackedFields) (tracked : m.fields = some fields) :
      (ops.foldlM (c.visitOperation descend block.isReachable) s).run m =
        (.ok ((ops.filterMap (c.read? block.isReachable)).foldl c.look (s, fields)).1,
          { m with
            fields := some ((ops.filterMap (c.read? block.isReachable)).foldl c.look
              (s, fields)).2 }) := by
    -- The state and the tracked fields change together, so the memory is general here too.
    induction ops generalizing s m fields with
    | nil =>
        rw [List.filterMap_nil, List.foldl_nil, ← tracked]
        rfl
    | cons first rest ih =>
        have visited := visitOperation_reads (s := s) only descend (listed first List.mem_cons_self)
          tracked block.isReachable
        have later := ih fun op member => listed op (List.mem_cons_of_mem first member)
        rw [List.foldlM_cons]
        cases read : c.read? block.isReachable first with
        | none =>
            rw [read] at visited
            rw [Step.run_bind_of_ok visited, List.filterMap_cons_none read]
            exact later s m fields tracked
        | some r =>
            rw [read] at visited
            rw [Step.run_bind_of_ok visited, List.filterMap_cons_some read, List.foldl_cons]
            exact later _ _ _ rfl
  unfold visitBlock
  rw [Step.run_bind_of_ok (all _ (fun op => mem_operations_of_evaluated) s m fields tracked)]
  simp only [callee, Bool.not_true, Bool.and_false, Bool.false_eq_true, ↓reduceIte, Step.run_pure,
    reads]

theorem refineEdge_reads (analyzed : OperationId → Bool) (block : Block) (edge : Edge) :
    c.refineEdge analyzed block edge s = s := by
  unfold refineEdge
  split
  · rfl
  · next value _ =>
    split
    · rfl
    · have all : ∀ op ∈ c.procedure.postorder value, op.kind.onlyReads = true :=
        fun op member => only.kinds op (Procedure.mem_operations_of_postorderWithin member)
      generalize c.procedure.postorder value = ops at all
      induction ops with
      | nil => rfl
      | cons first rest ih =>
          rw [List.foldl_cons, refine_of_onlyReads (all first List.mem_cons_self)]
          exact ih fun op member => all op (List.mem_cons_of_mem first member)

theorem leave_reads (block : Block) (output : State) (p : Progress State) :
    ((c.problem descend).leave block output p).run m =
      (.ok ((c.problem descend).send c.rereading block output p), m) := by
  have sends : Step.Gives (· = m) ((c.problem descend).leave block output p)
      ((c.problem descend).send c.rereading block output p) := by
    apply Step.Gives.foldlM
    rintro q ⟨edge, index⟩ -
    refine Step.Gives.bind (a := output) ?_ (.pure _)
    intro n same
    refine ⟨n, ?_, same⟩
    change (pure (c.refineEdge n.analyzed.contains block edge output) : Step Memory State).run n = _
    rw [refineEdge_reads only, Step.run_pure]
  obtain ⟨after, ran, rfl⟩ := sends m rfl
  exact ran

/-- A visit looks at what the block reads, one reference after the other, and sends the state it
comes to along all edges. -/
theorem visit_reads (callee : c.isCallee = true) (tracked : m.fields = some fields)
    {p q : Progress State} {id : BlockId} {after : Memory} {block : Block} {input : State}
    (found : c.procedure.graph.block? id = some block)
    (arrived : (c.problem descend).input? c.procedure.graph.plan p.edges id = some input)
    (ran : ((c.problem descend).visit c.procedure.graph.plan p id).run m = (.ok q, after)) :
    q = { (c.problem descend).send c.rereading block
            ((c.reads block).foldl c.look (input, fields)).1 p with
          snapshots := p.snapshots.insert id
            ⟨input, ((c.reads block).foldl c.look (input, fields)).1⟩ } ∧
      after = { m with fields := some ((c.reads block).foldl c.look (input, fields)).2 } := by
  rcases Problem.visit_cases ran with ⟨nothing, -⟩ | ⟨_, _, output, left, between, foundToo,
    arrivedToo, visited, sent, rfl⟩
  · rcases nothing with missing | missing
    · cases missing.symm.trans found
    · cases missing.symm.trans arrived
  · cases foundToo.symm.trans found
    cases arrivedToo.symm.trans arrived
    cases visited.symm.trans (visitBlock_reads only descend callee tracked block)
    cases sent.symm.trans (leave_reads only descend block _ p)
    exact ⟨by rw [Problem.snapshots_send], rfl⟩

end

end Context

end PathCompletion
