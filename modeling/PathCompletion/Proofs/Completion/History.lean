import PathCompletion.Proofs.Completion.Frame

/-!
Visits do not depend on the past. What a visitor remembers of earlier blocks and edges is which
calls were analyzed, and an edge asks for that only about the calls in the branch value of its
block. The visit of the block has just noted each of them anew, or they are calls that are never
noted; so visitors with different pasts agree, as long as calls of the two sorts do not share an
identity.
-/

namespace PathCompletion

/-! ### Notes of calls -/

def Operation.isInvocation (op : Operation) : Bool :=
  match op.kind with
  | .invocation .. => true
  | _ => false

namespace Memory

variable {calls : OperationId → Prop} {m n : Memory}

structure Notes (calls : OperationId → Prop) (m : Memory) : Prop where
  fields : m.fields = none
  analyzed : ∀ id, m.analyzed.contains id = true → calls id

/-- No fields are tracked, the analysis is cancelled in both or in neither, and these calls are
noted as analyzed in both or in neither. -/
structure Agrees (calls : OperationId → Prop) (m n : Memory) : Prop where
  fields : m.fields = none
  fieldsToo : n.fields = none
  cancelled : m.cancelled = n.cancelled
  analyzed : ∀ id, calls id → m.analyzed.contains id = n.analyzed.contains id

theorem analyzed_noteAnalyzed (m : Memory) (call id : OperationId) (result : Result) :
    (m.noteAnalyzed call result).analyzed.contains id =
      if call = id then true else m.analyzed.contains id := by
  simp only [noteAnalyzed, SortedMap.contains, SortedMap.get?_insert, Key.key_eq_iff]
  split <;> rfl

theorem analyzed_noteDegraded (m : Memory) (call id : OperationId) :
    (m.noteDegraded call).analyzed.contains id =
      if call = id then false else m.analyzed.contains id := by
  simp only [noteDegraded, SortedMap.contains, SortedMap.get?_erase, Key.key_eq_iff]
  split <;> rfl

theorem fields_noteAnalyzed (untracked : m.fields = none) (call : OperationId) (result : Result) :
    (m.noteAnalyzed call result).fields = none := by
  simp only [noteAnalyzed, untracked]

theorem Notes.noteAnalyzed (notes : m.Notes calls) {call : OperationId} (noted : calls call)
    (result : Result) : (m.noteAnalyzed call result).Notes calls := by
  refine ⟨fields_noteAnalyzed notes.fields call result, fun id found => ?_⟩
  rw [analyzed_noteAnalyzed] at found
  split at found
  · next here => exact here ▸ noted
  · exact notes.analyzed id found

theorem Notes.noteDegraded (notes : m.Notes calls) (call : OperationId) :
    (m.noteDegraded call).Notes calls := by
  refine ⟨notes.fields, fun id found => ?_⟩
  rw [analyzed_noteDegraded] at found
  split at found
  · contradiction
  · exact notes.analyzed id found

theorem Agrees.noteAnalyzed (agrees : Agrees calls m n) (call : OperationId) (result : Result) :
    Agrees (fun id => calls id ∨ id = call) (m.noteAnalyzed call result)
      (n.noteAnalyzed call result) where
  fields := fields_noteAnalyzed agrees.fields call result
  fieldsToo := fields_noteAnalyzed agrees.fieldsToo call result
  cancelled := agrees.cancelled
  analyzed id inside := by
    rw [analyzed_noteAnalyzed, analyzed_noteAnalyzed]
    split
    · rfl
    · next other => exact agrees.analyzed id (inside.resolve_right (Ne.symm other))

theorem Agrees.noteDegraded (agrees : Agrees calls m n) (call : OperationId) :
    Agrees (fun id => calls id ∨ id = call) (m.noteDegraded call) (n.noteDegraded call) where
  fields := agrees.fields
  fieldsToo := agrees.fieldsToo
  cancelled := agrees.cancelled
  analyzed id inside := by
    rw [analyzed_noteDegraded, analyzed_noteDegraded]
    split
    · rfl
    · next other => exact agrees.analyzed id (inside.resolve_right (Ne.symm other))

theorem Agrees.cancel (agrees : Agrees calls m n) (flag : Bool → Bool) :
    Agrees calls { m with cancelled := flag m.cancelled }
      { n with cancelled := flag n.cancelled } :=
  { agrees with cancelled := congrArg flag agrees.cancelled }

end Memory

namespace Context

variable {c : Context} {descend : Option Runner} {calls : OperationId → Prop}

def notes (c : Context) (method : MethodId) : Bool :=
  ((c.env.symbols.method method).map c.mayPassTarget).getD true

def notesCall (c : Context) (op : Operation) : Bool :=
  match op.kind with
  | .invocation method _ _ => method ≠ c.env.target.completion && c.notes method
  | _ => false

/-! ### What visits note -/

section

variable {kind : Memory → Prop}
  (ignores : ∀ m : Memory, kind m → ∀ cancelled, kind { m with cancelled })

include ignores

theorem runCallee_leaves (run : Runner) (child : Context) :
    Step.Leaves kind (runCallee run child) := by
  unfold runCallee
  refine .bind .get fun m => .bind (.modify fun n now => ignores n now _) ?_
  intro _
  split
  · exact .pure _
  · split
    · exact .pure _
    · exact .throw _

/-- Looking into a callee notes nothing, but that the analysis may be cancelled. -/
theorem analyzeCall_leaves (method : MethodId) (signature : Signature)
    (arguments : List OperationId) (s : State) :
    Step.Leaves kind (c.analyzeCall descend method signature arguments s) := by
  unfold analyzeCall
  split
  · exact .pure _
  cases descend with
  | none => exact .pure _
  | some run =>
      refine .bind (.modify fun m now => ignores m now _) fun _ => ?_
      split
      · exact .pure _
      · have ran := runCallee_leaves ignores run
        refine .bind .get fun m => ?_
        split
        · exact .bind (.throw _) fun _ => .bind (ran _) fun _ => .pure _
        · exact .bind (ran _) fun _ => .pure _

end

theorem runCallee_alike (run : Runner) (child : Context) :
    Step.Alike (Memory.Agrees calls) (Memory.Agrees calls) (runCallee run child) := by
  unfold runCallee
  refine .get_bind (fun m n agrees => by rw [agrees.cancelled]) fun m => ?_
  refine .bind (.modify fun m n agrees => agrees.cancel fun _ => _) fun _ => ?_
  split
  · exact .pure _
  · split
    · exact .pure _
    · exact .throw _

theorem analyzeCall_alike (method : MethodId) (signature : Signature)
    (arguments : List OperationId) (s : State) :
    Step.Alike (Memory.Agrees calls) (Memory.Agrees calls)
      (c.analyzeCall descend method signature arguments s) := by
  unfold analyzeCall
  split
  · exact .pure _
  cases descend with
  | none => exact .pure _
  | some run =>
      refine .bind (.modify fun m n agrees => agrees.cancel (· || _)) fun _ => ?_
      split
      · exact .pure _
      · refine .get_bind (fun m n agrees => by rw [agrees.cancelled]) fun m => ?_
        split
        · exact .bind (.throw _) fun _ => .bind (runCallee_alike run _) fun _ => .pure _
        · exact .bind (runCallee_alike run _) fun _ => .pure _

def concludeCall (c : Context) (op : Operation) (method : MethodId)
    (arguments : List OperationId) (s : State) :
    Option (Body × Result) → Step Memory (State × Bool)
  | some (callee, result) => do
      modify fun m => m.noteAnalyzed op.id result
      match result.exitState? with
      | some exit => return (c.applyCallee op callee arguments exit s, true)
      | none => return (s, true)
  | none =>
      if c.notes method then do
        modify fun m => m.noteDegraded op.id
        return (c.degrade op arguments s, false)
      else return (s, false)

theorem enterCall_eq (descend : Option Runner) (op : Operation) (method : MethodId)
    (arguments : List OperationId) (s : State) :
    c.enterCall descend op method arguments s =
      (match c.env.symbols.method method with
        | some signature => c.analyzeCall descend method signature arguments s
        | none => pure none) >>= c.concludeCall op method arguments s := by
  unfold enterCall concludeCall notes
  cases c.env.symbols.method method <;> rfl

/-- A call that is not noted is not entered either. -/
theorem enterCall_of_not_notes {method : MethodId} (unnoted : c.notes method = false)
    (op : Operation) (arguments : List OperationId) (s : State) :
    c.enterCall descend op method arguments s = pure (s, false) := by
  unfold notes at unnoted
  cases known : c.env.symbols.method method with
  | none => simp [known] at unnoted
  | some signature =>
      have passes : c.mayPassTarget signature = false := by simpa [known] using unnoted
      simp [enterCall, analyzeCall, known, passes]

theorem enterCall_leaves {op : Operation} {method : MethodId}
    (noted : c.notes method = true → calls op.id) (arguments : List OperationId) (s : State) :
    Step.Leaves (Memory.Notes calls) (c.enterCall descend op method arguments s) := by
  cases notes : c.notes method with
  | false =>
      rw [enterCall_of_not_notes notes]
      exact .pure _
  | true =>
      rw [enterCall_eq]
      refine .bind ?_ fun outcome => ?_
      · split
        · exact analyzeCall_leaves (fun _ notes _ => ⟨notes.fields, notes.analyzed⟩) method _
            arguments s
        · exact .pure none
      unfold concludeCall
      split
      · refine .bind (.modify fun m before => before.noteAnalyzed (noted notes) _) fun _ => ?_
        split <;> exact .pure _
      · rw [if_pos notes]
        exact .bind (.modify fun m before => before.noteDegraded op.id) fun _ => .pure _

theorem enterCall_alike (op : Operation) (method : MethodId) (arguments : List OperationId)
    (s : State) :
    Step.Alike (Memory.Agrees calls)
      (Memory.Agrees fun id => calls id ∨ c.notes method = true ∧ id = op.id)
      (c.enterCall descend op method arguments s) := by
  cases notes : c.notes method with
  | false =>
      rw [enterCall_of_not_notes notes]
      simpa using Step.Alike.pure (s, false)
  | true =>
      rw [enterCall_eq]
      simp only [true_and]
      refine .bind (?_ : Step.Alike _ (Memory.Agrees calls) _) fun outcome => ?_
      · split
        · exact analyzeCall_alike method _ arguments s
        · exact .pure none
      unfold concludeCall
      split
      · refine .bind (.modify fun m n agrees => agrees.noteAnalyzed op.id _) fun _ => ?_
        split <;> exact .pure _
      · rw [if_pos notes]
        exact .bind (.modify fun m n agrees => agrees.noteDegraded op.id) fun _ => .pure _

/-! ### Visits of operations and blocks -/

/-- A reference to a field notes no call and cancels nothing. -/
theorem memory_visitField (c : Context) (reachable : Bool) (op : Operation) (field : FieldId)
    (target : Option OperationId) (s : State) (m : Memory) :
    ∃ fields, (c.visitField reachable op field target s m).2 = { m with fields } := by
  unfold visitField
  dsimp only
  split
  · split
    · exact ⟨_, rfl⟩
    split
    · exact ⟨_, rfl⟩
    split
    · exact ⟨_, rfl⟩
    · exact ⟨_, rfl⟩
  · exact ⟨_, rfl⟩

theorem visitField_of_untracked {m : Memory} (untracked : m.fields = none) (reachable : Bool)
    (op : Operation) (field : FieldId) (target : Option OperationId) (s : State) :
    c.visitField reachable op field target s m = (s, m) := by
  simp only [visitField, untracked]

theorem visitInvocation_leaves {op : Operation} {method : MethodId}
    (noted : method ≠ c.env.target.completion → c.notes method = true → calls op.id)
    (reachable : Bool) (target : Option OperationId) (arguments : List OperationId) (s : State) :
    Step.Leaves (Memory.Notes calls)
      (c.visitInvocation descend reachable op method target arguments s) := by
  unfold visitInvocation
  split
  · exact .pure _
  · next other => exact .bind (enterCall_leaves (noted other) arguments s) fun _ => .pure _

theorem visitOperation_leaves {op : Operation} (noted : c.notesCall op = true → calls op.id)
    (reachable : Bool) (s : State) :
    Step.Leaves (Memory.Notes calls) (c.visitOperation descend reachable s op) := by
  unfold visitOperation
  cases kind : op.kind with
  | invocation method target arguments =>
      refine .bind (visitInvocation_leaves (fun other notes => noted ?_) reachable target
        arguments s) fun _ => .pure _
      simp [notesCall, kind, other, notes]
  | fieldReference field target =>
      refine .bind (fun m before => ?_) fun _ => .pure _
      rw [Step.run_modifyGet, visitField_of_untracked before.fields]
      exact before
  | _ => exact .bind (.pure _) fun _ => .pure _

theorem visitOperation_alike (reachable : Bool) (s : State) (op : Operation) :
    Step.Alike (Memory.Agrees calls)
      (Memory.Agrees fun id => calls id ∨ c.notesCall op = true ∧ id = op.id)
      (c.visitOperation descend reachable s op) := by
  -- Where nothing is noted, the memories agree on no more than they did before.
  have unnoted {x : Step Memory State} (silent : c.notesCall op = false)
      (same : Step.Alike (Memory.Agrees calls) (Memory.Agrees calls) x) :
      Step.Alike (Memory.Agrees calls)
        (Memory.Agrees fun id => calls id ∨ c.notesCall op = true ∧ id = op.id) x := by
    simpa [silent] using same
  unfold visitOperation
  cases kind : op.kind with
  | invocation method target arguments =>
      refine .bind ?_ fun _ => .pure _
      unfold visitInvocation
      split
      · next completion => exact unnoted (by simp [notesCall, kind, completion]) (.pure _)
      · next other =>
        simp only [notesCall, kind, other, ne_eq, not_false_eq_true, decide_true, Bool.true_and]
        exact .bind (enterCall_alike op method arguments s) fun _ => .pure _
  | fieldReference field target =>
      refine unnoted (by simp [notesCall, kind]) (.bind (fun m n agrees => ?_) fun _ => .pure _)
      rw [Step.run_modifyGet, Step.run_modifyGet, visitField_of_untracked agrees.fields,
        visitField_of_untracked agrees.fieldsToo]
      exact ⟨rfl, fun _ _ => agrees⟩
  | _ => exact unnoted (by simp [notesCall, kind]) (.bind (.pure _) fun _ => .pure _)

theorem visitBlock_leaves
    (noted : ∀ op ∈ c.procedure.operations, c.notesCall op = true → calls op.id) (block : Block)
    (s : State) : Step.Leaves (Memory.Notes calls) (c.visitBlock descend block s) := by
  refine .bind (.foldlM _ (fun s op member => ?_) s) fun _ => .pure _
  exact visitOperation_leaves (noted op (mem_operations_of_evaluated member)) block.isReachable s

def NotedIn (c : Context) (block : Block) (id : OperationId) : Prop :=
  ∃ op ∈ c.evaluated block, c.notesCall op = true ∧ id = op.id

/-- After the visit of a block, memories agree on all the calls that it has noted. -/
theorem visitBlock_alike (block : Block) (s : State) :
    Step.Alike (Memory.Agrees fun _ => False) (Memory.Agrees (c.NotedIn block))
      (c.visitBlock descend block s) := by
  have all (operations : List Operation) (calls : OperationId → Prop) (s : State) :
      Step.Alike (Memory.Agrees calls)
        (Memory.Agrees fun id => calls id ∨ ∃ op ∈ operations, c.notesCall op = true ∧ id = op.id)
        (operations.foldlM (c.visitOperation descend block.isReachable) s) := by
    induction operations generalizing calls s with
    | nil => simpa using Step.Alike.pure s
    | cons op rest ih =>
        rw [List.foldlM_cons]
        refine .bind (visitOperation_alike block.isReachable s op) fun next => ?_
        simpa [or_assoc] using ih (fun id => calls id ∨ c.notesCall op = true ∧ id = op.id) next
  refine .bind ?_ fun _ => .pure _
  have visited := all (c.evaluated block) (fun _ => False) s
  simp only [false_or] at visited
  exact visited

theorem refineEdge_congr {analyzed other : OperationId → Bool} {block : Block} (edge : Edge)
    (s : State) (same : ∀ op ∈ c.evaluated block, op.isInvocation = true →
      analyzed op.id = other op.id) :
    c.refineEdge analyzed block edge s = c.refineEdge other block edge s := by
  unfold refineEdge
  cases value : block.branchValue with
  | none => rfl
  | some root =>
      dsimp only
      split
      · rfl
      apply List.foldl_ext
      intro s op member
      have evaluated : op ∈ c.evaluated block :=
        List.mem_flatMap.mpr ⟨root, by simp [Block.roots, value], member⟩
      unfold refine
      cases kind : op.kind with
      | invocation method target arguments =>
          have here := same op evaluated (by simp [Operation.isInvocation, kind])
          simp only [refineTryGet, here]
      | _ => rfl

/-! ### Visitors with a past -/

/-- What a visitor remembers after blocks and edges, any of them and in any order, also where
visits have failed. -/
inductive Remembers (c : Context) (descend : Option Runner) : Memory → Prop where
  | start (cancelled : Bool) : Remembers c descend (c.initialMemory cancelled)
  | block {m : Memory} (before : Remembers c descend m) (block : Block) (s : State) :
      Remembers c descend ((c.visitBlock descend block s).run m).2
  | edge {m : Memory} (before : Remembers c descend m) (block : Block) (edge : Edge)
      (s : State) : Remembers c descend ((c.visitEdge block edge s).run m).2

def Noted (c : Context) (id : OperationId) : Prop :=
  ∃ op ∈ c.procedure.operations, c.notesCall op = true ∧ id = op.id

theorem Remembers.notes (untracked : c.env.config.trackFields = false) {m : Memory}
    (remembers : c.Remembers descend m) : m.Notes c.Noted := by
  induction remembers with
  | start cancelled => exact ⟨by simp [initialMemory, untracked], nofun⟩
  | block _ block s ih =>
      exact visitBlock_leaves (fun op listed notes => ⟨op, listed, notes, rfl⟩) block s _ ih
  | edge _ block edge s ih => exact ih

/-- No call that is noted shares its identity with a call that is not. -/
def SeparateCalls (c : Context) : Prop :=
  ∀ op ∈ c.procedure.operations, ∀ other ∈ c.procedure.operations, op.id = other.id →
    c.notesCall op = true → other.isInvocation = true → c.notesCall other = true

instance (c : Context) : Decidable c.SeparateCalls :=
  inferInstanceAs (Decidable (∀ op ∈ c.procedure.operations, ∀ other ∈ c.procedure.operations,
    op.id = other.id → c.notesCall op = true → other.isInvocation = true →
      c.notesCall other = true))

theorem separateCalls_of_nodup (distinct : (c.procedure.operations.map Operation.id).Nodup) :
    c.SeparateCalls := by
  intro op listed other listedToo same notes _
  exact List.inj_on_of_nodup_map distinct listed listedToo same ▸ notes

def Shares (c : Context) (calls : OperationId → Prop) (m n : Memory) : Prop :=
  Memory.Agrees calls m n ∧ m.Notes c.Noted ∧ n.Notes c.Noted

theorem visitBlock_shares (block : Block) (s : State) :
    Step.Alike (c.Shares fun _ => False) (c.Shares (c.NotedIn block))
      (c.visitBlock descend block s) :=
  (visitBlock_alike block s).and_leaves
    (visitBlock_leaves (fun op listed notes => ⟨op, listed, notes, rfl⟩) block s)

/-- An edge asks about calls that its block has noted, and about calls that are never noted. -/
theorem visitEdge_shares (separate : c.SeparateCalls) (block : Block) (edge : Edge) (s : State) :
    Step.Alike (c.Shares (c.NotedIn block)) (c.Shares (c.NotedIn block))
      (c.visitEdge block edge s) := by
  refine .get_bind (fun m n shares => ?_) fun m => .pure _
  obtain ⟨agrees, notes, notesToo⟩ := shares
  have same : c.refineEdge m.analyzed.contains block edge s =
      c.refineEdge n.analyzed.contains block edge s := by
    apply refineEdge_congr
    intro op member isCall
    cases noted : c.notesCall op with
    | true => exact agrees.analyzed op.id ⟨op, member, noted, rfl⟩
    | false =>
        have never : ¬ c.Noted op.id := by
          rintro ⟨other, listed, notesOther, same⟩
          have listedToo := mem_operations_of_evaluated member
          rw [separate other listed op listedToo same.symm notesOther isCall] at noted
          contradiction
        have absent {k : Memory} (only : k.Notes c.Noted) : k.analyzed.contains op.id = false :=
          Bool.eq_false_iff.mpr fun found => never (only.analyzed op.id found)
        rw [absent notes, absent notesToo]
  exact congrArg pure same

def visitAlong (c : Context) (descend : Option Runner) (block : Block) (edge : Edge) (s : State) :
    Step Memory (State × State) := do
  let output ← c.visitBlock descend block s
  let sent ← c.visitEdge block edge output
  return (output, sent)

/-- Visitors of a context in which fields are not tracked visit a block and one of its edges
with the same outcome, whatever they have visited before. -/
theorem visits_forget_the_past (untracked : c.env.config.trackFields = false)
    (separate : c.SeparateCalls) {m n : Memory} (first : c.Remembers descend m)
    (second : c.Remembers descend n) (cancelled : m.cancelled = n.cancelled) (block : Block)
    (edge : Edge) (s : State) :
    ((c.visitAlong descend block edge s).run m).1 =
      ((c.visitAlong descend block edge s).run n).1 := by
  have notes := first.notes untracked
  have notesToo := second.notes untracked
  have shares : c.Shares (fun _ => False) m n :=
    ⟨⟨notes.fields, notesToo.fields, cancelled, nofun⟩, notes, notesToo⟩
  have alike : Step.Alike (c.Shares fun _ => False) (c.Shares (c.NotedIn block))
      (c.visitAlong descend block edge s) :=
    (visitBlock_shares block s).bind fun output =>
      (visitEdge_shares separate block edge output).bind fun sent => .pure (output, sent)
  exact (alike m n shares).1

/-- One call takes an instance, and its body is known. Another, in a branch value, answers whether
it brings one out, and has the given identity. -/
def asking (id : OperationId) : Context :=
  let callee := borrower completing (straight [⟨1⟩])
  { lending callee with
    env := { (lending callee).env with
      symbols := { lender.env.symbols with
        typeKind := fun ty => some (if ty = ⟨3⟩ then .boolean else .classType)
        method := fun method => some (if method = ⟨3⟩
          then ⟨"TryMake", ⟨1⟩, true, false, some ⟨3⟩, []⟩
          else ⟨"Take", ⟨1⟩, true, false, none, [⟨0⟩]⟩) } }
    body :=
      { procedure := { lender.procedure with operations := lender.procedure.operations ++
          [{ id := ⟨4⟩, kind := .argument 0 .out ⟨0⟩, ty := some ⟨0⟩ },
            { id, kind := .invocation ⟨3⟩ none [⟨4⟩], ty := some ⟨3⟩ }] }
        oracle := lender.oracle } }

def taking : Block := { id := ⟨0⟩, kind := .entry, operations := [⟨2⟩] }

def answering : Block := { id := ⟨2⟩, kind := .block, branchValue := some ⟨5⟩ }

def afterTaking (id : OperationId) : Memory :=
  (((asking id).visitBlock (descent 3) taking ∅).run ((asking id).initialMemory false)).2

def refusal (id : OperationId) : Step Memory (State × State) :=
  (asking id).visitAlong (descent 3) answering ⟨⟨2⟩, ⟨1⟩, .whenFalse⟩ ∅

def sentKind? (outcome : Except AnalysisError (State × State)) : Option Kind :=
  match outcome with
  | .ok (_, sent) => (sent.get? ⟨.allocation ⟨⟨0⟩, ⟨0⟩⟩, some ⟨0⟩⟩).map Value.kind
  | .error _ => none

theorem afterTaking_remembers (id : OperationId) :
    (asking id).Remembers (descent 3) (afterTaking id) :=
  .block (.start false) taking ∅

/-- One visitor has analyzed the first call, the other has visited nothing. -/
theorem asking_forgets_the_past :
    (asking ⟨5⟩).SeparateCalls ∧ (afterTaking ⟨5⟩).analyzed.contains ⟨2⟩ = true ∧
      ((refusal ⟨5⟩).run (afterTaking ⟨5⟩)).1 =
        ((refusal ⟨5⟩).run ((asking ⟨5⟩).initialMemory false)).1 ∧
      sentKind? ((refusal ⟨5⟩).run (afterTaking ⟨5⟩)).1 = some .invalid := by
  have separate : (asking ⟨5⟩).SeparateCalls := separateCalls_of_nodup (by decide +kernel)
  have same := visits_forget_the_past rfl separate (afterTaking_remembers ⟨5⟩) (.start false)
    (by decide +kernel) answering ⟨⟨2⟩, ⟨1⟩, .whenFalse⟩ ∅
  exact ⟨separate, by decide +kernel, same, by decide +kernel⟩

/-- The answering call is never noted, but has the identity of a call that is. -/
theorem shared_identity_recalls_the_past :
    (asking ⟨2⟩).env.config.trackFields = false ∧
      (asking ⟨2⟩).Remembers (descent 3) (afterTaking ⟨2⟩) ∧
      (asking ⟨2⟩).Remembers (descent 3) ((asking ⟨2⟩).initialMemory false) ∧
      (afterTaking ⟨2⟩).cancelled = false ∧ ((asking ⟨2⟩).initialMemory false).cancelled = false ∧
      ((refusal ⟨2⟩).run (afterTaking ⟨2⟩)).1 ≠
        ((refusal ⟨2⟩).run ((asking ⟨2⟩).initialMemory false)).1 := by
  refine ⟨rfl, afterTaking_remembers ⟨2⟩, .start false, by decide +kernel, rfl, fun same => ?_⟩
  have kept : sentKind? ((refusal ⟨2⟩).run (afterTaking ⟨2⟩)).1 = some .notCompleted := by
    decide +kernel
  have refused : sentKind? ((refusal ⟨2⟩).run ((asking ⟨2⟩).initialMemory false)).1 =
      some .invalid := by decide +kernel
  rw [same, refused] at kept
  exact absurd kept (by decide)

end Context

end PathCompletion
