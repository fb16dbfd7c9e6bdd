import PathCompletion.Proofs.Completion.Keys
import PathCompletion.Proofs.Completion.Semilattice
import PathCompletion.Proofs.PointsTo.Local
import PathCompletion.Report.Session

/-!
What an analyzed call leaves alone. The callee works on a copy of all its caller knows, and all
it ends with comes back; but an analysis changes only what its oracle mentions, and so do the
analyses of further callees. A location that none of them mentions comes through every merge,
every loop and every call as it was.
-/

namespace PathCompletion

/-! ### Registries -/

def Registry.Local (r : Registry) : Prop :=
  ∀ method body, r.body? method = some body →
    body.procedure.method = some method ∧ body.oracle = body.procedure.localOracle

namespace Registry

theorem local_empty : Local {} := nofun

theorem body?_registerBody (r : Registry) (body : Body) (method : MethodId) :
    (r.registerBody body).body? method =
      if body.procedure.method = some method then some body else r.body? method := by
  unfold registerBody
  cases own : body.procedure.method with
  | none => simp
  | some name => simp [body?, SortedMap.get?_insert, Key.key_eq_iff]

theorem Local.registerBody {r : Registry} (now : r.Local) (p : Procedure) :
    (r.registerBody ⟨p, p.localOracle⟩).Local := by
  intro method body found
  rw [body?_registerBody] at found
  split at found
  · next own =>
    cases found
    exact ⟨own, rfl⟩
  · exact now method body found

end Registry

namespace Context

variable {c : Context} {s exit : State} {l : Location} {v : Value}

/-! ### Calls -/

/-- No body that calls can lead to from here mentions the location. -/
def OutOfReach (c : Context) (l : Location) : Prop :=
  ∀ method callee, c.isOnCallChain method = false →
    c.env.provider.body? method = some callee → ¬ callee.oracle.Mentions l

theorem isOnCallChain_forCallee {method : MethodId} {callee : Body} {initial : State}
    (fresh : (c.forCallee callee initial).isOnCallChain method = false) :
    c.isOnCallChain method = false :=
  (Bool.or_eq_false_iff.mp fresh).2

theorem OutOfReach.forCallee (far : c.OutOfReach l) (callee : Body) (initial : State) :
    (c.forCallee callee initial).OutOfReach l :=
  fun method other fresh body => far method other (isOnCallChain_forCallee fresh) body

theorem get?_seed {callee : Body} (unmentioned : ¬ callee.oracle.Mentions l)
    (arguments : List OperationId) : (c.seed callee arguments s).get? l = s.get? l := by
  obtain ⟨f, acts, seeded⟩ : ∃ f, Acts (fun other _ => other ≠ l) f ∧
      c.seed callee arguments s = f s := by
    refine seed_acts fun index _ _ _ _ other member _ => ?_
    rintro rfl
    exact unmentioned (.parameter index member)
  rw [seeded]
  exact acts.untouched s

/-- What a callee ends with for a location that is neither passed nor the result of the call
is all that comes back for it. -/
theorem get?_applyCallee {op : Operation} {callee : Body} {arguments : List OperationId}
    (passed : ∀ binding ∈ c.bindings arguments, l ∉ binding.2)
    (result : l ∉ c.locations op.id) (same : ∀ w, exit.get? l = some w → w = v)
    (before : s.get? l = some v) :
    (c.applyCallee op callee arguments exit s).get? l = some v := by
  have acts : Acts (fun other effect => other = l → effect.change v = v)
      (c.applyCallee op callee arguments exit) := by
    refine ((receive_acts ?_).comp (handBack_acts ?_)).comp (adopt_acts ?_)
    · rintro _ - _ member - rfl
      exact absurd member result
    · rintro index locations _ bound - _ member rfl
      exact absurd member (passed (index, locations) bound)
    · rintro _ w found rfl
      exact same w found
  exact acts.stays before

theorem mem_bindings {arguments : List OperationId} {index : Nat} {passed : LocationSet} :
    (index, passed) ∈ c.bindings arguments ↔ ∃ argument ∈ arguments, ∃ passing value,
      c.argument? argument = some (index, passing, value) ∧ passing ≠ .out ∧
        c.locations value = passed := by
  unfold bindings
  rw [List.mem_filterMap]
  refine exists_congr fun argument => and_congr_right fun _ => ?_
  cases c.argument? argument with
  | none => simp
  | some found =>
      obtain ⟨place, passing, value⟩ := found
      cases passing <;> simp [eq_comm]

theorem mentions_of_bindings {arguments : List OperationId} {index : Nat}
    {passed : LocationSet} (bound : (index, passed) ∈ c.bindings arguments)
    (member : l ∈ passed) : c.oracle.Mentions l := by
  obtain ⟨_, _, _, value, _, _, rfl⟩ := mem_bindings.mp bound
  exact .value value member

end Context

/-! ### Analyses -/

/-- Analyses by this runner leave alone what no body they enter mentions. -/
def Runner.Frames (run : Runner) : Prop :=
  ∀ (c : Context) cancelled result after exit l v, ¬ c.oracle.Mentions l → c.OutOfReach l →
    v.WellFormed → (c.initial.getD ∅).get? l = some v → run c cancelled = (.ok result, after) →
      result.exitState? = some exit → exit.get? l = some v

namespace Context

variable {c : Context} {s exit : State} {l : Location} {v : Value}

theorem Enters.get?_exit {descend : Option Runner}
    (runs : ∀ run, descend = some run → run.Frames) (far : c.OutOfReach l)
    (wellFormed : v.WellFormed) (now : s.get? l = some v) {method : MethodId}
    {arguments : List OperationId} {callee : Body} {result : Result}
    (enters : c.Enters descend method arguments s callee result)
    (exits : result.exitState? = some exit) : exit.get? l = some v := by
  obtain ⟨run, cancelled, after, here, ran⟩ := enters.ran
  have unmentioned := far method callee enters.fresh enters.body
  have given : (c.seed callee arguments s).get? l = some v :=
    (get?_seed unmentioned arguments).trans now
  exact runs run here (c.forCallee callee (c.seed callee arguments s)) cancelled result after exit
    l v unmentioned (far.forCallee callee _) wellFormed given ran exits

theorem kept_frame {descend : Option Runner} (runs : ∀ run, descend = some run → run.Frames)
    (unmentioned : ¬ c.oracle.Mentions l) (far : c.OutOfReach l) (wellFormed : v.WellFormed) :
    c.Kept descend fun s => s.get? l = some v where
  rule bounded now := (bounded.untouched unmentioned _).trans now
  call {op _ arguments s callee result exit} now enters exits := by
    have back := enters.get?_exit runs far wellFormed now exits
    refine get?_applyCallee (fun binding bound member => ?_) (fun member => ?_) ?_ now
    · exact unmentioned (mentions_of_bindings bound member)
    · exact unmentioned (.value op.id member)
    · exact fun w found => Option.some.inj (found.symm.trans back)

theorem analyzeWith_frames {descend : Option Runner}
    (runs : ∀ run, descend = some run → run.Frames) : Runner.Frames (analyzeWith descend) := by
  intro c cancelled result after exit l v unmentioned far wellFormed given ran exits
  have entry := get?_entryState_of_some given
  have merged (s t : State) (left : s.get? l = some v) (right : t.get? l = some v) :
      (State.domain.merge s t).get? l = some v := by
    rw [State.get?_merge, left, right]
    exact congrArg some (Value.merge_self wellFormed)
  obtain ⟨snapshot, here, rfl⟩ := Option.map_eq_some_iff.mp exits
  have frame := kept_frame runs unmentioned far wellFormed
  exact (frame.snapshots entry merged ran _ snapshot here).2.1

theorem analyzeWithin_frames (levels : Nat) : Runner.Frames (analyzeWithin levels) :=
  analyzeWithin_induct (fun _ runs => analyzeWith_frames runs) levels

/-! ### Whose locations they are -/

def Owns (c : Context) (l : Location) : Prop :=
  l.isFieldDefault = true ∨ ∃ p ∈ c.procedure :: c.callers, l.owner? = some p.id

/-- Of a body that is not under analysis, and that a call can lead to. -/
def Foreign (c : Context) (l : Location) : Prop :=
  ∃ method callee, c.isOnCallChain method = false ∧
    c.env.provider.body? method = some callee ∧ l.owner? = some callee.procedure.id

/-- A body that has the id of a procedure under analysis also has its method. -/
def UniqueIds (c : Context) : Prop :=
  ∀ method callee, c.env.provider.body? method = some callee →
    ∀ p ∈ c.procedure :: c.callers, callee.procedure.id = p.id →
      callee.procedure.method = p.method

theorem outOfReach_of_not_foreign {registry : Registry} (aliases : registry.Local)
    (provided : c.env.provider.body? = registry.body?) (content : l.isFieldDefault = false)
    (own : ¬ c.Foreign l) : c.OutOfReach l := by
  intro method callee fresh body mentioned
  have registered := (aliases method callee (provided ▸ body)).2
  rcases (Procedure.makes_of_mentions (registered ▸ mentioned)).owner with default | owner
  · rw [content] at default
    contradiction
  · exact own ⟨method, callee, fresh, body, owner⟩

theorem Owns.not_foreign {registry : Registry} (aliases : registry.Local)
    (provided : c.env.provider.body? = registry.body?) (unique : c.UniqueIds)
    (owns : c.Owns l) : ¬ c.Foreign l := by
  rintro ⟨method, callee, fresh, body, owner⟩
  rcases owns with default | ⟨p, chained, owned⟩
  · obtain ⟨kind, ty⟩ := l
    cases kind <;> contradiction
  · have same := unique method callee body p chained (Option.some.inj (owner.symm.trans owned))
    have named := (aliases method callee (provided ▸ body)).1
    have chain : c.isOnCallChain method = true :=
      List.any_eq_true.mpr ⟨p, chained, decide_eq_true (same.symm.trans named)⟩
    rw [fresh] at chain
    contradiction

theorem Owns.forCallee (owns : c.Owns l) (callee : Body) (initial : State) :
    (c.forCallee callee initial).Owns l := by
  rcases owns with default | ⟨p, chained, owned⟩
  · exact .inl default
  · exact .inr ⟨p, List.mem_cons_of_mem _ chained, owned⟩

theorem owns_of_mentions (aliases : c.oracle = c.procedure.localOracle)
    (mentioned : c.oracle.Mentions l) : c.Owns l := by
  rcases (Procedure.makes_of_mentions (aliases ▸ mentioned)).owner with default | owner
  · exact .inl default
  · exact .inr ⟨c.procedure, List.mem_cons_self, owner⟩

theorem Arises.depth_le {root : Context} (arises : Arises root c s) : root.depth ≤ c.depth := by
  induction arises with
  | entry => exact Nat.le_refl _
  | meeting _ _ ih _ => exact ih
  | operation _ _ ih => exact ih
  | release _ ih => exact ih
  | edge _ _ ih => exact ih
  | call _ _ _ ih => exact Nat.le_succ_of_le ih

/-- The states of one procedure have the locations of its own oracle and what it was given. -/
theorem Arises.owns {root : Context} (aliases : root.oracle = root.procedure.localOracle)
    (given : ∀ s, root.initial = some s → s.Each fun l _ => root.Owns l)
    (arises : Arises root c s) (here : c = root) : s.Each fun l _ => root.Owns l := by
  have mentions (l : Location) : root.oracle.Mentions l → root.Owns l := owns_of_mentions aliases
  have kept (descend : Option Runner) : root.Kept descend fun s => s.Each fun l _ => root.Owns l :=
    kept_keys mentions
  induction arises with
  | entry => exact entryState_keys mentions given
  | meeting _ _ ih ihToo =>
      exact State.Each.merge (fun _ _ _ left _ => left) (ih here) (ihToo here)
  | operation _ ran ih =>
      subst here
      exact (kept _).visitOperation (ih rfl) _ _ _ _ _ ran
  | release _ ih =>
      subst here
      exact (kept none).rule (release_bounded _) (ih rfl)
  | edge _ ran ih =>
      subst here
      exact (kept none).visitEdge (ih rfl) _ _ _ _ _ ran
  | @call c s callee arguments before ih =>
      -- The states of a callee belong to a longer chain.
      have longer : c.depth + 1 = root.depth := congrArg depth here
      have deeper := before.depth_le
      omega

/-- The contexts that calls lead to, each entered in a state that its caller's runs come to. -/
inductive Descends (root : Context) : Context → Prop where
  | root : Descends root root
  | call {c : Context} {s : State} {method : MethodId} {callee : Body}
      (arguments : List OperationId) (above : Descends root c) (arises : Arises c c s)
      (body : c.env.provider.body? method = some callee) :
      Descends root (c.forCallee callee (c.seed callee arguments s))

theorem Descends.env_eq {root : Context} (descends : Descends root c) : c.env = root.env := by
  induction descends with
  | root => rfl
  | call _ _ _ _ ih => exact ih

theorem Descends.owns {root : Context} {registry : Registry} (aliases : registry.Local)
    (provided : root.env.provider.body? = registry.body?)
    (own : root.oracle = root.procedure.localOracle) (fresh : root.initial = none)
    (descends : Descends root c) :
    c.oracle = c.procedure.localOracle ∧
      ∀ s, c.initial = some s → s.Each fun l _ => c.Owns l := by
  induction descends with
  | root => exact ⟨own, by simp [fresh]⟩
  | @call c s method callee arguments above arises body ih =>
      obtain ⟨own, given⟩ := ih
      rw [above.env_eq, provided] at body
      have registered := aliases method callee body
      refine ⟨registered.2, ?_⟩
      rintro _ seeded
      cases seeded
      have callers := arises.owns own given rfl
      exact seed_keys (fun l => owns_of_mentions (c := c.forCallee callee _) registered.2)
        (fun l v found => (callers l v found).forCallee callee _) arguments

/-- After an analyzed call every location keeps its value that is no default of a field, is not
passed, is no result of the call, and is not of a body that is not under analysis; and only
results of the call are new. Where the first procedure of the chain was given nothing, no
state has a location of a body that is not under analysis. -/
theorem analyzed_call_frame {registry : Registry} (aliases : registry.Local)
    (provided : c.env.provider.body? = registry.body?) (unique : c.UniqueIds) {levels : Nat}
    {op : Operation} {method : MethodId} {arguments : List OperationId} {t : State}
    {m after : Memory} (wellFormed : s.Each fun _ v => v.WellFormed)
    (ran : (c.enterCall (descent levels) op method arguments s).run m = (.ok (t, true), after)) :
    (∀ l v, s.get? l = some v → l.isFieldDefault = false →
      (∀ binding ∈ c.bindings arguments, l ∉ binding.2) → l ∉ c.locations op.id →
        ¬ c.Foreign l → t.get? l = some v) ∧
    (∀ l, t.contains l = true → s.contains l = true ∨ l ∈ c.locations op.id) ∧
    ∀ root : Context, root.initial = none → root.oracle = root.procedure.localOracle →
      Descends root c → Arises c c s → ∀ l, s.contains l = true → ¬ c.Foreign l := by
  obtain ⟨callee, result, enters, brought⟩ := enterCall_analyzed ran
  subst brought
  refine ⟨?_, ?_, ?_⟩
  -- What the callee cannot get at has its value at the callee's exit, and is not handed back.
  · intro l v before content passed unreturned own
    have far := outOfReach_of_not_foreign aliases provided content own
    cases exits : result.exitState? with
    | none => exact before
    | some exit =>
        have back := enters.get?_exit (descent_induct analyzeWithin_frames levels) far
          (wellFormed l v before) before exits
        refine get?_applyCallee passed unreturned (fun w found => ?_) before
        exact Option.some.inj (found.symm.trans back)
  · intro l
    cases result.exitState? with
    | none => exact .inl
    | some exit =>
        intro there
        obtain ⟨v, found⟩ := SortedMap.contains_iff.mp there
        have keys : s.Each fun l _ => s.contains l = true ∨ l ∈ c.locations op.id :=
          fun l v found => .inl (SortedMap.contains_iff.mpr ⟨v, found⟩)
        exact ((c.applyCallee_keys op callee arguments exit).mono fun l effect only v set =>
          .inr (only v set)).each_key keys l v found
  · intro root fresh own descends arises l there
    rw [descends.env_eq] at provided
    obtain ⟨ownToo, given⟩ := descends.owns aliases provided own fresh
    obtain ⟨v, found⟩ := SortedMap.contains_iff.mp there
    have owns := arises.owns ownToo given rfl l v found
    exact owns.not_foreign aliases (descends.env_eq ▸ provided) unique

def lend : Operation := { id := ⟨2⟩, kind := .invocation ⟨2⟩ none [⟨1⟩] }

def straight (operations : List OperationId) : List Block :=
  [{ id := ⟨0⟩, kind := .entry, operations, successors := [⟨⟨0⟩, ⟨1⟩, .always⟩] },
    { id := ⟨1⟩, kind := .exit }]

def lender : Context := oneInstance
  [{ id := ⟨0⟩, kind := .objectCreation ⟨0⟩ [], ty := some ⟨0⟩ },
    { id := ⟨1⟩, kind := .argument 0 .none ⟨0⟩, ty := some ⟨0⟩ },
    lend,
    { id := ⟨3⟩, kind := .objectCreation ⟨0⟩ [], ty := some ⟨0⟩ }]
  [] (straight [⟨2⟩, ⟨3⟩])

def borrower (operations : List Operation) (blocks : List Block) : Body :=
  let p := { lender.procedure with
    id := ⟨1⟩, method := some ⟨2⟩, parameters := [⟨"scope", ⟨0⟩, .none⟩], operations
    graph := { lender.procedure.graph with blocks } }
  ⟨p, p.localOracle⟩

def lendingTo (callee : Body) : Registry := ({} : Registry).registerBody callee

def lending (callee : Body) : Context :=
  { lender with
    env := { lender.env with
      symbols := { lender.env.symbols with
        method := fun _ => some ⟨"Take", ⟨1⟩, true, false, none, [⟨0⟩]⟩ }
      provider := { body? := (lendingTo callee).body? }
      config := Preset.balanced.config }
    body := ⟨lender.procedure, lender.procedure.localOracle⟩ }

theorem lendingTo_local (operations : List Operation) (blocks : List Block) :
    (lendingTo (borrower operations blocks)).Local :=
  Registry.local_empty.registerBody _

theorem lending_uniqueIds (operations : List Operation) (blocks : List Block) :
    (lending (borrower operations blocks)).UniqueIds := by
  intro method callee body p chained same
  change (SortedMap.insert ∅ (⟨2⟩ : MethodId) (borrower operations blocks)).get? method =
    some callee at body
  rw [SortedMap.get?_insert] at body
  split at body
  · cases body
    rw [List.mem_singleton.mp chained] at same
    exact absurd (show (⟨1⟩ : ProcedureId) = ⟨0⟩ from same) (by decide)
  · contradiction

def completing : List Operation :=
  [{ id := ⟨0⟩, kind := .parameterReference 0, ty := some ⟨0⟩ },
    { id := ⟨1⟩, kind := .invocation ⟨1⟩ (some ⟨0⟩) [] }]

def twoInstances : State := .ofList
  [(⟨.allocation ⟨⟨0⟩, ⟨0⟩⟩, some ⟨0⟩⟩, .notCompleted),
    (⟨.allocation ⟨⟨0⟩, ⟨3⟩⟩, some ⟨0⟩⟩, .notCompleted)]

theorem lending_completing_frame :
    ∃ t after, ((lending (borrower completing (straight [⟨1⟩]))).enterCall (descent 1) lend ⟨2⟩
        [⟨1⟩] twoInstances).run {} = (.ok (t, true), after) ∧
      t.get? ⟨.allocation ⟨⟨0⟩, ⟨0⟩⟩, some ⟨0⟩⟩ = some ⟨.completed, .singleton ⟨⟨1⟩, ⟨1⟩⟩⟩ ∧
      t.get? ⟨.allocation ⟨⟨0⟩, ⟨3⟩⟩, some ⟨0⟩⟩ = some .notCompleted := by
  have ended : (match ((lending (borrower completing (straight [⟨1⟩]))).enterCall (descent 1) lend
        ⟨2⟩ [⟨1⟩] twoInstances).run {} with
      | (.ok (t, true), _) => decide (t.get? ⟨.allocation ⟨⟨0⟩, ⟨0⟩⟩, some ⟨0⟩⟩ =
          some ⟨.completed, .singleton ⟨⟨1⟩, ⟨1⟩⟩⟩)
      | _ => false) = true := by decide +kernel
  split at ended
  · next t after ran =>
    have wellFormed : twoInstances.Each fun _ v => v.WellFormed := by
      intro l v found
      have all : ∀ entry ∈ twoInstances.entries, entry.2.WellFormed := by decide +kernel
      exact all (l, v) (SortedMap.mem_entries_iff.mpr found)
    have aliases := lendingTo_local completing (straight [⟨1⟩])
    have unique := lending_uniqueIds completing (straight [⟨1⟩])
    have own : (lending (borrower completing (straight [⟨1⟩]))).Owns
        ⟨.allocation ⟨⟨0⟩, ⟨3⟩⟩, some ⟨0⟩⟩ :=
      .inr ⟨_, List.mem_cons_self, rfl⟩
    refine ⟨t, after, ran, of_decide_eq_true ended, ?_⟩
    exact (analyzed_call_frame aliases rfl unique wellFormed ran).1 _ _ (by decide +kernel) rfl
      (by decide +kernel) (by decide +kernel) (own.not_foreign aliases rfl unique)
  · contradiction

def foreignCell : Location := ⟨.allocation ⟨⟨1⟩, ⟨0⟩⟩, some ⟨0⟩⟩

/-- The callee makes an instance, of which the host has told the caller already. -/
def givenForeign : Context :=
  { lending (borrower [{ id := ⟨0⟩, kind := .objectCreation ⟨0⟩ [], ty := some ⟨0⟩ }]
      (straight [⟨0⟩])) with
    initial := some (.ofList [(foreignCell, .unknown)]) }

/-- What a state has for an allocation of the callee is lost, although the allocation is not
passed and is no result of the call. -/
theorem givenForeign_breaks_frame :
    (∃ registry : Registry, registry.Local ∧
      givenForeign.env.provider.body? = registry.body?) ∧ givenForeign.UniqueIds ∧
    givenForeign.oracle = givenForeign.procedure.localOracle ∧
    foreignCell.isFieldDefault = false ∧
    (∀ binding ∈ givenForeign.bindings [⟨1⟩], foreignCell ∉ binding.2) ∧
    foreignCell ∉ givenForeign.locations lend.id ∧
    givenForeign.entryState.get? foreignCell = some .unknown ∧
    ∃ t after, (givenForeign.enterCall (descent 1) lend ⟨2⟩ [⟨1⟩]
        givenForeign.entryState).run {} = (.ok (t, true), after) ∧
      t.get? foreignCell = some .notCompleted := by
  refine ⟨⟨_, lendingTo_local _ _, rfl⟩, lending_uniqueIds _ _, rfl, rfl, by decide +kernel,
    by decide +kernel, by decide +kernel, ?_⟩
  have ended : (match (givenForeign.enterCall (descent 1) lend ⟨2⟩ [⟨1⟩]
        givenForeign.entryState).run {} with
      | (.ok (t, true), _) => decide (t.get? foreignCell = some .notCompleted)
      | _ => false) = true := by decide +kernel
  split at ended
  · next t after ran => exact ⟨t, after, ran, of_decide_eq_true ended⟩
  · contradiction

end Context

end PathCompletion
