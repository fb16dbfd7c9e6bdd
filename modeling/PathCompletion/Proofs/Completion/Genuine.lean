import PathCompletion.Proofs.Completion.Frame

/-!
What evidence speaks of. With local alias information every site of a value's evidence is an
operation of a procedure that is known, and it either completes or lets something escape. The
kind of the value tells which: where it says that the instance was completed one of the sites
completes, and where it does not none does. Merging keeps this although a completion outweighs
an escape, and so do values that callees hand back.
-/

namespace PathCompletion

/-! ### Values -/

def Kind.isCompleted : Kind → Bool
  | .completed | .maybeCompleted => true
  | _ => false

theorem Kind.isCompleted_merge? {a b kind : Kind} (merged : a.merge? b = some kind) :
    kind.isCompleted = (a.isCompleted || b.isCompleted) := by
  cases a <;> cases b <;> cases merged <;> rfl

/-- The evidence has a completion exactly where the kind says so, and otherwise escapes only. -/
structure Value.Genuine (completes escapes : Site → Prop) (v : Value) : Prop where
  traced : ∀ site ∈ v.evidence, completes site ∨ escapes site
  completed : v.kind.isCompleted = true → ∃ site ∈ v.evidence, completes site
  escaped : v.kind.isCompleted = false → ∀ site ∈ v.evidence, escapes site

def Effect.Genuine (completes escapes : Site → Prop) : Effect → Prop
  | .set v | .replace v => v.Genuine completes escapes
  | .complete site => completes site
  | .escape site => escapes site
  | .invalidate => True

section

variable {completes escapes : Site → Prop}

namespace Value

variable {v : Value}

theorem genuine_of_empty {kind : Kind} (pending : kind.isCompleted = false) :
    Genuine completes escapes ⟨kind, ∅⟩ where
  traced site member := absurd member (SortedSet.not_mem_empty site)
  completed done := by
    rw [pending] at done
    contradiction
  escaped _ site member := absurd member (SortedSet.not_mem_empty site)

theorem Genuine.merge {a b : Value} (left : a.Genuine completes escapes)
    (right : b.Genuine completes escapes) : (a.merge b).Genuine completes escapes := by
  unfold Value.merge
  split
  · exact right
  split
  · exact left
  split
  · exact genuine_of_empty rfl
  split
  · exact genuine_of_empty rfl
  split
  · exact genuine_of_empty rfl
  -- Only here evidence of both sides is united, and the kinds have a join.
  · next invalidLeft invalidRight targets known fresh =>
    obtain ⟨kind, merged, -⟩ :=
      Kind.hasEmptyEvidence_merge? invalidLeft invalidRight targets known fresh
    have either := Kind.isCompleted_merge? merged
    rw [merged]
    refine ⟨fun site member => ?_, fun done => ?_, fun pending site member => ?_⟩
    · exact (SortedSet.mem_union.mp member).elim (left.traced site) (right.traced site)
    · rcases (Bool.or_eq_true_iff.mp (either.symm.trans done)) with here | here
      · obtain ⟨site, member, completing⟩ := left.completed here
        exact ⟨site, SortedSet.mem_union.mpr (.inl member), completing⟩
      · obtain ⟨site, member, completing⟩ := right.completed here
        exact ⟨site, SortedSet.mem_union.mpr (.inr member), completing⟩
    · obtain ⟨pendingLeft, pendingRight⟩ := Bool.or_eq_false_iff.mp (either.symm.trans pending)
      exact (SortedSet.mem_union.mp member).elim (left.escaped pendingLeft site)
        (right.escaped pendingRight site)

theorem Genuine.change {effect : Effect} (leaves : effect.Genuine completes escapes)
    (genuine : v.Genuine completes escapes) : (effect.change v).Genuine completes escapes := by
  cases effect with
  | set w => exact leaves
  | replace w => exact leaves
  | complete site =>
      change ((v.complete? site).getD v).Genuine completes escapes
      by_cases refused : v.kind = .nonTarget
      · simpa [complete?, refused] using genuine
      · rw [complete?_eq site refused]
        refine ⟨fun other member => ?_, fun _ => ?_, fun pending => ?_⟩
        · rcases SortedSet.mem_insert.mp member with rfl | before
          · exact .inl leaves
          · exact genuine.traced other before
        · exact ⟨site, SortedSet.mem_insert.mpr (.inl rfl), leaves⟩
        · contradiction
  | escape site =>
      change ((v.escape? site).getD v).Genuine completes escapes
      by_cases refused : v.kind = .nonTarget
      · simpa [escape?, refused] using genuine
      by_cases vague : v.kind = .unknown
      · simpa [escape?, vague] using genuine
      · rw [escape?_eq site refused vague]
        refine ⟨fun other member => ?_, fun done => ?_, fun _ other member => ?_⟩
        · rw [SortedSet.mem_singleton.mp member]
          exact .inr leaves
        · contradiction
        · rw [SortedSet.mem_singleton.mp member]
          exact leaves
  | invalidate =>
      change (v.invalidate?.getD v).Genuine completes escapes
      by_cases refused : v.kind = .nonTarget
      · simpa [invalidate?, refused] using genuine
      · rw [invalidate?_eq refused]
        exact genuine_of_empty rfl

/-- Where sites name operations, one operation can be chosen for each site so that those chosen
say the same as the kind. -/
theorem Genuine.named {names : Site → Operation → Prop} {completing escaping : Operation → Prop}
    (genuine : v.Genuine (fun site => ∃ op, names site op ∧ completing op)
      (fun site => ∃ op, names site op ∧ escaping op)) :
    ∃ named : Site → Operation,
      (∀ site ∈ v.evidence, names site (named site) ∧
        (completing (named site) ∨ escaping (named site))) ∧
      (v.kind.isCompleted = true → ∃ site ∈ v.evidence, completing (named site)) ∧
      (v.kind.isCompleted = false → ∀ site ∈ v.evidence, escaping (named site)) := by
  have inhabited : Nonempty Operation := ⟨{ id := ⟨0⟩, kind := .literal }⟩
  cases kind : v.kind.isCompleted with
  | true =>
      -- Completions are preferred, so that the one that the kind asks for is chosen.
      have each : ∀ site ∈ v.evidence, ∃ op, names site op ∧ (completing op ∨ escaping op) ∧
          ((∃ other, names site other ∧ completing other) → completing op) := by
        intro site member
        by_cases completes : ∃ op, names site op ∧ completing op
        · obtain ⟨op, here, completing⟩ := completes
          exact ⟨op, here, .inl completing, fun _ => completing⟩
        · obtain ⟨op, here, escaping⟩ := (genuine.traced site member).resolve_left completes
          exact ⟨op, here, .inr escaping, fun other => absurd other completes⟩
      choose! named chosen using each
      refine ⟨named, fun site member => ⟨(chosen site member).1, (chosen site member).2.1⟩, ?_,
        nofun⟩
      intro _
      obtain ⟨site, member, completes⟩ := genuine.completed kind
      exact ⟨site, member, (chosen site member).2.2 completes⟩
  | false =>
      have each : ∀ site ∈ v.evidence, ∃ op, names site op ∧ escaping op := genuine.escaped kind
      choose! named chosen using each
      exact ⟨named, fun site member => ⟨(chosen site member).1, .inr (chosen site member).2⟩, nofun,
        fun _ site member => (chosen site member).2⟩

end Value

theorem Acts.genuine {f : State → State}
    (acts : Acts (fun _ effect => effect.Genuine completes escapes) f) {s : State}
    (now : s.Each fun _ v => v.Genuine completes escapes) :
    (f s).Each fun _ v => v.Genuine completes escapes := by
  refine acts.each (fun l effect leaves old before w acted => ?_) now
  rcases Effect.act_eq_some acted with rfl | ⟨v, found, rfl⟩
  · exact leaves
  · exact (before v found).change leaves

end

/-! ### Sites and operations -/

/-- The operations have their places as ids. -/
def Procedure.Indexed (p : Procedure) : Prop :=
  ∀ entry ∈ p.operations.zipIdx, entry.1.id = ⟨entry.2⟩

instance (p : Procedure) : Decidable p.Indexed :=
  inferInstanceAs (Decidable (∀ entry ∈ p.operations.zipIdx, entry.1.id = ⟨entry.2⟩))

theorem Procedure.Indexed.operation? {p : Procedure} (indexed : p.Indexed) {op : Operation}
    (member : op ∈ p.operations) : p.operation? op.id = some op := by
  obtain ⟨place, here⟩ := List.mem_iff_getElem?.mp member
  have own : op.id = ⟨place⟩ := indexed (op, place) (List.mem_zipIdx_iff_getElem?.mpr here)
  rw [own]
  exact here

def OperationKind.completes (target : Target) : OperationKind → Bool
  | .invocation method _ _ => method = target.completion
  | _ => false

theorem OperationKind.not_completes_of_mayEscape {kind : OperationKind} {target : Target}
    (escapes : kind.mayEscape = true) : kind.completes target = false := by
  cases kind <;> first | rfl | contradiction

structure Body.Local (b : Body) : Prop where
  aliases : b.oracle = b.procedure.localOracle
  indexed : b.procedure.Indexed

namespace Context

structure Local (c : Context) : Prop where
  own : c.body.Local
  provided : ∀ method callee, c.env.provider.body? method = some callee → callee.Local

def Knows (c : Context) (p : Procedure) : Prop :=
  p ∈ c.procedure :: c.callers ∨
    ∃ method callee, c.env.provider.body? method = some callee ∧ callee.procedure = p

def Names (c : Context) (site : Site) (op : Operation) : Prop :=
  ∃ p, c.Knows p ∧ p.id = site.procedure ∧ p.operation? site.operation = some op

/-- Procedures that are known have ids of their own. -/
def Distinct (c : Context) : Prop := ∀ p q, c.Knows p → c.Knows q → p.id = q.id → p = q

def CompletesAt (c : Context) (site : Site) : Prop :=
  ∃ op, c.Names site op ∧ op.kind.completes c.env.target = true

def EscapesAt (c : Context) (site : Site) : Prop :=
  ∃ op, c.Names site op ∧ op.kind.mayEscape = true

def Genuine (c : Context) (s : State) : Prop :=
  s.Each fun _ v => v.Genuine c.CompletesAt c.EscapesAt

variable {c : Context} {s : State}

theorem Names.unique (distinct : c.Distinct) {site : Site} {a b : Operation}
    (left : c.Names site a) (right : c.Names site b) : a = b := by
  obtain ⟨p, known, owner, found⟩ := left
  obtain ⟨q, knownToo, ownerToo, foundToo⟩ := right
  have same : p = q := distinct p q known knownToo (owner.trans ownerToo.symm)
  subst same
  exact Option.some.inj (found.symm.trans foundToo)

theorem names_site {operation : OperationId} {op : Operation}
    (found : c.procedure.operation? operation = some op) : c.Names (c.site operation) op :=
  ⟨c.procedure, .inl List.mem_cons_self, rfl, found⟩

theorem completesAt_site (bodies : c.Local) {op : Operation} (member : op ∈ c.procedure.operations)
    {target : Option OperationId} {arguments : List OperationId}
    (kind : op.kind = .invocation c.env.target.completion target arguments) :
    c.CompletesAt (c.site op.id) := by
  refine ⟨op, names_site (bodies.own.indexed.operation? member), ?_⟩
  rw [kind]
  exact decide_eq_true rfl

theorem escapesAt_of_argument {operation : OperationId}
    (passed : (c.argument? operation).isSome = true) : c.EscapesAt (c.site operation) := by
  unfold argument? at passed
  split at passed
  · next index passing value kind =>
    obtain ⟨op, found, isArgument⟩ := Option.map_eq_some_iff.mp kind
    exact ⟨op, names_site found, by rw [isArgument]; rfl⟩
  · contradiction

theorem escapesAt_of_escaped (bodies : c.Local) {operation : OperationId} {l : Location}
    (here : l ∈ c.oracle.escaped operation) : c.EscapesAt (c.site operation) := by
  have aliases : c.oracle = c.procedure.localOracle := bodies.own.aliases
  rw [aliases] at here
  obtain ⟨op, member, rfl, escapes⟩ := Procedure.mayEscape_of_mem_escaped here
  exact ⟨op, names_site (bodies.own.indexed.operation? member), escapes⟩

/-! ### Rules -/

theorem Regular.genuine (bodies : c.Local) {cells : Set Location} {sites : Set Site}
    {l : Location} {effect : Effect} (regular : c.Regular effect)
    (allowed : c.Allows cells sites l effect) : effect.Genuine c.CompletesAt c.EscapesAt := by
  cases effect with
  | set v => rcases allowed.2.2 with rfl | rfl <;> exact Value.genuine_of_empty rfl
  | replace v =>
      cases allowed
      exact Value.genuine_of_empty rfl
  | complete site => exact regular.elim
  | escape site =>
      obtain ⟨operation, rfl, passed | ⟨other, here⟩⟩ := regular
      · exact escapesAt_of_argument passed
      · exact escapesAt_of_escaped bodies here
  | invalidate => trivial

theorem Genuine.rule (bodies : c.Local) {f : State → State} (bounded : c.Bounded c.Regular f)
    (genuine : c.Genuine s) : c.Genuine (f s) := by
  obtain ⟨cells, sites, -, -, acts⟩ := bounded
  exact (acts.mono fun l effect allowed => allowed.2.1.genuine bodies allowed.1).genuine genuine

theorem Genuine.complete (bodies : c.Local) {op : Operation}
    (member : op ∈ c.procedure.operations) {target : Option OperationId}
    {arguments : List OperationId}
    (kind : op.kind = .invocation c.env.target.completion target arguments)
    (genuine : c.Genuine s) : c.Genuine (c.complete op.id target s) := by
  refine ((c.complete_acts op.id target).mono ?_).genuine genuine
  rintro l _ ⟨-, rfl⟩
  exact completesAt_site bodies member kind

/-! ### Callers and callees -/

theorem genuine_joinAt? (genuine : c.Genuine s) {locations : LocationSet} {v : Value}
    (joined : s.joinAt? locations = some v) : v.Genuine c.CompletesAt c.EscapesAt :=
  joinAt?_each (fun _ _ => Value.Genuine.merge) genuine joined

theorem Genuine.seed (genuine : c.Genuine s) (callee : Body) (arguments : List OperationId) :
    c.Genuine (c.seed callee arguments s) := by
  obtain ⟨f, acts, seeded⟩ : ∃ f, Acts (fun _ effect => effect.Genuine c.CompletesAt c.EscapesAt) f
      ∧ c.seed callee arguments s = f s :=
    seed_acts fun _ _ _ _ joined _ _ _ => genuine_joinAt? genuine joined
  rw [seeded]
  exact acts.genuine genuine

theorem Genuine.applyCallee (genuine : c.Genuine s) (op : Operation) (callee : Body)
    (arguments : List OperationId) {exit : State} (back : c.Genuine exit) :
    c.Genuine (c.applyCallee op callee arguments exit s) := by
  have handed : Acts (fun _ effect => effect.Genuine c.CompletesAt c.EscapesAt)
      (c.handBack callee arguments exit) :=
    handBack_acts fun _ _ _ _ joined _ _ => genuine_joinAt? back joined
  have received : Acts (fun _ effect => effect.Genuine c.CompletesAt c.EscapesAt)
      (c.receive op callee exit) :=
    receive_acts fun _ joined _ _ _ => genuine_joinAt? back joined
  exact ((received.comp handed).comp (adopt_acts fun l v found => back l v found)).genuine genuine

variable {method : MethodId} {callee : Body} {initial : State}

/-- Along a call chain the same procedures are known. -/
theorem knows_forCallee (body : c.env.provider.body? method = some callee) (p : Procedure) :
    (c.forCallee callee initial).Knows p ↔ c.Knows p := by
  constructor
  · rintro (chained | provided)
    · rcases List.mem_cons.mp chained with here | before
      · exact .inr ⟨method, callee, body, here.symm⟩
      · exact .inl before
    · exact .inr provided
  · rintro (chained | provided)
    · exact .inl (List.mem_cons_of_mem _ chained)
    · exact .inr provided

theorem genuine_forCallee (body : c.env.provider.body? method = some callee) :
    (c.forCallee callee initial).Genuine s ↔ c.Genuine s := by
  have names (site : Site) (op : Operation) :
      (c.forCallee callee initial).Names site op ↔ c.Names site op := by
    simp only [Names, knows_forCallee body]
  have completes : (c.forCallee callee initial).CompletesAt = c.CompletesAt := by
    funext site
    simp only [CompletesAt, names]
    rfl
  have escapes : (c.forCallee callee initial).EscapesAt = c.EscapesAt := by
    funext site
    simp only [EscapesAt, names]
  unfold Genuine
  rw [completes, escapes]

theorem Local.forCallee (bodies : c.Local) (body : c.env.provider.body? method = some callee) :
    (c.forCallee callee initial).Local :=
  ⟨bodies.provided method callee body, bodies.provided⟩

end Context

/-! ### Analyses -/

/-- Analyses by this runner record genuine evidence only, where they are given such. -/
def Runner.Genuine (run : Runner) : Prop :=
  ∀ (c : Context) cancelled result after, c.Local →
    (∀ s, c.initial = some s → c.Genuine s) → run c cancelled = (.ok result, after) →
      Problem.Snapshots c.Genuine (fun _ _ => True) result.snapshots

namespace Context

variable {c : Context} {descend : Option Runner}

theorem kept_genuine (runs : ∀ run, descend = some run → run.Genuine) (bodies : c.Local) :
    c.KeptAt descend (· ∈ c.procedure.operations) c.Genuine where
  rule bounded genuine := genuine.rule bodies bounded
  complete member kind genuine := genuine.complete bodies member kind
  call {op method arguments s callee result exit} genuine enters exits := by
    obtain ⟨run, cancelled, after, here, ran⟩ := enters.ran
    have seeded : ∀ t, some (c.seed callee arguments s) = some t →
        (c.forCallee callee (c.seed callee arguments s)).Genuine t := by
      rintro t ⟨⟩
      exact (genuine_forCallee enters.body).mpr (genuine.seed callee arguments)
    have recorded :=
      runs run here _ cancelled result after (bodies.forCallee enters.body) seeded ran
    obtain ⟨snapshot, found, rfl⟩ := Option.map_eq_some_iff.mp exits
    have back := (genuine_forCallee enters.body).mp (recorded _ snapshot found).2.1
    exact genuine.applyCallee op callee arguments back

theorem analyzeWith_genuine (runs : ∀ run, descend = some run → run.Genuine) :
    Runner.Genuine (analyzeWith descend) := by
  intro c cancelled result after bodies given ran
  have initial : c.Genuine c.entryState :=
    entryState_each given fun _ _ => Value.genuine_of_empty rfl
  have merge (s t : State) : c.Genuine s → c.Genuine t → c.Genuine (State.domain.merge s t) :=
    State.Each.merge fun _ _ _ => Value.Genuine.merge
  exact (kept_genuine runs bodies).snapshots (fun _ member => member) initial merge ran

theorem analyzeWithin_genuine (levels : Nat) : Runner.Genuine (analyzeWithin levels) :=
  analyzeWithin_induct (fun _ runs => analyzeWith_genuine runs) levels

/-- In an analysis that ends well, where all alias information is local, each site in the
evidence of a recorded value names an operation of a procedure that is known, which completes
or may let something escape. Of the operations so named one completes if the kind says that
the instance was completed, and none if it says that it escaped. -/
theorem analyze_records_genuine_evidence (bodies : c.Local)
    (given : ∀ s, c.initial = some s → c.Genuine s) {cancelled after : Bool} {result : Result}
    (ran : c.analyze cancelled = (.ok result, after)) (id : BlockId) (snapshot : Snapshot State)
    (found : result.snapshots.get? id = some snapshot) (l : Location) (v : Value)
    (recorded : snapshot.input.get? l = some v ∨ snapshot.output.get? l = some v) :
    ∃ named : Site → Operation,
      (∀ site ∈ v.evidence, c.Names site (named site) ∧
        ((named site).kind.completes c.env.target = true ∨
          (named site).kind.mayEscape = true)) ∧
      (v.kind = .completed ∨ v.kind = .maybeCompleted →
        ∃ site ∈ v.evidence, (named site).kind.completes c.env.target = true) ∧
      (v.kind = .escaped ∨ v.kind = .notCompletedOrEscaped →
        ∀ site ∈ v.evidence, (named site).kind.completes c.env.target = false) ∧
      (c.Distinct → ∀ site ∈ v.evidence, ∀ op, c.Names site op → op = named site) := by
  obtain ⟨input, output, -⟩ :=
    analyzeWithin_genuine _ c cancelled result after bodies given ran id snapshot found
  have genuine : v.Genuine c.CompletesAt c.EscapesAt := recorded.elim (input l v) (output l v)
  obtain ⟨named, names, completed, escaped⟩ := genuine.named
  refine ⟨named, names, fun kind => completed ?_, fun kind site member => ?_, ?_⟩
  · rcases kind with kind | kind <;> rw [kind] <;> rfl
  · apply OperationKind.not_completes_of_mayEscape
    apply escaped _ site member
    rcases kind with kind | kind <;> rw [kind] <;> rfl
  · exact fun distinct site member op here => here.unique distinct (names site member).1

theorem lending_completing_local : (lending (borrower completing (straight [⟨1⟩]))).Local := by
  refine ⟨⟨rfl, by decide⟩, fun method callee body => ?_⟩
  change ((({} : Registry).registerBody (borrower completing (straight [⟨1⟩]))).body? method =
    some callee) at body
  rw [Registry.body?_registerBody] at body
  split at body
  · cases body
    exact ⟨rfl, by decide⟩
  · contradiction

/-- The only evidence for what was lent is the completion in the callee. -/
theorem lending_completing_records_genuine_evidence :
    ∃ result v named, (lending (borrower completing (straight [⟨1⟩]))).analyze false =
        (.ok result, false) ∧
      result.valueAtExit? ⟨.allocation ⟨⟨0⟩, ⟨0⟩⟩, some ⟨0⟩⟩ = some v ∧
      v = ⟨.completed, .singleton ⟨⟨1⟩, ⟨1⟩⟩⟩ ∧
      (lending (borrower completing (straight [⟨1⟩]))).Names ⟨⟨1⟩, ⟨1⟩⟩ named ∧
      named.kind.completes ⟨⟨0⟩, ⟨1⟩⟩ = true := by
  have ended : (match (lending (borrower completing (straight [⟨1⟩]))).analyze false with
      | (.ok result, false) => decide (result.valueAtExit? ⟨.allocation ⟨⟨0⟩, ⟨0⟩⟩, some ⟨0⟩⟩ =
          some ⟨.completed, .singleton ⟨⟨1⟩, ⟨1⟩⟩⟩)
      | _ => false) = true := by decide +kernel
  split at ended
  · next result ran =>
    have value := of_decide_eq_true ended
    obtain ⟨exit, exits, there⟩ := Option.bind_eq_some_iff.mp value
    obtain ⟨snapshot, found, rfl⟩ := Option.map_eq_some_iff.mp exits
    obtain ⟨named, names, completed, -⟩ := analyze_records_genuine_evidence
      lending_completing_local nofun ran _ snapshot found _ _ (.inr there)
    obtain ⟨site, member, completes⟩ := completed (.inl rfl)
    cases SortedSet.mem_singleton.mp member
    exact ⟨result, _, named _, ran, value, rfl, (names _ member).1, completes⟩
  · contradiction

end Context

end PathCompletion
