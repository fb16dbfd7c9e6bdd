import PathCompletion.Proofs.Completion.Sound
import PathCompletion.Proofs.Completion.Visit

/-!
Sound states between callers and callees. What a callee is seeded with is sound when the
caller's state is, and what comes back from a sound callee keeps the caller's state sound. So
an analysis to any depth, with whatever it remembers, sees sound states only.
-/

namespace PathCompletion

def Runner.Sound (run : Runner) : Prop :=
  ∀ (c : Context) cancelled result after, c.Seeded → run c cancelled = (.ok result, after) →
    Problem.Snapshots c.Sound State.Grows result.snapshots

namespace Context

variable {c : Context} {s exit : State}

/-! ### Exchange of states -/

theorem joinAt?_each {good : Value → Prop} (merge : ∀ a b, good a → good b → good (a.merge b))
    (now : s.Each fun _ => good) {locations : LocationSet} {v : Value}
    (joined : s.joinAt? locations = some v) : good v := by
  apply (Domain.joined_of_joinOnto joined).induct merge
  intro w member
  obtain ⟨l, -, found⟩ := List.mem_filterMap.mp member
  exact now l w found

theorem joinAt?_sound (sound : c.Sound s) {locations : LocationSet} {v : Value}
    (joined : s.joinAt? locations = some v) : v.Sound :=
  joinAt?_each (fun _ _ => Value.Sound.merge) (fun l w found => (sound l w found).2) joined

section

variable {allowed : Location → Effect → Prop}

theorem adoptEntry_acts {l : Location} {v : Value} (allows : allowed l (.replace v)) :
    Acts allowed fun s : State => if s.contains l then s.insert l v else s := by
  intro other
  by_cases here : l = other
  · subst here
    refine ⟨[.replace v], ?_, fun s => ?_⟩
    · intro effect listed
      rw [List.mem_singleton.mp listed]
      exact allows
    · change (if s.contains l then s.insert l v else s).get? l = (s.get? l).map fun _ => v
      unfold SortedMap.contains
      cases found : s.get? l with
      | none => simp [found]
      | some old => simp
  · refine ⟨[], nofun, fun s => ?_⟩
    change (if s.contains l then s.insert l v else s).get? other = s.get? other
    split
    · exact SortedMap.get?_insert_of_ne here
    · rfl

theorem adopt_acts (allows : ∀ l v, exit.get? l = some v → allowed l (.replace v)) :
    Acts allowed (adopt exit) :=
  Acts.foldl _ fun (l, v) member =>
    adoptEntry_acts (allows l v (SortedMap.mem_entries_iff.mp member))

def handBackAt (c : Context) (callee : Body) (exit s : State) : Nat × LocationSet → State
  | (index, passed) => match exit.joinAt? (callee.oracle.parameter index).locations with
    | some v => c.revise (fun _ => some v) passed s
    | none => s

theorem handBackAt_acts {callee : Body} {index : Nat} {passed : LocationSet}
    (allows : ∀ v, exit.joinAt? (callee.oracle.parameter index).locations = some v →
      ∀ l ∈ passed, allowed l (.replace v)) :
    Acts allowed fun s => c.handBackAt callee exit s (index, passed) := by
  simp only [handBackAt]
  cases joined : exit.joinAt? (callee.oracle.parameter index).locations with
  | none => exact Acts.id
  | some v => exact revise_acts (.replace v) (fun _ => rfl) (allows v joined)

theorem handBack_eq (c : Context) (callee : Body) (arguments : List OperationId)
    (exit s : State) :
    c.handBack callee arguments exit s =
      (c.bindings arguments).foldl (c.handBackAt callee exit) s := rfl

theorem handBack_acts {callee : Body} {arguments : List OperationId}
    (allows : ∀ index passed v, (index, passed) ∈ c.bindings arguments →
      exit.joinAt? (callee.oracle.parameter index).locations = some v →
        ∀ l ∈ passed, allowed l (.replace v)) :
    Acts allowed (c.handBack callee arguments exit) :=
  Acts.foldl _ fun (index, passed) bound =>
    handBackAt_acts fun v joined => allows index passed v bound joined

theorem receive_acts {op : Operation} {callee : Body}
    (allows : ∀ v, exit.joinAt? callee.returned = some v →
      ∀ l ∈ c.locations op.id, c.isTrackable l = true → allowed l (.set v)) :
    Acts allowed (c.receive op callee exit) := by
  unfold receive
  split
  · cases joined : exit.joinAt? callee.returned with
    | none => exact Acts.id
    | some v => exact setAll_acts (allows v joined)
  · exact Acts.id

def seedAt (c : Context) (callee : Body) (s seeded : State) : Nat × LocationSet → State
  | (index, passed) => match s.joinAt? passed with
    | some v => c.setAll (callee.oracle.parameter index).locations v seeded
    | none => seeded

theorem seedAt_acts {callee : Body} {index : Nat} {passed : LocationSet}
    (allows : ∀ v, s.joinAt? passed = some v →
      ∀ l ∈ (callee.oracle.parameter index).locations, c.isTrackable l = true →
        allowed l (.set v)) :
    Acts allowed fun seeded => c.seedAt callee s seeded (index, passed) := by
  simp only [seedAt]
  cases joined : s.joinAt? passed with
  | none => exact Acts.id
  | some v => exact setAll_acts (allows v joined)

theorem seed_eq (c : Context) (callee : Body) (arguments : List OperationId) (s : State) :
    c.seed callee arguments s = (c.bindings arguments).foldl (c.seedAt callee s) s := rfl

theorem seed_acts {callee : Body} {arguments : List OperationId}
    (allows : ∀ index passed v, (index, passed) ∈ c.bindings arguments →
      s.joinAt? passed = some v → ∀ l ∈ (callee.oracle.parameter index).locations,
        c.isTrackable l = true → allowed l (.set v)) :
    ∃ f, Acts allowed f ∧ c.seed callee arguments s = f s :=
  ⟨fun seeded => (c.bindings arguments).foldl (c.seedAt callee s) seeded,
    Acts.foldl _ fun (index, passed) bound =>
      seedAt_acts fun v joined => allows index passed v bound joined,
    c.seed_eq callee arguments s⟩

end

theorem applyCallee_acts (op : Operation) (callee : Body) (arguments : List OperationId)
    (sound : c.Sound exit) : Acts c.Keeping (c.applyCallee op callee arguments exit) := by
  have back : Acts c.Keeping (c.handBack callee arguments exit) :=
    handBack_acts fun _ _ _ _ joined _ _ => joinAt?_sound sound joined
  have result : Acts c.Keeping (c.receive op callee exit) :=
    receive_acts fun _ joined _ _ trackable => ⟨trackable, joinAt?_sound sound joined⟩
  exact (result.comp back).comp (adopt_acts fun l v found => (sound l v found).2)

theorem seed_sound (sound : c.Sound s) (callee : Body) (arguments : List OperationId) :
    c.Sound (c.seed callee arguments s) := by
  obtain ⟨f, acts, seeded⟩ : ∃ f, Acts c.Keeping f ∧ c.seed callee arguments s = f s :=
    seed_acts fun _ _ _ _ joined _ _ trackable => ⟨trackable, joinAt?_sound sound joined⟩
  rw [seeded]
  exact (sound.acts acts).1

theorem forCallee_seeded (sound : c.Sound s) (callee : Body) (arguments : List OperationId) :
    (c.forCallee callee (c.seed callee arguments s)).Seeded := by
  rintro t given
  cases given
  exact seed_sound sound callee arguments

/-! ### Visits -/

theorem exitState?_sound {result : Result}
    (good : Problem.Snapshots c.Sound State.Grows result.snapshots)
    (found : result.exitState? = some exit) : c.Sound exit := by
  obtain ⟨snapshot, here, rfl⟩ := Option.map_eq_some_iff.mp found
  exact (good _ snapshot here).2.1

def Follows (c : Context) (s t : State) : Prop := c.Sound t ∧ s.Grows t

theorem Follows.acts {t : State} (follows : c.Follows s t) {f : State → State}
    (acts : Acts c.Keeping f) : c.Follows s (f t) := by
  obtain ⟨sound, grown⟩ := follows.1.acts acts
  exact ⟨sound, follows.2.trans grown⟩

theorem Sound.follows (sound : c.Sound s) : c.Follows s s := ⟨sound, fun _ known => known⟩

theorem kept_follows {descend : Option Runner} (runs : ∀ run, descend = some run → run.Sound)
    (s : State) : c.Kept descend (c.Follows s) where
  rule bounded follows := follows.acts bounded.keeping
  call {op method arguments t callee result exit} follows enters exits := by
    obtain ⟨run, cancelled, after, here, ran⟩ := enters.ran
    have seeded := forCallee_seeded follows.1 callee arguments
    have back := exitState?_sound (runs run here _ cancelled result after seeded ran) exits
    exact follows.acts (applyCallee_acts op callee arguments back)

theorem visitOperation_ensures {descend : Option Runner}
    (runs : ∀ run, descend = some run → run.Sound) (sound : c.Sound s) (reachable : Bool)
    (op : Operation) :
    Step.Ensures (c.visitOperation descend reachable s op) (c.Follows s) :=
  (kept_follows runs s).visitOperation sound.follows reachable op

theorem visitEdge_ensures (sound : c.Sound s) (block : Block) (edge : Edge) :
    Step.Ensures (c.visitEdge block edge s) c.Sound :=
  .after fun _ => .pure (sound.acts (c.refineEdge_bounded _ block edge).keeping).1

/-! ### Analyses -/

theorem problem_safe {descend : Option Runner} (runs : ∀ run, descend = some run → run.Sound)
    (seeded : c.Seeded) : (c.problem descend).Safe c.Sound State.Grows where
  initial := entryState_sound seeded
  merge _ _ := Sound.merge
  block block s sound := (kept_follows runs s).visitBlock sound.follows block
  edge block edge _ sound := visitEdge_ensures sound block edge

theorem analyzeWith_sound {descend : Option Runner}
    (runs : ∀ run, descend = some run → run.Sound) : Runner.Sound (analyzeWith descend) := by
  intro c cancelled result after seeded ran
  obtain ⟨solution, m, solved, snapshots⟩ := analyzeWith_ok ran
  rw [snapshots]
  exact Problem.solve_ensures (problem_safe runs seeded) _ _ _ _ solved

theorem analyzeWithin_sound (levels : Nat) : Runner.Sound (analyzeWithin levels) :=
  analyzeWithin_induct (fun _ runs => analyzeWith_sound runs) levels

end Context

end PathCompletion
