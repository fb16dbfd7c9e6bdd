import PathCompletion.Proofs.Completion.Callee

/-!
Which locations states come to have. Rules bring values only to what the oracle mentions, and a
callee brings its caller no new location but the result of the call.
-/

namespace PathCompletion

variable {known : Location → Prop}

theorem Acts.each_key {f : State → State}
    (acts : Acts (fun l effect => ∀ v, effect = .set v → known l) f) {s : State}
    (now : s.Each fun l _ => known l) : (f s).Each fun l _ => known l := by
  refine acts.each (fun l effect only old before w acted => ?_) now
  rcases Effect.act_eq_some acted with rfl | ⟨v, found, -⟩
  · exact only w rfl
  · exact before v found

namespace Context

variable {c : Context} {s exit : State}

/-! ### Entering and leaving -/

/-- The state that enters has what was given, and beyond that only what the oracle mentions. -/
def StartsWith (c : Context) (l : Location) (s : State) : Prop :=
  s.get? l = (c.initial.getD ∅).get? l ∨
    (c.initial.getD ∅).get? l = none ∧ c.oracle.Mentions l

theorem entryState_startsWith (c : Context) (l : Location) : c.StartsWith l c.entryState := by
  unfold entryState
  dsimp only
  split
  · -- A constructor fills what its parameters hold, where there is no value yet.
    refine List.foldlRecOn _ _ (.inl rfl) fun s before index _ => ?_
    refine List.foldlRecOn _ _ before fun s before other member => ?_
    split
    · exact before
    · next absent =>
      by_cases here : other = l
      · subst here
        rcases before with same | filled
        · have none : s.get? other = none := by simpa [SortedMap.contains] using absent
          exact .inr ⟨same ▸ none, .parameter index (SortedSet.mem_toList.mp member)⟩
        · exact .inr filled
      · unfold StartsWith
        rw [get?_setValue, if_neg fun both => here both.1]
        exact before
  · exact .inl rfl

theorem get?_entryState_of_some {l : Location} {v : Value}
    (given : (c.initial.getD ∅).get? l = some v) : c.entryState.get? l = some v := by
  rcases c.entryState_startsWith l with same | ⟨none, -⟩
  · exact same.trans given
  · rw [given] at none
    contradiction

theorem entryState_keys (mentions : ∀ l, c.oracle.Mentions l → known l)
    (start : ∀ s, c.initial = some s → s.Each fun l _ => known l) :
    c.entryState.Each fun l _ => known l := by
  intro l v found
  rcases c.entryState_startsWith l with same | ⟨-, mentioned⟩
  · rw [same] at found
    cases given : c.initial with
    | none =>
        rw [given] at found
        contradiction
    | some s =>
        rw [given] at found
        exact start s given l v found
  · exact mentions l mentioned

theorem seed_keys {callee : Body} (mentions : ∀ l, callee.oracle.Mentions l → known l)
    (now : s.Each fun l _ => known l) (arguments : List OperationId) :
    (c.seed callee arguments s).Each fun l _ => known l := by
  obtain ⟨f, acts, seeded⟩ : ∃ f, Acts (fun l effect => ∀ v, effect = .set v → known l) f ∧
      c.seed callee arguments s = f s :=
    seed_acts fun index _ _ _ _ l member _ _ _ => mentions l (.parameter index member)
  rw [seeded]
  exact acts.each_key now

theorem applyCallee_keys (op : Operation) (callee : Body) (arguments : List OperationId)
    (exit : State) :
    Acts (fun l effect => ∀ v, effect = .set v → l ∈ c.locations op.id)
      (c.applyCallee op callee arguments exit) :=
  ((receive_acts fun _ _ _ member _ _ _ => member).comp
    (handBack_acts fun _ _ _ _ _ _ _ => nofun)).comp (adopt_acts fun _ _ _ => nofun)

/-- All that is known takes the value it has when the callee ends, if it has one then. -/
theorem get?_adopt (exit s : State) (l : Location) :
    (adopt exit s).get? l = (s.get? l).map fun v => (exit.get? l).getD v := by
  cases ended : exit.get? l with
  | none =>
      have elsewhere : Acts (fun other _ => other ≠ l) (adopt exit) := by
        apply adopt_acts
        rintro _ v found rfl
        cases ended.symm.trans found
      rw [elsewhere.untouched]
      cases s.get? l <;> rfl
  | some w =>
      cases now : s.get? l with
      | none =>
          have keys : Acts (fun l effect => ∀ v, effect = .set v → s.contains l = true)
              (adopt exit) := adopt_acts fun _ _ _ => nofun
          have there : (adopt exit s).Each fun l _ => s.contains l = true :=
            keys.each_key fun l v found => SortedMap.contains_iff.mpr ⟨v, found⟩
          refine Option.eq_none_iff_forall_ne_some.mpr fun u found => ?_
          obtain ⟨v, present⟩ := SortedMap.contains_iff.mp (there l u found)
          cases now.symm.trans present
      | some v =>
          have known : s.contains l = true := SortedMap.contains_iff.mpr ⟨v, now⟩
          refine Acts.get?_foldl (SortedMap.mem_entries_iff.mpr ended) (fun t kept => ?_)
            fun (other, u) member => adoptEntry_acts ?_
          · simp [kept known]
          · rintro rfl
            cases ended.symm.trans (SortedMap.mem_entries_iff.mp member)
            rfl

/-! ### Analyses -/

theorem kept_keys {descend : Option Runner} (mentions : ∀ l, c.oracle.Mentions l → known l) :
    c.Kept descend fun s => s.Each fun l _ => known l where
  rule bounded now := by
    obtain ⟨cells, sites, -, -, acts⟩ := bounded
    exact (acts.mono fun l effect allowed _ _ => mentions l allowed.2.2).each_key now
  call {op _ arguments _ callee _ exit} now _ _ :=
    ((c.applyCallee_keys op callee arguments exit).mono fun l effect only v set =>
      mentions l (.value op.id (only v set))).each_key now

/-- Every location that an analysis records is one the oracle mentions, or was given. -/
theorem analyzeWith_keys {descend : Option Runner}
    (mentions : ∀ l, c.oracle.Mentions l → known l)
    (start : ∀ s, c.initial = some s → s.Each fun l _ => known l) {cancelled after : Bool}
    {result : Result} (ran : analyzeWith descend c cancelled = (.ok result, after)) :
    Problem.Snapshots (fun s => s.Each fun l _ => known l) (fun _ _ => True) result.snapshots :=
  (kept_keys mentions).snapshots (entryState_keys mentions start)
    (fun _ _ => State.Each.merge fun _ _ _ left _ => left) ran

end Context

end PathCompletion
