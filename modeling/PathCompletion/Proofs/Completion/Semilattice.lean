import PathCompletion.Proofs.Completion.Arising

/-!
Merging as a semilattice. On values whose evidence belongs to their kind, merging is associative,
commutative and idempotent, with `invalid` below and `nonTarget` above all others; the kind that
results decides whether the evidence is united or dropped. The laws pass from values to maps, key
by key, where a missing key is neutral.
-/

namespace PathCompletion

theorem SortedSet.union_comm {α : Type} [Key α] (s t : SortedSet α) : s ∪ t = t ∪ s :=
  SortedSet.ext fun a => by simp [or_comm]

theorem SortedSet.union_assoc {α : Type} [Key α] (s t u : SortedSet α) :
    s ∪ t ∪ u = s ∪ (t ∪ u) :=
  SortedSet.ext fun a => by simp [or_assoc]

theorem SortedSet.union_self {α : Type} [Key α] (s : SortedSet α) : s ∪ s = s :=
  SortedSet.ext fun a => by simp

theorem SortedSet.empty_union {α : Type} [Key α] (s : SortedSet α) : ∅ ∪ s = s :=
  SortedSet.ext fun a => by simp

theorem SortedSet.union_empty {α : Type} [Key α] (s : SortedSet α) : s ∪ ∅ = s :=
  SortedSet.ext fun a => by simp

namespace Kind

theorem nonTarget_sup (a : Kind) : .nonTarget ⊔ a = .nonTarget := by
  cases a <;> rfl

/-- A kind without evidence that leads to one with evidence is that of an instance that cannot
exist, or that nothing has happened to. -/
theorem of_evidence_above {a b : Kind} (empty : a.hasEmptyEvidence = true)
    (above : (a ⊔ b).hasEmptyEvidence = false) : a = .invalid ∨ a = .notCompleted := by
  cases a with
  | invalid => exact .inl rfl
  | notCompleted => exact .inr rfl
  | nonTarget =>
      rw [nonTarget_sup] at above
      contradiction
  | unknown => cases b <;> contradiction
  | _ => contradiction

theorem hasEmptyEvidence_of_sup {a b : Kind} (low : a ⊔ b = .invalid ∨ a ⊔ b = .notCompleted) :
    a.hasEmptyEvidence = true ∧ b.hasEmptyEvidence = true := by
  cases a <;> cases b <;> first | exact ⟨rfl, rfl⟩ | (rcases low with same | same <;> contradiction)

end Kind

/-! ### Values -/

namespace Value

variable {a b c : Value}

theorem WellFormed.evidence_eq_empty (wellFormed : a.WellFormed)
    (empty : a.kind.hasEmptyEvidence = true) : a.evidence = ∅ :=
  SortedSet.isEmpty_iff.mp (wellFormed.symm.trans empty)

/-- The kind of a merged value is the join of the kinds, and its evidence is all there is, unless
its kind has none. -/
theorem merge_eq (left : a.WellFormed) (right : b.WellFormed) :
    a.merge b = ⟨a.kind ⊔ b.kind,
      if (a.kind ⊔ b.kind).hasEmptyEvidence then ∅ else a.evidence ∪ b.evidence⟩ := by
  have kind := kind_merge a b
  have evidence : (a.merge b).evidence =
      if (a.kind ⊔ b.kind).hasEmptyEvidence then ∅ else a.evidence ∪ b.evidence := by
    rw [← kind]
    split
    · next empty => exact (left.merge right).evidence_eq_empty empty
    · next united =>
      by_cases absent : a.kind = .invalid
      · have nothing := left.evidence_eq_empty (by rw [absent]; rfl)
        simp [merge, absent, nothing, SortedSet.empty_union]
      by_cases absentToo : b.kind = .invalid
      · have nothing := right.evidence_eq_empty (by rw [absentToo]; rfl)
        simp [merge, absent, absentToo, nothing, SortedSet.union_empty]
      · -- Every other value that is not united has a kind without evidence.
        unfold merge at united ⊢
        simp only [absent, absentToo, ↓reduceIte] at united ⊢
        split at united
        · exact absurd rfl united
        split at united
        · exact absurd rfl united
        split at united
        · exact absurd rfl united
        · next targets known fresh => simp only [targets, known, fresh, ↓reduceIte]
  cases merged : a.merge b
  simp_all

theorem merge_comm (left : a.WellFormed) (right : b.WellFormed) : a.merge b = b.merge a := by
  rw [merge_eq left right, merge_eq right left, sup_comm, SortedSet.union_comm]

theorem merge_self (wellFormed : a.WellFormed) : a.merge a = a := by
  rw [merge_eq wellFormed wellFormed, sup_idem, SortedSet.union_self]
  split
  · next empty => rw [← wellFormed.evidence_eq_empty empty]
  · rfl

/-- Evidence that is still there further up was not dropped on the way. -/
theorem evidence_merge_of_above (left : a.WellFormed) (right : b.WellFormed) {kind : Kind}
    (above : (a.kind ⊔ b.kind ⊔ kind).hasEmptyEvidence = false) :
    (a.merge b).evidence = a.evidence ∪ b.evidence := by
  rw [merge_eq left right]
  split
  · next empty =>
    obtain ⟨first, second⟩ := Kind.hasEmptyEvidence_of_sup (Kind.of_evidence_above empty above)
    rw [left.evidence_eq_empty first, right.evidence_eq_empty second, SortedSet.union_self]
  · rfl

theorem merge_assoc (first : a.WellFormed) (second : b.WellFormed) (third : c.WellFormed) :
    (a.merge b).merge c = a.merge (b.merge c) := by
  rw [merge_eq (first.merge second) third, merge_eq first (second.merge third), kind_merge,
    kind_merge, sup_assoc]
  cases above : (a.kind ⊔ (b.kind ⊔ c.kind)).hasEmptyEvidence with
  | true => rfl
  | false =>
      have below : (b.merge c).evidence = b.evidence ∪ c.evidence :=
        evidence_merge_of_above second third (by rwa [sup_comm])
      have before : (a.merge b).evidence = a.evidence ∪ b.evidence :=
        evidence_merge_of_above first second (by rwa [sup_assoc])
      simp [below, before, SortedSet.union_assoc]

theorem wellFormed_invalid : invalid.WellFormed := rfl

theorem wellFormed_nonTarget : nonTarget.WellFormed := rfl

theorem invalid_merge (a : Value) : invalid.merge a = a := rfl

theorem nonTarget_merge (wellFormed : a.WellFormed) : nonTarget.merge a = nonTarget := by
  rw [merge_eq wellFormed_nonTarget wellFormed]
  simp [nonTarget, Kind.nonTarget_sup, Kind.hasEmptyEvidence]

end Value

/-! ### Domains -/

variable {κ V : Type} [Key κ]

def SortedMap.All (good : V → Prop) (m : SortedMap κ V) : Prop :=
  ∀ k v, m.get? k = some v → good v

namespace Domain

variable {d : Domain V} {good : V → Prop}

/-- On the values of this sort merging stays, and is a semilattice. -/
structure LawfulOn (d : Domain V) (good : V → Prop) : Prop where
  closed : ∀ a b, good a → good b → good (d.merge a b)
  assoc : ∀ a b c, good a → good b → good c →
    d.merge (d.merge a b) c = d.merge a (d.merge b c)
  comm : ∀ a b, good a → good b → d.merge a b = d.merge b a
  idem : ∀ a, good a → d.merge a a = a

theorem get?_merge_map (d : Domain V) (s t : SortedMap κ V) (k : κ) :
    (d.map.merge s t).get? k = d.mergeBackEdge (s.get? k) (t.get? k) := by
  change (SortedMap.mergeWith d.merge s t).get? k = _
  rw [SortedMap.get?_mergeWith]
  cases s.get? k <;> cases t.get? k <;> rfl

theorem empty_merge_map (d : Domain V) (s : SortedMap κ V) : d.map.merge ∅ s = s :=
  SortedMap.ext fun k => by rw [get?_merge_map]; rfl

theorem merge_map_empty (d : Domain V) (s : SortedMap κ V) : d.map.merge s ∅ = s := by
  apply SortedMap.ext
  intro k
  rw [get?_merge_map]
  cases s.get? k <;> rfl

section

variable {a b c : Option V} (lawful : d.LawfulOn good)

include lawful

theorem LawfulOn.mergeBackEdge_closed (left : ∀ v, a = some v → good v)
    (right : ∀ v, b = some v → good v) {v : V} (merged : d.mergeBackEdge a b = some v) :
    good v := by
  cases a with
  | none => exact right v merged
  | some x =>
      cases b with
      | none => exact left v merged
      | some y =>
          obtain rfl : d.merge x y = v := Option.some.inj merged
          exact lawful.closed x y (left x rfl) (right y rfl)

theorem LawfulOn.mergeBackEdge_assoc (first : ∀ v, a = some v → good v)
    (second : ∀ v, b = some v → good v) (third : ∀ v, c = some v → good v) :
    d.mergeBackEdge (d.mergeBackEdge a b) c = d.mergeBackEdge a (d.mergeBackEdge b c) := by
  cases a with
  | none => rfl
  | some x =>
      cases b with
      | none => rfl
      | some y =>
          cases c with
          | none => rfl
          | some z =>
              have inner := lawful.assoc x y z (first x rfl) (second y rfl) (third z rfl)
              exact congrArg some inner

theorem LawfulOn.mergeBackEdge_comm (left : ∀ v, a = some v → good v)
    (right : ∀ v, b = some v → good v) : d.mergeBackEdge a b = d.mergeBackEdge b a := by
  cases a with
  | none => cases b <;> rfl
  | some x =>
      cases b with
      | none => rfl
      | some y => exact congrArg some (lawful.comm x y (left x rfl) (right y rfl))

theorem LawfulOn.mergeBackEdge_idem (all : ∀ v, a = some v → good v) :
    d.mergeBackEdge a a = a := by
  cases a with
  | none => rfl
  | some x => exact congrArg some (lawful.idem x (all x rfl))

/-- A semilattice of values makes one of maps: at each key, a missing value is neutral. -/
theorem LawfulOn.map : (d.map : Domain (SortedMap κ V)).LawfulOn fun m => m.All good where
  closed s t left right k v found := by
    rw [get?_merge_map] at found
    exact lawful.mergeBackEdge_closed (left k) (right k) found
  assoc s t u first second third := SortedMap.ext fun k => by
    simp only [get?_merge_map]
    exact lawful.mergeBackEdge_assoc (first k) (second k) (third k)
  comm s t left right := SortedMap.ext fun k => by
    simp only [get?_merge_map]
    exact lawful.mergeBackEdge_comm (left k) (right k)
  idem s all := SortedMap.ext fun k => by
    rw [get?_merge_map]
    exact lawful.mergeBackEdge_idem (all k)

end

end Domain

namespace Value

theorem domain_lawfulOn : domain.LawfulOn WellFormed where
  closed _ _ := WellFormed.merge
  assoc _ _ _ := merge_assoc
  comm _ _ := merge_comm
  idem _ := merge_self

/-- Merging values is total and a semilattice, evidence included, with `invalid` as the neutral
and `nonTarget` as the absorbing value; merging maps is merging key by key, and a semilattice
with the empty map as the neutral one. -/
theorem merge_is_semilattice :
    domain.LawfulOn WellFormed ∧
    (∀ a b : Value, a.WellFormed → b.WellFormed →
      a.assertedMerge? b = some (a.merge b) ∧ a.merge b = ⟨a.kind ⊔ b.kind,
        if (a.kind ⊔ b.kind).hasEmptyEvidence then ∅ else a.evidence ∪ b.evidence⟩) ∧
    (∀ a : Value, a.WellFormed → invalid.merge a = a ∧ a.merge invalid = a ∧
      nonTarget.merge a = nonTarget ∧ a.merge nonTarget = nonTarget) ∧
    ∀ (κ : Type) [Key κ],
      (domain.map : Domain (SortedMap κ Value)).LawfulOn (fun m => m.All WellFormed) ∧
      (∀ (s t : SortedMap κ Value) k, (domain.map.merge s t).get? k =
        match s.get? k, t.get? k with
        | some a, some b => some (a.merge b)
        | some a, none => some a
        | none, other => other) ∧
      ∀ s : SortedMap κ Value, domain.map.merge ∅ s = s ∧ domain.map.merge s ∅ = s := by
  refine ⟨domain_lawfulOn, ?_, ?_, ?_⟩
  · intro a b left right
    exact ⟨assertedMerge?_of_wellFormed left right, merge_eq left right⟩
  · intro a wellFormed
    refine ⟨a.invalid_merge, ?_, nonTarget_merge wellFormed, ?_⟩
    · rw [merge_comm wellFormed wellFormed_invalid, invalid_merge]
    · rw [merge_comm wellFormed wellFormed_nonTarget, nonTarget_merge wellFormed]
  · intro κ _
    refine ⟨domain_lawfulOn.map, ?_, ?_⟩
    · intro s t k
      rw [domain.get?_merge_map]
      cases s.get? k <;> cases t.get? k <;> rfl
    · intro s
      exact ⟨domain.empty_merge_map s, domain.merge_map_empty s⟩

/-- An instance that escapes on one path, is left as it was on another and is completed on a
third. -/
theorem three_paths_merge_is_semilattice :
    let escaped : Value := ⟨.escaped, .singleton ⟨⟨0⟩, ⟨1⟩⟩⟩
    let completed : Value := ⟨.completed, .singleton ⟨⟨0⟩, ⟨2⟩⟩⟩
    escaped.WellFormed ∧ notCompleted.WellFormed ∧ completed.WellFormed ∧
      (escaped.merge notCompleted).merge completed =
        escaped.merge (notCompleted.merge completed) ∧
      escaped.merge (notCompleted.merge completed) =
        ⟨.maybeCompleted, .ofList [⟨⟨0⟩, ⟨1⟩⟩, ⟨⟨0⟩, ⟨2⟩⟩]⟩ ∧
      completed.merge nonTarget = nonTarget := by
  intro escaped completed
  have first : escaped.WellFormed := by decide
  have second : notCompleted.WellFormed := by decide
  have third : completed.WellFormed := by decide
  obtain ⟨lawful, -, neutral, -⟩ := merge_is_semilattice
  exact ⟨first, second, third, lawful.assoc _ _ _ first second third, by decide,
    (neutral completed third).2.2.2⟩

end Value

end PathCompletion
