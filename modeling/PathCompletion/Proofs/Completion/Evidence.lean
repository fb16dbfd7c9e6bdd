import Mathlib.Order.CompletePartialOrder
import PathCompletion.Proofs.Completion.Motion
import PathCompletion.Proofs.Completion.Sound

/-!
Kinds together with evidence. A value about which nothing is known stands for all evidence.
In this order merging is a supremum, and every effect is monotone except one: the completion
of an instance about which nothing is known leaves the one site as its only evidence.
-/

namespace PathCompletion

theorem Kind.le_unknown {k : Kind} (isTarget : k ≠ .nonTarget) : k ≤ .unknown := by
  cases k <;> first | contradiction | decide

theorem Kind.eq_unknown_of_le {a b : Kind} (below : a ≤ b) (isTarget : b ≠ .nonTarget)
    (vague : a = .unknown) : b = .unknown := by
  subst vague
  cases b <;> first | rfl | contradiction

namespace Value

def vouched (v : Value) : Set Site :=
  if v.kind = .unknown then Set.univ else { site | site ∈ v.evidence }

def trace (v : Value) : Kind × Set Site := (v.kind, v.vouched)

theorem vouched_of_known {v : Value} (known : v.kind ≠ .unknown) :
    v.vouched = { site | site ∈ v.evidence } := if_neg known

theorem Sound.evidence_eq_empty {v : Value} (sound : v.Sound)
    (empty : v.kind.hasEmptyEvidence = true) : v.evidence = ∅ :=
  SortedSet.isEmpty_iff.mp (sound.wellFormed ▸ empty)

theorem vouched_eq_empty {v : Value} (sound : v.Sound) (known : v.kind ≠ .unknown)
    (empty : v.kind.hasEmptyEvidence = true) : v.vouched = ∅ := by
  rw [vouched_of_known known, sound.evidence_eq_empty empty]
  exact Set.eq_empty_of_forall_notMem SortedSet.not_mem_empty

theorem vouched_merge {a b : Value} (left : a.Sound) (right : b.Sound) :
    (a.merge b).vouched = a.vouched ∪ b.vouched := by
  unfold merge
  split
  · next here =>
    rw [vouched_eq_empty left (by simp [here]) (by rw [here]; rfl), Set.empty_union]
  split
  · next here =>
    rw [vouched_eq_empty right (by simp [here]) (by rw [here]; rfl), Set.union_empty]
  split
  · next either => exact (either.elim left.isTarget right.isTarget).elim
  split
  · next either =>
    have all {v : Value} (vague : v.kind = .unknown) : v.vouched = Set.univ := if_pos vague
    rcases either with vague | vague
    · rw [all vague, Set.univ_union]
      rfl
    · rw [all vague, Set.union_univ]
      rfl
  split
  · next both =>
    rw [vouched_eq_empty left (by simp [both.1]) (by rw [both.1]; rfl),
      vouched_eq_empty right (by simp [both.2]) (by rw [both.2]; rfl), Set.union_empty]
    exact vouched_eq_empty sound_notCompleted nofun rfl
  · next invalidLeft invalidRight targets known fresh =>
    obtain ⟨kind, merged, -, certain, -⟩ :=
      Kind.hasEmptyEvidence_merge? invalidLeft invalidRight targets known fresh
    rw [vouched_of_known (fun vague => known (.inl vague)),
      vouched_of_known (fun vague => known (.inr vague)), merged, vouched_of_known certain]
    ext site
    exact SortedSet.mem_union

theorem trace_merge {a b : Value} (left : a.Sound) (right : b.Sound) :
    (a.merge b).trace = a.trace ⊔ b.trace :=
  Prod.ext (kind_merge a b) (vouched_merge left right)

theorem Sound.trace_injective {a b : Value} (left : a.Sound) (right : b.Sound)
    (same : a.trace = b.trace) : a = b := by
  obtain ⟨kind, evidence⟩ := a
  obtain ⟨kind', evidence'⟩ := b
  obtain rfl : kind = kind' := congrArg Prod.fst same
  by_cases vague : kind = .unknown
  · subst vague
    have first := left.evidence_eq_empty rfl
    have second := right.evidence_eq_empty rfl
    exact congrArg (Value.mk .unknown) (first.trans second.symm)
  · have sites := congrArg Prod.snd same
    change vouched _ = vouched _ at sites
    rw [vouched_of_known vague, vouched_of_known vague] at sites
    exact congrArg (Value.mk kind) (SortedSet.ext fun site => (Set.ext_iff.mp sites) site)

/-! ### Changes of single values -/

variable {v w : Value}

theorem trace_le_of_unknown (sound : v.Sound) (vague : w.kind = .unknown) : v.trace ≤ w.trace := by
  constructor
  · change v.kind ≤ w.kind
    rw [vague]
    exact Kind.le_unknown sound.isTarget
  · change v.vouched ⊆ w.vouched
    rw [show w.vouched = Set.univ from if_pos vague]
    exact Set.subset_univ _

theorem known_of_trace_le (sound : w.Sound) (below : v.trace ≤ w.trace)
    (known : w.kind ≠ .unknown) : v.kind ≠ .unknown :=
  fun vague => known (Kind.eq_unknown_of_le below.1 sound.isTarget vague)

-- Without `known` this fails: the upper value would lose all evidence but the new site.
theorem trace_complete (left : v.Sound) (right : w.Sound) (known : w.kind ≠ .unknown)
    (below : v.trace ≤ w.trace) (site : Site) :
    ((v.complete? site).getD v).trace ≤ ((w.complete? site).getD w).trace := by
  have evidence : v.vouched ⊆ w.vouched := below.2
  rw [vouched_of_known (known_of_trace_le right below known), vouched_of_known known] at evidence
  rw [complete?_eq site left.isTarget, complete?_eq site right.isTarget]
  refine ⟨le_rfl, ?_⟩
  intro other member
  exact SortedSet.mem_insert.mpr ((SortedSet.mem_insert.mp member).imp id (evidence ·))

theorem trace_escape (left : v.Sound) (right : w.Sound) (below : v.trace ≤ w.trace)
    (site : Site) : ((v.escape? site).getD v).trace ≤ ((w.escape? site).getD w).trace := by
  by_cases vague : w.kind = .unknown
  · -- What is unknown does not escape, and stands above whatever the other becomes.
    have stays : w.escape? site = none := by simp [escape?, vague]
    rw [stays]
    apply trace_le_of_unknown _ vague
    cases escaped : v.escape? site with
    | none => exact left
    | some u => exact escape?_sound escaped
  · rw [escape?_eq site left.isTarget (known_of_trace_le right below vague),
      escape?_eq site right.isTarget vague]
    exact le_rfl

theorem trace_invalidate (left : v.Sound) (right : w.Sound) :
    (v.invalidate?.getD v).trace ≤ (w.invalidate?.getD w).trace := by
  rw [invalidate?_eq left.isTarget, invalidate?_eq right.isTarget]
  exact le_rfl

end Value

/-! ### Effects and rules -/

namespace Context

variable {c : Context} {l : Location} {old new : Option Value}

theorem seen_act_mono {effect : Effect} (below : seen Value.trace old ≤ seen Value.trace new)
    (mono : ∀ v w, old = some v → new = some w → v.trace ≤ w.trace →
      (effect.change v).trace ≤ (effect.change w).trace) :
    seen Value.trace (effect.act old) ≤ seen Value.trace (effect.act new) := by
  cases old with
  | some v =>
      cases new with
      | none => exact absurd below (WithBot.not_coe_le_bot _)
      | some w =>
          rw [Effect.act_some, Effect.act_some]
          exact WithBot.coe_le_coe.mpr (mono v w rfl rfl (WithBot.coe_le_coe.mp below))
  | none =>
      cases effect with
      | set v => cases new <;> exact le_rfl
      | _ => exact bot_le

theorem act_mono {effect : Effect} (plain : effect.Plain)
    (left : ∀ v, old = some v → c.SoundAt l v) (right : ∀ w, new = some w → c.SoundAt l w)
    (below : seen Value.trace old ≤ seen Value.trace new) :
    seen Value.trace (effect.act old) ≤ seen Value.trace (effect.act new) := by
  apply seen_act_mono below
  intro v w foundLeft foundRight le
  cases effect with
  | set u => exact le_rfl
  | replace u => exact le_rfl
  | complete site => exact plain.elim
  | escape site => exact Value.trace_escape (left v foundLeft).2 (right w foundRight).2 le site
  | invalidate => exact Value.trace_invalidate (left v foundLeft).2 (right w foundRight).2

theorem run_mono {effects : List Effect}
    (allowed : ∀ effect ∈ effects, c.Keeping l effect ∧ effect.Plain)
    (left : ∀ v, old = some v → c.SoundAt l v) (right : ∀ w, new = some w → c.SoundAt l w)
    (below : seen Value.trace old ≤ seen Value.trace new) :
    seen Value.trace (Effect.run effects old) ≤ seen Value.trace (Effect.run effects new) := by
  induction effects generalizing old new with
  | nil => exact below
  | cons first rest ih =>
      obtain ⟨keeping, plain⟩ := allowed first List.mem_cons_self
      exact ih (fun effect later => allowed effect (List.mem_cons_of_mem first later))
        (SoundAt.act keeping left) (SoundAt.act keeping right) (act_mono plain left right below)

theorem run_completions_mono {site : Site} {effects : List Effect}
    (completions : ∀ effect ∈ effects, effect = .complete site)
    (left : ∀ v, old = some v → c.SoundAt l v) (right : ∀ w, new = some w → c.SoundAt l w)
    (known : effects ≠ [] → ∀ w, new = some w → w.kind ≠ .unknown)
    (below : seen Value.trace old ≤ seen Value.trace new) :
    seen Value.trace (Effect.run effects old) ≤ seen Value.trace (Effect.run effects new) := by
  induction effects generalizing old new with
  | nil => exact below
  | cons first rest ih =>
      obtain rfl := completions first List.mem_cons_self
      have keeping : c.Keeping l (.complete site) := trivial
      apply ih (fun effect later => completions effect (List.mem_cons_of_mem _ later))
        (SoundAt.act keeping left) (SoundAt.act keeping right)
      · -- What was completed once is known to be completed.
        intro _ u acted
        rcases Effect.act_eq_some acted with other | ⟨w, found, rfl⟩
        · contradiction
        · change ((w.complete? site).getD w).kind ≠ .unknown
          rw [Value.complete?_eq site (right w found).2.isTarget]
          exact nofun
      · exact seen_act_mono below fun v w foundLeft foundRight le =>
          Value.trace_complete (left v foundLeft).2 (right w foundRight).2
            (known nofun w foundRight) le site

variable {s t : State}

theorem Bounded.mono_trace {f : State → State} (bounded : c.Bounded c.Regular f)
    (left : c.Sound s) (right : c.Sound t) (below : s.view Value.trace ≤ t.view Value.trace) :
    (f s).view Value.trace ≤ (f t).view Value.trace := by
  obtain ⟨cells, sites, -, -, acts⟩ := bounded
  intro l
  obtain ⟨effects, allowed, ran⟩ := acts l
  unfold State.view
  rw [ran, ran]
  exact run_mono (fun effect member => ⟨.of_allows (allowed effect member).1,
    (allowed effect member).2.1.plain⟩) (left l) (right l) (below l)

theorem complete_mono_trace {invocation : OperationId} {target : Option OperationId}
    (left : c.Sound s) (right : c.Sound t) (below : s.view Value.trace ≤ t.view Value.trace)
    (known : ∀ l ∈ c.completed target, t.kindAt l ≠ (Kind.unknown : WithBot Kind)) :
    (c.complete invocation target s).view Value.trace ≤
      (c.complete invocation target t).view Value.trace := by
  intro l
  obtain ⟨effects, allowed, ran⟩ := c.complete_acts invocation target l
  unfold State.view
  rw [ran, ran]
  refine run_completions_mono (fun effect member => (allowed effect member).2)
    (left l) (right l) ?_ (below l)
  intro some w found vague
  obtain ⟨effect, member⟩ := List.exists_mem_of_ne_nil _ some
  apply known l (allowed effect member).1
  rw [State.kindAt, State.view, found, ← vague]
  rfl

theorem perform_bounded_regular (reachable : Bool) {op : Operation}
    (other : ∀ target arguments, op.kind ≠ .invocation c.env.target.completion target arguments) :
    c.Bounded c.Regular (c.perform reachable op) := by
  unfold perform
  cases kind : op.kind with
  | objectCreation constructor arguments => exact c.construct_bounded reachable op arguments
  | invocation method target arguments =>
      have different : method ≠ c.env.target.completion :=
        fun same => other target arguments (same ▸ kind)
      simp only [different, ↓reduceIte]
      exact c.call_bounded reachable op method arguments
  | _ => exact .id

theorem operate_mono_trace {reachable : Bool} {op : Operation} (left : c.Sound s)
    (right : c.Sound t) (below : s.view Value.trace ≤ t.view Value.trace)
    (known : ∀ target arguments, op.kind = .invocation c.env.target.completion target arguments →
      ∀ l ∈ c.completed target, t.kindAt l ≠ (Kind.unknown : WithBot Kind)) :
    (c.operate reachable s op).view Value.trace ≤ (c.operate reachable t op).view Value.trace := by
  have performed (s : State) (sound : c.Sound s) : c.Sound (c.perform reachable op s) :=
    (sound.acts (c.perform_bounded reachable op).keeping).1
  apply (c.applyEscapes_bounded op).mono_trace (performed s left) (performed t right)
  by_cases completes : ∃ target arguments,
      op.kind = .invocation c.env.target.completion target arguments
  · obtain ⟨target, arguments, kind⟩ := completes
    simp only [perform, kind, ↓reduceIte]
    exact complete_mono_trace left right below (known target arguments kind)
  · refine (perform_bounded_regular reachable fun target arguments kind => ?_).mono_trace left right
      below
    exact completes ⟨target, arguments, kind⟩

theorem operate_sound {reachable : Bool} (sound : c.Sound s) (op : Operation) :
    c.Sound (c.operate reachable s op) :=
  (sound.acts (c.operate_bounded reachable op).keeping).1

theorem foldl_operate_mono_trace (reachable : Bool) (ops : List Operation) (left : c.Sound s)
    (right : c.Sound t) (below : s.view Value.trace ≤ t.view Value.trace)
    (known : ∀ before op later target arguments, ops = before ++ op :: later →
      op.kind = .invocation c.env.target.completion target arguments →
        ∀ l ∈ c.completed target,
          (before.foldl (c.operate reachable) t).kindAt l ≠ (Kind.unknown : WithBot Kind)) :
    (ops.foldl (c.operate reachable) s).view Value.trace ≤
      (ops.foldl (c.operate reachable) t).view Value.trace := by
  induction ops generalizing s t with
  | nil => exact below
  | cons first rest ih =>
      apply ih (operate_sound left first) (operate_sound right first)
      · exact operate_mono_trace left right below fun target arguments kind =>
          known [] first rest target arguments rfl kind
      · intro before op later target arguments split
        exact known (first :: before) op later target arguments (congrArg (first :: ·) split)

end Context

end PathCompletion
