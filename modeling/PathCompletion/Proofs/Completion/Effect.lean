import Mathlib.Data.Set.Finite.List
import Mathlib.Data.Set.Finite.Lattice
import PathCompletion.Analysis.Rule
import PathCompletion.Proofs.Completion.Lattice

/-!
Rules, seen at one location. What a rule does to the value of a location depends on that value
alone: it is a fixed sequence of effects. Facts about rules follow from facts about effects.
-/

namespace PathCompletion

/-- What can happen to the value of a location. All effects but `set` leave a location that
has no value without one. -/
inductive Effect where
  | set (v : Value)
  | replace (v : Value)
  | complete (site : Site)
  | escape (site : Site)
  | invalidate

namespace Effect

def change : Effect → Value → Value
  | set v, _ | replace v, _ => v
  | complete site, v => (v.complete? site).getD v
  | escape site, v => (v.escape? site).getD v
  | invalidate, v => v.invalidate?.getD v

def act : Effect → Option Value → Option Value
  | set v, none => some v
  | effect, old => old.map effect.change

theorem act_some (effect : Effect) (v : Value) : effect.act (some v) = some (effect.change v) := by
  cases effect <;> rfl

theorem act_eq_some {effect : Effect} {old : Option Value} {w : Value}
    (acted : effect.act old = some w) :
    effect = .set w ∨ ∃ v, old = some v ∧ w = effect.change v := by
  cases old with
  | some v =>
      rw [act_some, Option.some.injEq] at acted
      exact .inr ⟨v, rfl, acted.symm⟩
  | none =>
      cases effect with
      | set v => exact .inl (congrArg Effect.set (Option.some.inj acted))
      | _ => contradiction

def run (effects : List Effect) (old : Option Value) : Option Value :=
  effects.foldl (fun old effect => effect.act old) old

theorem run_cons (effect : Effect) (effects : List Effect) (old : Option Value) :
    run (effect :: effects) old = run effects (effect.act old) := rfl

theorem run_append (first second : List Effect) (old : Option Value) :
    run (first ++ second) old = run second (run first old) :=
  List.foldl_append

theorem isSome_run (effects : List Effect) {old : Option Value} (present : old.isSome = true) :
    (run effects old).isSome = true := by
  induction effects generalizing old with
  | nil => exact present
  | cons first rest ih =>
      obtain ⟨v, rfl⟩ := Option.isSome_iff_exists.mp present
      rw [run_cons, act_some]
      exact ih rfl

theorem run_of_fixed {effects : List Effect} {v : Value}
    (fixed : ∀ effect ∈ effects, effect.change v = v) : run effects (some v) = some v := by
  induction effects with
  | nil => rfl
  | cons first rest ih =>
      rw [run_cons, act_some, fixed first List.mem_cons_self]
      exact ih fun effect later => fixed effect (List.mem_cons_of_mem first later)

theorem run_keeps {effects : List Effect} {good : Value → Prop}
    (kept : ∀ effect ∈ effects, ∀ old, (∀ v, old = some v → good v) →
      ∀ w, effect.act old = some w → good w) {old : Option Value}
    (start : ∀ v, old = some v → good v) : ∀ w, run effects old = some w → good w := by
  induction effects generalizing old with
  | nil => exact start
  | cons first rest ih =>
      apply ih fun effect later => kept effect (List.mem_cons_of_mem first later)
      exact kept first List.mem_cons_self old start

def Plain : Effect → Prop
  | complete _ => False
  | _ => True

end Effect

/-- At every location the rule runs a sequence of allowed effects. -/
def Acts (allowed : Location → Effect → Prop) (f : State → State) : Prop :=
  ∀ l, ∃ effects : List Effect, (∀ effect ∈ effects, allowed l effect) ∧
    ∀ s, (f s).get? l = Effect.run effects (s.get? l)

namespace Acts

variable {allowed : Location → Effect → Prop} {f g : State → State}

theorem id : Acts allowed fun s => s := fun _ => ⟨[], nofun, fun _ => rfl⟩

theorem comp (second : Acts allowed g) (first : Acts allowed f) :
    Acts allowed fun s => g (f s) := by
  intro l
  obtain ⟨before, allowedBefore, ran⟩ := first l
  obtain ⟨later, allowedLater, ranLater⟩ := second l
  refine ⟨before ++ later, ?_, ?_⟩
  · intro effect member
    exact (List.mem_append.mp member).elim (allowedBefore effect) (allowedLater effect)
  · intro s
    rw [ranLater, ran, Effect.run_append]

theorem mono {wider : Location → Effect → Prop} (acts : Acts allowed f)
    (more : ∀ l effect, allowed l effect → wider l effect) : Acts wider f := by
  intro l
  obtain ⟨effects, all, ran⟩ := acts l
  exact ⟨effects, fun effect member => more l effect (all effect member), ran⟩

theorem foldl {α : Type} {f : State → α → State} (items : List α)
    (each : ∀ a ∈ items, Acts allowed fun s => f s a) :
    Acts allowed fun s => items.foldl f s := by
  induction items with
  | nil => exact id
  | cons first rest ih =>
      have later := ih fun a member => each a (List.mem_cons_of_mem first member)
      exact later.comp (each first List.mem_cons_self)

theorem untouched {l : Location} (acts : Acts (fun other _ => other ≠ l) f) (s : State) :
    (f s).get? l = s.get? l := by
  obtain ⟨effects, elsewhere, ran⟩ := acts l
  have none : effects = [] :=
    List.eq_nil_iff_forall_not_mem.mpr fun effect member => elsewhere effect member rfl
  rw [ran, none]
  rfl

theorem contains (acts : Acts allowed f) {s : State} {l : Location}
    (known : s.contains l = true) : (f s).contains l = true := by
  obtain ⟨effects, -, ran⟩ := acts l
  unfold SortedMap.contains at known ⊢
  rw [ran]
  exact Effect.isSome_run effects known

theorem stays {l : Location} {v : Value}
    (acts : Acts (fun other effect => other = l → effect.change v = v) f) {s : State}
    (now : s.get? l = some v) : (f s).get? l = some v := by
  obtain ⟨effects, fixed, ran⟩ := acts l
  rw [ran, now]
  exact Effect.run_of_fixed fun effect member => fixed effect member rfl

/-- One rule of a sequence writes a value, and no other rule of it writes another. -/
theorem get?_foldl {α : Type} {f : State → α → State} {items : List α} {a : α}
    (member : a ∈ items) {s : State} {l : Location} {v : Value}
    (writes : ∀ t : State, (s.contains l = true → t.contains l = true) → (f t a).get? l = some v)
    (each : ∀ b ∈ items,
      Acts (fun other effect => other = l → effect.change v = v) fun t => f t b) :
    (items.foldl f s).get? l = some v := by
  obtain ⟨before, later, rfl⟩ := List.append_of_mem member
  rw [List.foldl_append, List.foldl_cons]
  have first : Acts _ fun t => before.foldl f t :=
    Acts.foldl before fun b inside => each b (List.mem_append_left _ inside)
  have last : Acts _ fun t => later.foldl f t :=
    Acts.foldl later fun b inside =>
      each b (List.mem_append_right _ (List.mem_cons_of_mem a inside))
  exact last.stays (writes _ first.contains)

theorem each {good : Location → Value → Prop}
    (kept : ∀ l effect, allowed l effect → ∀ old, (∀ v, old = some v → good l v) →
      ∀ w, effect.act old = some w → good l w) (acts : Acts allowed f) {s : State}
    (now : s.Each good) : (f s).Each good := by
  intro l
  obtain ⟨effects, all, ran⟩ := acts l
  rw [ran]
  exact Effect.run_keeps (fun effect member => kept l effect (all effect member)) (now l)

end Acts

namespace Context

variable {c : Context} {allowed : Location → Effect → Prop}

/-! ### Writing one location -/

theorem get?_setValue (c : Context) (s : State) (l other : Location) (v : Value) :
    (c.setValue s l v).get? other =
      if l = other ∧ c.isTrackable l = true then some v else s.get? other := by
  unfold setValue
  split
  · next trackable =>
    simp only [SortedMap.get?_insert, Key.key_eq_iff, trackable, and_true]
  · next untracked => simp only [untracked, and_false, ↓reduceIte, Bool.false_eq_true]

theorem setAll_acts {locations : LocationSet} {v : Value}
    (allows : ∀ l ∈ locations, c.isTrackable l = true → allowed l (.set v)) :
    Acts allowed (c.setAll locations v) := by
  apply Acts.foldl
  intro l member other
  by_cases here : l = other ∧ c.isTrackable l = true
  · obtain ⟨rfl, trackable⟩ := here
    refine ⟨[.set v], ?_, fun s => ?_⟩
    · intro effect listed
      rw [List.mem_singleton.mp listed]
      exact allows l (SortedSet.mem_toList.mp member) trackable
    · rw [get?_setValue, if_pos ⟨rfl, trackable⟩]
      cases s.get? l <;> rfl
  · refine ⟨[], nofun, fun s => ?_⟩
    rw [get?_setValue, if_neg here]
    rfl

/-- A rule that revises values runs the effect of the revision at each of its locations. -/
theorem revise_acts {change : Value → Option Value} (effect : Effect)
    (acts : ∀ old, effect.act old = old.map fun v => (change v).getD v) {locations : LocationSet}
    (allows : ∀ l ∈ locations, allowed l effect) : Acts allowed (c.revise change locations) := by
  apply Acts.foldl
  intro l member other
  by_cases here : l = other ∧ c.isTrackable l = true
  · obtain ⟨rfl, trackable⟩ := here
    refine ⟨[effect], ?_, fun s => ?_⟩
    · intro other listed
      rw [List.mem_singleton.mp listed]
      exact allows l (SortedSet.mem_toList.mp member)
    · rw [Effect.run_cons, acts]
      change _ = (s.get? l).map fun v => (change v).getD v
      cases found : s.get? l with
      | none => simp [found]
      | some old =>
          cases changed : change old with
          | none => simp [found, changed]
          | some v => simp [found, changed, get?_setValue, trackable]
  · refine ⟨[], nofun, fun s => ?_⟩
    dsimp only
    split
    · rw [get?_setValue, if_neg here]
      rfl
    · rfl

end Context

end PathCompletion
