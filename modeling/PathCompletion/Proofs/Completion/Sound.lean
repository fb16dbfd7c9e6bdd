import PathCompletion.Proofs.Completion.Lattice
import PathCompletion.Proofs.Completion.Rule

/-!
Sound states: values only at trackable locations, none of them of a kind that needs no
completion, and evidence exactly where the kind asks for it. Merging and all effects keep
states sound, and effects lose no location.
-/

namespace PathCompletion

theorem SortedSet.isEmpty_of_mem {α : Type} [Key α] {s : SortedSet α} {a : α} (member : a ∈ s) :
    s.isEmpty = false := by
  cases empty : s.isEmpty with
  | false => rfl
  | true =>
      rw [SortedSet.isEmpty_iff.mp empty] at member
      exact absurd member (SortedSet.not_mem_empty a)

theorem SortedSet.isEmpty_union {α : Type} [Key α] (s t : SortedSet α) :
    (s ∪ t).isEmpty = (s.isEmpty && t.isEmpty) := by
  rw [Bool.eq_iff_iff, Bool.and_eq_true, SortedSet.isEmpty_iff, SortedSet.isEmpty_iff,
    SortedSet.isEmpty_iff]
  constructor
  · intro empty
    have none (a : α) : ¬ (a ∈ s ∨ a ∈ t) := by
      rw [← SortedSet.mem_union, empty]
      exact SortedSet.not_mem_empty a
    constructor
    · exact SortedSet.ext fun a => ⟨fun member => absurd (.inl member) (none a), nofun⟩
    · exact SortedSet.ext fun a => ⟨fun member => absurd (.inr member) (none a), nofun⟩
  · rintro ⟨rfl, rfl⟩
    exact SortedSet.ext fun a => by simp

/-! ### Sound values -/

theorem Kind.hasEmptyEvidence_merge? {a b : Kind} (left : a ≠ .invalid)
    (right : b ≠ .invalid) (targets : ¬ (a = .nonTarget ∨ b = .nonTarget))
    (known : ¬ (a = .unknown ∨ b = .unknown)) (fresh : ¬ (a = .notCompleted ∧ b = .notCompleted)) :
    ∃ kind, a.merge? b = some kind ∧ kind ≠ .nonTarget ∧ kind ≠ .unknown ∧
      kind.hasEmptyEvidence = (a.hasEmptyEvidence && b.hasEmptyEvidence) := by
  cases a <;> cases b <;> simp_all [Kind.merge?, Kind.hasEmptyEvidence]

/-- The value may stand in a state: it is of something that must be completed, and has
evidence exactly where its kind asks for it. -/
def Value.Sound (v : Value) : Prop := v.kind ≠ .nonTarget ∧ v.WellFormed

theorem Value.Sound.isTarget {v : Value} (sound : v.Sound) : v.kind ≠ .nonTarget := sound.1

theorem Value.Sound.wellFormed {v : Value} (sound : v.Sound) : v.WellFormed := sound.2

namespace Value

theorem sound_notCompleted : notCompleted.Sound := ⟨nofun, rfl⟩

theorem sound_unknown : unknown.Sound := ⟨nofun, rfl⟩

theorem sound_invalid : invalid.Sound := ⟨nofun, rfl⟩

variable {v w : Value}

theorem complete?_eq (site : Site) (isTarget : v.kind ≠ .nonTarget) :
    v.complete? site = some ⟨.completed, v.evidence.insert site⟩ := by
  unfold complete?
  split
  · contradiction
  · rfl

theorem escape?_eq (site : Site) (isTarget : v.kind ≠ .nonTarget) (known : v.kind ≠ .unknown) :
    v.escape? site = some ⟨.escaped, .singleton site⟩ := by
  unfold escape?
  split
  · contradiction
  · contradiction
  · rfl

theorem invalidate?_eq (isTarget : v.kind ≠ .nonTarget) : v.invalidate? = some invalid := by
  unfold invalidate?
  split
  · contradiction
  · rfl

theorem complete?_sound {site : Site} (completed : v.complete? site = some w) : w.Sound := by
  by_cases isTarget : v.kind = .nonTarget
  · simp [complete?, isTarget] at completed
  · rw [complete?_eq site isTarget] at completed
    cases completed
    exact ⟨nofun, (SortedSet.isEmpty_of_mem (SortedSet.mem_insert.mpr (.inl rfl))).symm⟩

theorem escape?_sound {site : Site} (escaped : v.escape? site = some w) : w.Sound := by
  by_cases refused : v.kind = .nonTarget ∨ v.kind = .unknown
  · rcases refused with kind | kind <;> simp [escape?, kind] at escaped
  · rw [escape?_eq site (refused ∘ .inl) (refused ∘ .inr)] at escaped
    cases escaped
    exact ⟨nofun, (SortedSet.isEmpty_of_mem (SortedSet.mem_singleton.mpr rfl)).symm⟩

theorem invalidate?_sound (invalidated : v.invalidate? = some w) : w.Sound := by
  by_cases isTarget : v.kind = .nonTarget
  · simp [invalidate?, isTarget] at invalidated
  · rw [invalidate?_eq isTarget] at invalidated
    cases invalidated
    exact sound_invalid

theorem WellFormed.merge {a b : Value} (left : a.WellFormed) (right : b.WellFormed) :
    (a.merge b).WellFormed := by
  unfold Value.merge
  split
  · exact right
  split
  · exact left
  split
  · rfl
  split
  · rfl
  split
  · rfl
  · next invalidLeft invalidRight targets known fresh =>
    obtain ⟨kind, merged, -, -, evidence⟩ :=
      Kind.hasEmptyEvidence_merge? invalidLeft invalidRight targets known fresh
    rw [merged]
    change kind.hasEmptyEvidence = (a.evidence ∪ b.evidence).isEmpty
    rw [evidence, SortedSet.isEmpty_union, left, right]

theorem Sound.merge {a b : Value} (left : a.Sound) (right : b.Sound) : (a.merge b).Sound := by
  refine ⟨?_, left.wellFormed.merge right.wellFormed⟩
  rw [kind_merge]
  exact fun met => (Kind.nonTarget_of_sup met).elim left.isTarget right.isTarget

end Value

/-! ### Sound states -/

def State.Grows (s t : State) : Prop := ∀ l, s.contains l = true → t.contains l = true

theorem State.Grows.trans {s t u : State} (first : s.Grows t) (second : t.Grows u) : s.Grows u :=
  fun l known => second l (first l known)

namespace Context

def SoundAt (c : Context) (l : Location) (v : Value) : Prop :=
  c.isTrackable l = true ∧ v.Sound

def Sound (c : Context) (s : State) : Prop := s.Each c.SoundAt

/-- The state that a caller gives is sound. The first procedure of a call chain is given none. -/
def Seeded (c : Context) : Prop := ∀ s, c.initial = some s → c.Sound s

variable {c : Context} {l : Location} {v w : Value}

theorem SoundAt.merge (left : c.SoundAt l v) (right : c.SoundAt l w) :
    c.SoundAt l (v.merge w) :=
  ⟨left.1, left.2.merge right.2⟩

theorem Sound.merge {s t : State} (left : c.Sound s) (right : c.Sound t) :
    c.Sound (State.domain.merge s t) :=
  State.Each.merge (fun _ _ _ => SoundAt.merge) left right

def Keeping (c : Context) (l : Location) : Effect → Prop
  | .set v => c.SoundAt l v
  | .replace v => v.Sound
  | .complete _ | .escape _ | .invalidate => True

theorem Keeping.of_allows {cells : Set Location} {sites : Set Site} {effect : Effect}
    (allowed : c.Allows cells sites l effect) : c.Keeping l effect := by
  cases effect with
  | set v =>
      refine ⟨allowed.1, ?_⟩
      rcases allowed.2.2 with rfl | rfl
      · exact Value.sound_notCompleted
      · exact Value.sound_unknown
  | replace v =>
      cases allowed
      exact Value.sound_unknown
  | complete site => trivial
  | escape site => trivial
  | invalidate => trivial

theorem SoundAt.change {effect : Effect} (keeping : c.Keeping l effect) (sound : c.SoundAt l v) :
    c.SoundAt l (effect.change v) := by
  -- A change that is refused leaves the value as it was.
  have revised {new : Option Value} (kept : ∀ w, new = some w → w.Sound) :
      c.SoundAt l (new.getD v) := by
    cases new with
    | none => exact sound
    | some w => exact ⟨sound.1, kept w rfl⟩
  cases effect with
  | set w => exact keeping
  | replace w => exact ⟨sound.1, keeping⟩
  | complete site => exact revised fun w => Value.complete?_sound
  | escape site => exact revised fun w => Value.escape?_sound
  | invalidate => exact revised fun w => Value.invalidate?_sound

theorem SoundAt.act {effect : Effect} (keeping : c.Keeping l effect) {old : Option Value}
    (sound : ∀ v, old = some v → c.SoundAt l v) :
    ∀ w, effect.act old = some w → c.SoundAt l w := by
  intro w acted
  rcases Effect.act_eq_some acted with rfl | ⟨v, found, rfl⟩
  · exact keeping
  · exact (sound v found).change keeping

theorem Sound.acts {f : State → State} (acts : Acts c.Keeping f) {s : State} (sound : c.Sound s) :
    c.Sound (f s) ∧ s.Grows (f s) := by
  refine ⟨acts.each (fun l effect keeping old => ?_) sound, fun _ => acts.contains⟩
  exact SoundAt.act keeping

theorem Bounded.keeping {sort : Effect → Prop} {f : State → State} (bounded : c.Bounded sort f) :
    Acts c.Keeping f := by
  obtain ⟨cells, sites, -, -, acts⟩ := bounded
  exact acts.mono fun l effect allowed => .of_allows allowed.1

/-! ### The state that enters a procedure -/

theorem setValue_each {good : Location → Value → Prop} {s : State} (now : s.Each good)
    (new : c.isTrackable l = true → good l v) : (c.setValue s l v).Each good := by
  intro other w found
  rw [get?_setValue] at found
  split at found
  · next here =>
    cases found
    exact here.1 ▸ new here.2
  · exact now other w found

theorem entryState_each {good : Location → Value → Prop}
    (given : ∀ s, c.initial = some s → s.Each good)
    (fresh : ∀ l, c.isTrackable l = true → good l .notCompleted) : c.entryState.Each good := by
  have start : (c.initial.getD ∅).Each good := by
    cases here : c.initial with
    | none => exact nofun
    | some s => exact given s here
  unfold entryState
  dsimp only
  split
  · -- A constructor owns what its parameters hold, location by location.
    refine List.foldlRecOn _ _ start fun s now index _ => ?_
    refine List.foldlRecOn _ _ now fun s now l _ => ?_
    split
    · exact now
    · exact setValue_each now (fresh l)
  · exact start

theorem entryState_sound (seeded : c.Seeded) : c.Sound c.entryState :=
  entryState_each seeded fun _ trackable => ⟨trackable, Value.sound_notCompleted⟩

end Context

end PathCompletion
