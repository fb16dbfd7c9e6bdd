import Mathlib.Order.Hom.WithTopBot
import PathCompletion.Completion.Value

/-!
The order that merging gives. Kinds form a semilattice of their own, because the kind of a
merged value depends on the kinds of its parts alone. A state is looked at location by
location, and a location without a value lies below all others.
-/

namespace PathCompletion

namespace Kind

def join (a b : Kind) : Kind :=
  if a = .invalid then b
  else if b = .invalid then a
  else if a = .nonTarget ∨ b = .nonTarget then .nonTarget
  else if a = .unknown ∨ b = .unknown then .unknown
  else (a.merge? b).getD .maybeCompleted

instance : Max Kind := ⟨join⟩

theorem join_comm (a b : Kind) : a ⊔ b = b ⊔ a := by
  cases a <;> cases b <;> rfl

theorem join_assoc (a b c : Kind) : a ⊔ b ⊔ c = a ⊔ (b ⊔ c) := by
  cases a <;> cases b <;> cases c <;> rfl

theorem join_idem (a : Kind) : a ⊔ a = a := by
  cases a <;> rfl

/-- A kind is below another when merging adds nothing to the other. -/
instance : SemilatticeSup Kind := SemilatticeSup.mk' join_comm join_assoc join_idem

instance (a b : Kind) : Decidable (a ≤ b) := inferInstanceAs (Decidable (a ⊔ b = b))

theorem unknown_of_sup {a b : Kind} (met : a ⊔ b = .unknown) : a = .unknown ∨ b = .unknown := by
  cases a <;> cases b <;> first | exact .inl rfl | exact .inr rfl | contradiction

theorem nonTarget_of_sup {a b : Kind} (met : a ⊔ b = .nonTarget) :
    a = .nonTarget ∨ b = .nonTarget := by
  cases a <;> cases b <;> first | exact .inl rfl | exact .inr rfl | contradiction

end Kind

namespace Value

theorem kind_merge (a b : Value) : (a.merge b).kind = a.kind ⊔ b.kind := by
  change _ = a.kind.join b.kind
  unfold merge Kind.join
  split
  · rfl
  split
  · rfl
  split
  · rfl
  split
  · rfl
  split
  · next both => rw [both.1, both.2]; rfl
  · rfl

end Value

/-! ### States seen through a view of values -/

variable {K : Type}

def seen (look : Value → K) : Option Value → WithBot K
  | none => ⊥
  | some v => look v

/-- What is seen of a state, location by location. -/
def State.view (look : Value → K) (s : State) (l : Location) : WithBot K := seen look (s.get? l)

abbrev State.kindAt (s : State) (l : Location) : WithBot Kind := s.view Value.kind l

theorem State.kindAt_of_get? {s : State} {l : Location} {v : Value} (found : s.get? l = some v) :
    s.kindAt l = (v.kind : WithBot Kind) := by
  change seen Value.kind (s.get? l) = _
  rw [found]
  rfl

def State.Each (good : Location → Value → Prop) (s : State) : Prop :=
  ∀ l v, s.get? l = some v → good l v

theorem State.get?_merge (s t : State) (l : Location) :
    (State.domain.merge s t).get? l =
      match s.get? l, t.get? l with
      | some a, some b => some (a.merge b)
      | some a, none => some a
      | none, other => other := by
  change (SortedMap.mergeWith Value.merge s t).get? l = _
  rw [SortedMap.get?_mergeWith]
  cases s.get? l <;> cases t.get? l <;> rfl

theorem State.Each.merge {good : Location → Value → Prop}
    (kept : ∀ l a b, good l a → good l b → good l (a.merge b)) {s t : State}
    (left : s.Each good) (right : t.Each good) : (State.domain.merge s t).Each good := by
  intro l v found
  rw [State.get?_merge] at found
  cases foundLeft : s.get? l with
  | none =>
      rw [foundLeft] at found
      exact right l v found
  | some a =>
      cases foundRight : t.get? l with
      | none =>
          rw [foundLeft, foundRight, Option.some.injEq] at found
          exact found ▸ left l a foundLeft
      | some b =>
          rw [foundLeft, foundRight, Option.some.injEq] at found
          exact found ▸ kept l a b (left l a foundLeft) (right l b foundRight)

theorem State.view_merge [SemilatticeSup K] {look : Value → K} {good : Location → Value → Prop}
    (sup : ∀ l a b, good l a → good l b → look (a.merge b) = look a ⊔ look b) {s t : State}
    (left : s.Each good) (right : t.Each good) :
    (State.domain.merge s t).view look = s.view look ⊔ t.view look := by
  funext l
  change seen look ((State.domain.merge s t).get? l) = seen look (s.get? l) ⊔ seen look (t.get? l)
  rw [State.get?_merge]
  cases foundLeft : s.get? l with
  | none => exact (bot_sup_eq _).symm
  | some a =>
      cases foundRight : t.get? l with
      | none => exact (sup_bot_eq _).symm
      | some b =>
          change ((look (a.merge b) : K) : WithBot K) = (look a : WithBot K) ⊔ (look b : WithBot K)
          rw [sup l a b (left l a foundLeft) (right l b foundRight), WithBot.coe_sup]

end PathCompletion
