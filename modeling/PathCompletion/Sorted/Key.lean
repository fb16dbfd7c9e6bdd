/-!
Types with a fixed linear order. The order is read off a list of numbers, compared
lexicographically, so that one theory of sorted containers serves sites, locations,
fields and edges alike.
-/

namespace PathCompletion

/-- A type whose elements are told apart, and ordered, by a list of numbers. -/
class Key (κ : Type) where
  key : κ → List Nat
  injective : ∀ a b, key a = key b → a = b

namespace Key

variable {κ : Type} [Key κ]

def Before (a b : κ) : Prop := key a < key b

instance (a b : κ) : Decidable (Before a b) :=
  inferInstanceAs (Decidable (key a < key b))

theorem key_eq_iff {a b : κ} : key a = key b ↔ a = b :=
  ⟨injective a b, fun same => same ▸ rfl⟩

theorem Before.irrefl (a : κ) : ¬ Before a a := List.lt_irrefl (key a)

theorem Before.trans {a b c : κ} (first : Before a b) (second : Before b c) : Before a c :=
  List.lt_trans first second

theorem Before.asymm {a b : κ} (first : Before a b) : ¬ Before b a :=
  fun second => Before.irrefl a (first.trans second)

theorem Before.ne {a b : κ} (first : Before a b) : a ≠ b :=
  fun same => Before.irrefl b (same ▸ first)

theorem eq_of_not_before {a b : κ} (left : ¬ Before a b) (right : ¬ Before b a) : a = b := by
  apply injective
  exact List.le_antisymm (List.not_lt.mp right) (List.not_lt.mp left)

theorem not_before_trans {a b c : κ} (first : ¬ Before b a) (second : ¬ Before c b) :
    ¬ Before c a :=
  List.not_lt.mpr (List.le_trans (List.not_lt.mp first) (List.not_lt.mp second))

theorem not_before_or (a b : κ) : ¬ Before b a ∨ ¬ Before a b := by
  by_cases later : Before b a
  · exact .inr later.asymm
  · exact .inl later

def order (a b : κ) : Ordering :=
  if Before a b then .lt else if Before b a then .gt else .eq

end Key

instance : Key Nat where
  key n := [n]
  injective _ _ same := List.head_eq_of_cons_eq same

/-- Texts are ordered by the numbers of their characters. -/
instance : Key String where
  key text := text.toList.map Char.toNat
  injective _ _ same :=
    String.toList_inj.mp ((List.map_inj_right fun _ _ => Char.toNat_inj.mp).mp same)

end PathCompletion
