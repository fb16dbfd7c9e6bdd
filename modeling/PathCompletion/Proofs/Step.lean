import PathCompletion.Dataflow.Fixpoint

/-!
Ways to speak of the runs of a step. `Ensures` says what holds of the result of every run
that ends well. `Gives` says that every run from a memory of a given kind ends well, with a
given result, and leaves a memory of that kind. `Leaves` says the last of runs that may fail,
and `Throws` with what errors they do; both pass from the parts of a step to the whole. `Leads`
says where runs that end well lead, result and memory together. `Alike` compares two runs, from
memories that are related but may differ.
-/

namespace PathCompletion.Step

variable {σ α β : Type}

theorem run_pure (a : α) (m : σ) : (pure a : Step σ α).run m = (.ok a, m) := rfl

theorem run_throw (e : AnalysisError) (m : σ) : (throw e : Step σ α).run m = (.error e, m) := rfl

theorem run_get (m : σ) : (get : Step σ σ).run m = (.ok m, m) := rfl

theorem run_modify (f : σ → σ) (m : σ) : (modify f : Step σ PUnit).run m = (.ok ⟨⟩, f m) := rfl

theorem run_modifyGet (f : σ → α × σ) (m : σ) :
    (modifyGet f : Step σ α).run m = (.ok (f m).1, (f m).2) := rfl

theorem run_bind (x : Step σ α) (f : α → Step σ β) (m : σ) :
    (x >>= f).run m = match x.run m with
      | (.ok a, between) => (f a).run between
      | (.error e, between) => (.error e, between) := by
  change ((x.run >>= ExceptT.bindCont f : StateM σ (Except AnalysisError β)) m) = _
  change (ExceptT.bindCont f (x.run m).1 : StateM σ (Except AnalysisError β)) (x.run m).2 = _
  rcases x.run m with ⟨e | a, between⟩ <;> rfl

theorem run_bind_of_ok {x : Step σ α} {f : α → Step σ β} {m between : σ} {a : α}
    (first : x.run m = (.ok a, between)) : (x >>= f).run m = (f a).run between := by
  rw [run_bind, first]

theorem run_bind_of_error {x : Step σ α} {f : α → Step σ β} {m between : σ} {e : AnalysisError}
    (first : x.run m = (.error e, between)) : (x >>= f).run m = (.error e, between) := by
  rw [run_bind, first]

theorem run_bind_ok {x : Step σ α} {f : α → Step σ β} {m after : σ} {b : β}
    (ran : (x >>= f).run m = (.ok b, after)) :
    ∃ a between, x.run m = (.ok a, between) ∧ (f a).run between = (.ok b, after) := by
  rw [run_bind] at ran
  split at ran
  · next a between first => exact ⟨a, between, first, ran⟩
  · cases ran

/-! ### What good ends ensure -/

def Ensures (x : Step σ α) (holds : α → Prop) : Prop :=
  ∀ m a after, x.run m = (.ok a, after) → holds a

namespace Ensures

theorem pure {a : α} {holds : α → Prop} (now : holds a) : Ensures (pure a : Step σ α) holds := by
  intro m b after ran
  rw [run_pure] at ran
  cases ran
  exact now

theorem throw {e : AnalysisError} {holds : α → Prop} :
    Ensures (throw e : Step σ α) holds := by
  intro m b after ran
  rw [run_throw] at ran
  cases ran

theorem bind {x : Step σ α} {f : α → Step σ β} {first : α → Prop} {holds : β → Prop}
    (left : Ensures x first) (right : ∀ a, first a → Ensures (f a) holds) :
    Ensures (x >>= f) holds := by
  intro m b after ran
  obtain ⟨a, between, ranFirst, ranRest⟩ := run_bind_ok ran
  exact right a (left m a between ranFirst) between b after ranRest

theorem after {x : Step σ α} {f : α → Step σ β} {holds : β → Prop}
    (right : ∀ a, Ensures (f a) holds) : Ensures (x >>= f) holds :=
  fun _ b after ran =>
    have ⟨a, between, _, ranRest⟩ := run_bind_ok ran
    right a between b after ranRest

theorem after_pure {a : α} {f : α → Step σ β} {holds : β → Prop} (right : Ensures (f a) holds) :
    Ensures (Pure.pure a >>= f) holds := by
  refine bind (pure rfl : Ensures (Pure.pure a : Step σ α) (· = a)) ?_
  rintro _ rfl
  exact right

theorem after_throw {e : AnalysisError} {f : α → Step σ β} {holds : β → Prop} :
    Ensures ((MonadExcept.throw e : Step σ α) >>= f) holds := by
  intro m b after ran
  obtain ⟨a, between, thrown, -⟩ := run_bind_ok ran
  cases thrown

theorem mono {x : Step σ α} {strong weak : α → Prop} (ensures : Ensures x strong)
    (weaker : ∀ a, strong a → weak a) : Ensures x weak :=
  fun m a after ran => weaker a (ensures m a after ran)

theorem foldlM {f : β → α → Step σ β} {holds : β → Prop} (items : List α)
    (kept : ∀ b, holds b → ∀ a ∈ items, Ensures (f b a) holds) {b : β} (start : holds b) :
    Ensures (items.foldlM f b) holds := by
  induction items generalizing b with
  | nil => exact pure start
  | cons first rest ih =>
      rw [List.foldlM_cons]
      refine bind (kept b start first List.mem_cons_self) fun next now => ?_
      exact ih (fun b now a later => kept b now a (List.mem_cons_of_mem first later)) now

/-- What holds depends on the items that are done. -/
theorem foldlM_done {f : β → α → Step σ β} (holds : List α → β → Prop) (items : List α)
    (each : ∀ done a rest, items = done ++ a :: rest → ∀ b, holds done b →
      Ensures (f b a) (holds (done ++ [a]))) {b : β} (start : holds [] b) :
    Ensures (items.foldlM f b) (holds items) := by
  have all (rest done : List α) (split : items = done ++ rest) (b : β) (now : holds done b) :
      Ensures (rest.foldlM f b) (holds items) := by
    induction rest generalizing done b with
    | nil =>
        rw [split, List.append_nil]
        exact pure now
    | cons a rest ih =>
        rw [List.foldlM_cons]
        refine bind (each done a rest split b now) fun next nowNext => ?_
        exact ih (done ++ [a]) (by simp [split]) next nowNext
  exact all items [] rfl b start

end Ensures

/-! ### Runs that must end well -/

/-- From a memory of this kind, every run gives `a` and leaves a memory of this kind. -/
def Gives (kind : σ → Prop) (x : Step σ α) (a : α) : Prop :=
  ∀ m, kind m → ∃ after, x.run m = (.ok a, after) ∧ kind after

namespace Gives

variable {kind : σ → Prop}

theorem pure (a : α) : Gives kind (pure a : Step σ α) a :=
  fun m now => ⟨m, run_pure a m, now⟩

theorem bind {x : Step σ α} {f : α → Step σ β} {a : α} {b : β} (left : Gives kind x a)
    (right : Gives kind (f a) b) : Gives kind (x >>= f) b := by
  intro m now
  obtain ⟨between, ranFirst, kindFirst⟩ := left m now
  obtain ⟨after, ranRest, kindRest⟩ := right between kindFirst
  exact ⟨after, (run_bind_of_ok ranFirst).trans ranRest, kindRest⟩

theorem modify {f : σ → σ} (kept : ∀ m, kind m → kind (f m)) :
    Gives kind (modify f : Step σ PUnit) ⟨⟩ :=
  fun m now => ⟨f m, run_modify f m, kept m now⟩

theorem foldlM {f : β → α → Step σ β} {g : β → α → β} (items : List α)
    (each : ∀ b, ∀ a ∈ items, Gives kind (f b a) (g b a)) (b : β) :
    Gives kind (items.foldlM f b) (items.foldl g b) := by
  induction items generalizing b with
  | nil => exact pure b
  | cons first rest ih =>
      rw [List.foldlM_cons, List.foldl_cons]
      apply bind (each b first List.mem_cons_self)
      exact ih (fun b a later => each b a (List.mem_cons_of_mem first later)) (g b first)

end Gives

/-! ### Steps put together -/

structure Composes (holds : ∀ α : Type, Step σ α → Prop) : Prop where
  pure : ∀ {α : Type} (a : α), holds α (pure a)
  get : holds σ get
  bind : ∀ {α β : Type} {x : Step σ α} {f : α → Step σ β}, holds α x → (∀ a, holds β (f a)) →
    holds β (x >>= f)

theorem Composes.foldlM {holds : ∀ α : Type, Step σ α → Prop} (composes : Composes holds)
    {f : β → α → Step σ β} (items : List α) (each : ∀ b, ∀ a ∈ items, holds β (f b a)) (b : β) :
    holds β (items.foldlM f b) := by
  induction items generalizing b with
  | nil => exact composes.pure b
  | cons first rest ih =>
      rw [List.foldlM_cons]
      apply composes.bind (each b first List.mem_cons_self)
      exact ih fun b a later => each b a (List.mem_cons_of_mem first later)

/-! ### What all runs leave -/

def Leaves (kind : σ → Prop) (x : Step σ α) : Prop := ∀ m, kind m → kind (x.run m).2

namespace Leaves

variable {kind : σ → Prop}

theorem pure (a : α) : Leaves kind (pure a : Step σ α) := fun _ now => now

theorem throw (e : AnalysisError) : Leaves kind (throw e : Step σ α) := fun _ now => now

theorem get : Leaves kind (get : Step σ σ) := fun _ now => now

theorem modify {f : σ → σ} (kept : ∀ m, kind m → kind (f m)) :
    Leaves kind (modify f : Step σ PUnit) := kept

theorem bind {x : Step σ α} {f : α → Step σ β} (left : Leaves kind x)
    (right : ∀ a, Leaves kind (f a)) : Leaves kind (x >>= f) := by
  intro m now
  have between := left m now
  rw [run_bind]
  rcases ran : x.run m with ⟨error | a, rest⟩
  · rwa [ran] at between
  · rw [ran] at between
    exact right a rest between

theorem get_bind {f : σ → Step σ α} (right : ∀ m, kind m → Leaves kind (f m)) :
    Leaves kind (MonadState.get >>= f) := by
  intro m now
  rw [run_bind_of_ok (run_get m)]
  exact right m now m now

theorem composes (kind : σ → Prop) : Composes fun _ => Leaves kind := ⟨pure, get, bind⟩

theorem foldlM {f : β → α → Step σ β} (items : List α)
    (each : ∀ b, ∀ a ∈ items, Leaves kind (f b a)) (b : β) : Leaves kind (items.foldlM f b) :=
  (composes kind).foldlM items each b

end Leaves

/-! ### Where runs that end well lead -/

def Leads (first : σ → Prop) (x : Step σ α) (last : α → σ → Prop) : Prop :=
  ∀ m a after, first m → x.run m = (.ok a, after) → last a after

namespace Leads

variable {first : σ → Prop} {last : β → σ → Prop}

theorem pure {last : α → σ → Prop} {a : α} (now : ∀ m, first m → last a m) :
    Leads first (pure a : Step σ α) last := by
  intro m b after start ran
  rw [run_pure] at ran
  cases ran
  exact now m start

/-- What held before holds still. -/
theorem keep (a : α) : Leads first (Pure.pure a : Step σ α) fun _ => first :=
  pure fun _ now => now

theorem modify {f : σ → σ} {last : σ → Prop} (now : ∀ m, first m → last (f m)) :
    Leads first (modify f : Step σ PUnit) fun _ => last := by
  intro m a after start ran
  rw [run_modify] at ran
  cases ran
  exact now m start

theorem bind {x : Step σ α} {f : α → Step σ β} {between : α → σ → Prop}
    (left : Leads first x between) (right : ∀ a, Leads (between a) (f a) last) :
    Leads first (x >>= f) last := by
  intro m b after start ran
  obtain ⟨a, middle, ranFirst, ranRest⟩ := run_bind_ok ran
  exact right a middle b after (left m a middle start ranFirst) ranRest

theorem of_leaves {kind : σ → Prop} {x : Step σ α} {holds : α → Prop} (leaves : Leaves kind x)
    (ensures : Ensures x holds) : Leads kind x fun a m => holds a ∧ kind m := by
  intro m a after now ran
  have left := leaves m now
  rw [ran] at left
  exact ⟨ensures m a after ran, left⟩

theorem foldlM {f : β → α → Step σ β} (items : List α)
    (each : ∀ b, ∀ a ∈ items, Leads (last b) (f b a) last) (b : β) :
    Leads (last b) (items.foldlM f b) last := by
  induction items generalizing b with
  | nil => exact pure fun _ now => now
  | cons first rest ih =>
      rw [List.foldlM_cons]
      refine bind (each b first List.mem_cons_self) fun next => ?_
      exact ih (fun b a later => each b a (List.mem_cons_of_mem first later)) next

end Leads

/-! ### How runs fail -/

def Throws (kind : AnalysisError → Prop) (x : Step σ α) : Prop :=
  ∀ m e after, x.run m = (.error e, after) → kind e

namespace Throws

variable {kind : AnalysisError → Prop}

theorem pure (a : α) : Throws kind (pure a : Step σ α) := by
  intro m e after ran
  rw [run_pure] at ran
  cases ran

theorem throw {e : AnalysisError} (now : kind e) : Throws kind (throw e : Step σ α) := by
  intro m other after ran
  rw [run_throw] at ran
  cases ran
  exact now

theorem get : Throws kind (get : Step σ σ) := by
  intro m e after ran
  rw [run_get] at ran
  cases ran

theorem modifyGet (f : σ → α × σ) : Throws kind (modifyGet f : Step σ α) := by
  intro m e after ran
  rw [run_modifyGet] at ran
  cases ran

theorem modify (f : σ → σ) : Throws kind (modify f : Step σ PUnit) := modifyGet _

theorem bind {x : Step σ α} {f : α → Step σ β} (left : Throws kind x)
    (right : ∀ a, Throws kind (f a)) : Throws kind (x >>= f) := by
  intro m e after ran
  rw [run_bind] at ran
  split at ran
  · next a between _ => exact right a between e after ran
  · next first =>
    cases ran
    exact left m e after first

theorem composes (kind : AnalysisError → Prop) : Composes fun α (x : Step σ α) => Throws kind x :=
  ⟨pure, get, bind⟩

end Throws

/-! ### Two runs -/

/-- Runs from memories that are related at first end alike, and those that end well leave
memories that are related at last. -/
def Alike (first last : σ → σ → Prop) (x : Step σ α) : Prop :=
  ∀ m n, first m n → (x.run m).1 = (x.run n).1 ∧
    ∀ a, (x.run m).1 = .ok a → last (x.run m).2 (x.run n).2

namespace Alike

variable {first between last : σ → σ → Prop}

theorem pure (a : α) : Alike first first (pure a : Step σ α) :=
  fun _ _ related => ⟨rfl, fun _ _ => related⟩

theorem throw (e : AnalysisError) : Alike first last (throw e : Step σ α) :=
  fun _ _ _ => ⟨rfl, fun _ ended => nomatch ended⟩

theorem modify {f : σ → σ} (kept : ∀ m n, first m n → last (f m) (f n)) :
    Alike first last (modify f : Step σ PUnit) :=
  fun m n related => ⟨rfl, fun _ _ => kept m n related⟩

theorem bind {x : Step σ α} {f : α → Step σ β} (left : Alike first between x)
    (right : ∀ a, Alike between last (f a)) : Alike first last (x >>= f) := by
  intro m n related
  obtain ⟨same, relatedNext⟩ := left m n related
  rw [run_bind, run_bind]
  rcases ranFirst : x.run m with ⟨error | a, m'⟩
  · rw [ranFirst] at same
    rcases ranSecond : x.run n with ⟨other | b, n'⟩
    · rw [ranSecond] at same
      exact ⟨congrArg Except.error (Except.error.inj same), fun _ ended => nomatch ended⟩
    · rw [ranSecond] at same
      cases same
  · rw [ranFirst] at same relatedNext
    rcases ranSecond : x.run n with ⟨other | b, n'⟩
    · rw [ranSecond] at same
      cases same
    · rw [ranSecond] at same relatedNext
      cases same
      exact right a m' n' (relatedNext a rfl)

/-- What is looked up matters only where the memories agree. -/
theorem get_bind {f : σ → Step σ α} (same : ∀ m n, first m n → f m = f n)
    (rest : ∀ m, Alike first last (f m)) : Alike first last (get >>= f) := by
  intro m n related
  rw [run_bind_of_ok (run_get m), run_bind_of_ok (run_get n), same m n related]
  exact rest n m n related

theorem and_leaves {x : Step σ α} {kind : σ → Prop} (alike : Alike first last x)
    (leaves : Leaves kind x) :
    Alike (fun m n => first m n ∧ kind m ∧ kind n) (fun m n => last m n ∧ kind m ∧ kind n) x := by
  rintro m n ⟨related, here, there⟩
  obtain ⟨same, relatedNext⟩ := alike m n related
  exact ⟨same, fun a ended => ⟨relatedNext a ended, leaves m here, leaves n there⟩⟩

end Alike

end PathCompletion.Step
