import Mathlib.Data.List.Induction
import Mathlib.Logic.Relation
import PathCompletion.Dataflow.Cancellation

/-!
Histories of cancellation tokens. A host makes tokens, children of tokens and copies of tokens,
and cancels some of them. Whatever it does and in whatever order, a token is cancelled exactly if
some token was that shares its flag, or the flag of one of its ancestors: a flag is one number for
all copies, and an ancestor's number is smaller than that of any token under it.
-/

namespace PathCompletion.Cancellation

/-! ### Histories -/

/-- What a host does with tokens. It names a token by the number of tokens made before it. -/
inductive Act where
  | fresh
  | child (parent : Nat)
  | copy (original : Nat)
  | cancel (token : Nat)
  deriving DecidableEq

def Act.makes : Act → Bool
  | .fresh | .child _ | .copy _ => true
  | .cancel _ => false

structure Host where
  flags : Cancellation := {}
  tokens : List Token := []

namespace Host

def add (host : Host) (made : Token × Cancellation) : Host :=
  ⟨made.2, host.tokens ++ [made.1]⟩

def act? (host : Host) : Act → Option Host
  | .fresh => some (host.add host.flags.fresh)
  | .child parent => host.tokens[parent]?.map fun token => host.add (host.flags.child token)
  | .copy original => host.tokens[original]?.map fun token => host.add (token, host.flags)
  | .cancel number =>
      host.tokens[number]?.map fun token => { host with flags := host.flags.cancel token }

def serve? (history : List Act) : Option Host := history.foldlM act? {}

def isCancelled (host : Host) (t : Nat) : Bool := host.tokens[t]?.any host.flags.isCancelled

end Host

/-! ### Kinship -/

def maker? (history : List Act) (t : Nat) : Option Act := (history.filter Act.makes)[t]?

def CopyOf (history : List Act) (t original : Nat) : Prop :=
  maker? history t = some (.copy original)

def ChildOf (history : List Act) (t parent : Nat) : Prop :=
  maker? history t = some (.child parent)

instance (history : List Act) (t original : Nat) : Decidable (CopyOf history t original) :=
  inferInstanceAs (Decidable (_ = _))

instance (history : List Act) (t parent : Nat) : Decidable (ChildOf history t parent) :=
  inferInstanceAs (Decidable (_ = _))

def SharesFlag (history : List Act) : Nat → Nat → Prop := Relation.EqvGen (CopyOf history)

/-- The one token listens to the other: that one shares its flag, or the flag of an ancestor. -/
inductive Heeds (history : List Act) : Nat → Nat → Prop where
  | own {t u : Nat} (shared : SharesFlag history t u) : Heeds history t u
  | ancestor {t child parent u : Nat} (shared : SharesFlag history t child)
      (made : ChildOf history child parent) (above : Heeds history parent u) : Heeds history t u

/-! ### What a history leaves behind -/

variable {history : List Act} {host next : Host} {tokens : List Token} {act : Act} {t u : Nat}
  {token other : Token}

def Newest (tokens : List Token) (t own : Nat) : Prop :=
  ∀ (u : Nat) (token : Token), u < t → tokens[u]? = some token → token.own < own

def MadeBy (tokens : List Token) (t : Nat) : Act → Prop
  | .fresh => ∃ own, tokens[t]? = some ⟨own, []⟩ ∧ Newest tokens t own
  | .child parent => parent < t ∧ ∃ own token, tokens[parent]? = some token ∧
      tokens[t]? = some ⟨own, token.own :: token.ancestors⟩ ∧ Newest tokens t own
  | .copy original => original < t ∧ tokens[t]? = tokens[original]?
  | .cancel _ => False

/-- The tokens are those that the history makes, and the raised flags are those of the tokens that
it cancels. -/
structure Records (history : List Act) (host : Host) : Prop where
  length : host.tokens.length = (history.filter Act.makes).length
  made : ∀ t act, maker? history t = some act → MadeBy host.tokens t act
  below : ∀ (t : Nat) token, host.tokens[t]? = some token → token.own < host.flags.made
  named : ∀ u, .cancel u ∈ history → u < host.tokens.length
  raised : ∀ flag, flag ∈ host.flags.raised ↔
    ∃ (u : Nat) (token : Token),
      .cancel u ∈ history ∧ host.tokens[u]? = some token ∧ token.own = flag

/-! ### One act -/

theorem getElem?_concat_cases {α : Type} {l : List α} {a b : α} {i : Nat}
    (found : (l ++ [a])[i]? = some b) : l[i]? = some b ∨ i = l.length ∧ b = a := by
  rcases Nat.lt_trichotomy i l.length with inside | last | outside
  · rw [List.getElem?_append_left inside] at found
    exact .inl found
  · subst last
    rw [List.getElem?_concat_length, Option.some.injEq] at found
    exact .inr ⟨rfl, found.symm⟩
  · rw [List.getElem?_eq_none (by rw [List.length_append]; exact outside)] at found
    cases found

/-- What is said of a token depends only on the tokens up to it. -/
theorem MadeBy.append (made : MadeBy tokens t act) (inside : t < tokens.length)
    (more : List Token) : MadeBy (tokens ++ more) t act := by
  have same (u : Nat) (upTo : u ≤ t) : (tokens ++ more)[u]? = tokens[u]? :=
    List.getElem?_append_left (Nat.lt_of_le_of_lt upTo inside)
  have newest (own : Nat) (before : Newest tokens t own) : Newest (tokens ++ more) t own := by
    intro u token earlier found
    rw [same u (Nat.le_of_lt earlier)] at found
    exact before u token earlier found
  have here := same t (Nat.le_refl t)
  cases act with
  | fresh =>
      obtain ⟨own, found, before⟩ := made
      exact ⟨own, here.trans found, newest own before⟩
  | child parent =>
      obtain ⟨earlier, own, token, foundParent, found, before⟩ := made
      exact ⟨earlier, own, token, (same parent (Nat.le_of_lt earlier)).trans foundParent,
        here.trans found, newest own before⟩
  | copy original =>
      obtain ⟨earlier, found⟩ := made
      exact ⟨earlier, here.trans (found.trans (same original (Nat.le_of_lt earlier)).symm)⟩
  | cancel number => exact made

/-- A token is made, and no flag raised. -/
theorem Records.add (records : Records history host) (makes : act.makes = true)
    {made : Token × Cancellation} (asMade : MadeBy (host.tokens ++ [made.1]) host.tokens.length act)
    (below : made.1.own < made.2.made) (older : host.flags.made ≤ made.2.made)
    (raised : made.2.raised = host.flags.raised) :
    Records (history ++ [act]) (host.add made) := by
  have makers : (history ++ [act]).filter Act.makes = history.filter Act.makes ++ [act] := by
    rw [List.filter_append, List.filter_cons_of_pos makes, List.filter_nil]
  have cancels (u : Nat) : .cancel u ∈ history ++ [act] ↔ .cancel u ∈ history := by
    cases act <;> simp_all [Act.makes]
  constructor
  · rw [makers]
    simp [Host.add, records.length]
  · intro t maker found
    rw [maker?, makers] at found
    rcases getElem?_concat_cases found with before | ⟨last, rfl⟩
    · exact (records.made t maker before).append
        (records.length ▸ (List.getElem?_eq_some_iff.mp before).1) [made.1]
    · rw [last, ← records.length]
      exact asMade
  · intro t token found
    rcases getElem?_concat_cases found with before | ⟨-, rfl⟩
    · exact Nat.lt_of_lt_of_le (records.below t token before) older
    · exact below
  · intro u member
    have inside := records.named u ((cancels u).mp member)
    exact Nat.lt_of_lt_of_le inside (by simp [Host.add])
  · intro flag
    change flag ∈ made.2.raised ↔ _
    rw [raised, records.raised]
    refine exists_congr fun u => exists_congr fun token => ?_
    rw [cancels]
    refine and_congr_right fun member => ?_
    rw [show (host.add made).tokens[u]? = host.tokens[u]? from
      List.getElem?_append_left (records.named u member)]

/-- No token is made, and the flag of one is raised. -/
theorem Records.cancel (records : Records history host) (found : host.tokens[u]? = some token) :
    Records (history ++ [.cancel u]) { host with flags := host.flags.cancel token } := by
  have makers : (history ++ [Act.cancel u]).filter Act.makes = history.filter Act.makes := by
    simp [Act.makes]
  constructor
  · rw [makers]
    exact records.length
  · intro t maker
    rw [maker?, makers]
    exact records.made t maker
  · exact records.below
  · intro v member
    rcases List.mem_append.mp member with before | last
    · exact records.named v before
    · cases List.mem_singleton.mp last
      exact (List.getElem?_eq_some_iff.mp found).1
  · intro flag
    change flag ∈ host.flags.raised.insert token.own ↔ _
    rw [SortedSet.mem_insert, records.raised]
    constructor
    · rintro (rfl | ⟨v, other, member, here⟩)
      · exact ⟨u, token, by simp, found, rfl⟩
      · exact ⟨v, other, List.mem_append_left _ member, here⟩
    · rintro ⟨v, other, member, here, rfl⟩
      rcases List.mem_append.mp member with before | last
      · exact .inr ⟨v, other, before, here, rfl⟩
      · cases List.mem_singleton.mp last
        rw [found, Option.some.injEq] at here
        exact .inl (congrArg Token.own here.symm)

theorem Records.step (records : Records history host) (served : host.act? act = some next) :
    Records (history ++ [act]) next := by
  -- A new flag is newer than all that came before it.
  have newest (more : List Token) :
      Newest (host.tokens ++ more) host.tokens.length host.flags.made := by
    intro u token inside found
    rw [List.getElem?_append_left inside] at found
    exact records.below u token found
  cases act with
  | fresh =>
      cases served
      refine records.add rfl ⟨host.flags.made, ?_, newest _⟩ (Nat.lt_succ_self _) (Nat.le_succ _)
        rfl
      exact List.getElem?_concat_length
  | child parent =>
      obtain ⟨token, found, rfl⟩ := Option.map_eq_some_iff.mp served
      have inside := (List.getElem?_eq_some_iff.mp found).1
      refine records.add rfl ⟨inside, host.flags.made, token, ?_, ?_, newest _⟩
        (Nat.lt_succ_self _) (Nat.le_succ _) rfl
      · exact (List.getElem?_append_left inside).trans found
      · exact List.getElem?_concat_length
  | copy original =>
      obtain ⟨token, found, rfl⟩ := Option.map_eq_some_iff.mp served
      have inside := (List.getElem?_eq_some_iff.mp found).1
      refine records.add rfl ⟨inside, ?_⟩ (records.below original token found) (Nat.le_refl _) rfl
      rw [List.getElem?_concat_length, List.getElem?_append_left inside, found]
  | cancel number =>
      obtain ⟨token, found, rfl⟩ := Option.map_eq_some_iff.mp served
      exact records.cancel found

/-! ### Whole histories -/

theorem records_of_serve (served : Host.serve? history = some host) : Records history host := by
  induction history using List.reverseRecOn generalizing host with
  | nil =>
      cases served
      exact ⟨rfl, nofun, nofun, nofun, by simp⟩
  | append_singleton earlier act ih =>
      rw [Host.serve?, List.foldlM_append] at served
      obtain ⟨before, servedEarlier, last⟩ := Option.bind_eq_some_iff.mp served
      rw [List.foldlM_cons] at last
      obtain ⟨after, servedLast, same⟩ := Option.bind_eq_some_iff.mp last
      cases same
      exact (ih servedEarlier).step servedLast

/-! ### Flags and kinship -/

namespace Records

variable (records : Records history host)

include records

/-- A token in the list was made by some act. -/
theorem exists_maker (found : host.tokens[t]? = some token) :
    ∃ act, maker? history t = some act := by
  have inside := (List.getElem?_eq_some_iff.mp found).1
  rw [records.length] at inside
  exact ⟨_, List.getElem?_eq_getElem inside⟩

theorem getElem?_of_shares (shared : SharesFlag history t u) :
    host.tokens[t]? = host.tokens[u]? := by
  induction shared with
  | rel t u copied => exact (records.made t _ copied).2
  | refl t => rfl
  | symm t u _ ih => exact ih.symm
  | trans t u v _ _ first second => exact first.trans second

/-- Every token is a copy of one that is none, or none itself. -/
theorem exists_original (found : host.tokens[t]? = some token) :
    ∃ u ≤ t, SharesFlag history t u ∧ host.tokens[u]? = some token ∧
      ∃ act, maker? history u = some act ∧ ∀ original, act ≠ .copy original := by
  induction t using Nat.strongRecOn with
  | ind t ih =>
    obtain ⟨act, maker⟩ := records.exists_maker found
    cases act with
    | copy original =>
        obtain ⟨earlier, same⟩ := records.made t _ maker
        obtain ⟨u, before, shared, rest⟩ := ih original earlier (same.symm.trans found)
        exact ⟨u, Nat.le_trans before (Nat.le_of_lt earlier),
          .trans _ _ _ (.rel _ _ maker) shared, rest⟩
    | fresh => exact ⟨t, Nat.le_refl t, .refl t, found, .fresh, maker, nofun⟩
    | child parent => exact ⟨t, Nat.le_refl t, .refl t, found, .child parent, maker, nofun⟩
    | cancel number => exact (records.made t _ maker).elim

/-- A token that is no copy has a flag newer than all before it. -/
theorem newest {act : Act} (maker : maker? history t = some act)
    (original : ∀ u, act ≠ .copy u) (found : host.tokens[t]? = some token) :
    Newest host.tokens t token.own := by
  have made := records.made t act maker
  cases act with
  | fresh =>
      obtain ⟨own, here, before⟩ := made
      cases found.symm.trans here
      exact before
  | child parent =>
      obtain ⟨-, own, above, -, here, before⟩ := made
      cases found.symm.trans here
      exact before
  | copy u => exact absurd rfl (original u)
  | cancel number => exact made.elim

/-- Tokens that are no copies have different flags. -/
theorem original_unique {act act' : Act} (maker : maker? history t = some act)
    (original : ∀ u, act ≠ .copy u) (maker' : maker? history u = some act')
    (original' : ∀ u, act' ≠ .copy u) (found : host.tokens[t]? = some token)
    (found' : host.tokens[u]? = some other) (same : token.own = other.own) : t = u := by
  rcases Nat.lt_trichotomy t u with earlier | rfl | later
  · have := records.newest maker' original' found' t token earlier found
    omega
  · rfl
  · have := records.newest maker original found u other later found'
    omega

theorem shares_iff (found : host.tokens[t]? = some token) (found' : host.tokens[u]? = some other) :
    SharesFlag history t u ↔ token.own = other.own := by
  constructor
  · intro shared
    have same := records.getElem?_of_shares shared
    rw [found, found', Option.some.injEq] at same
    rw [same]
  · intro same
    obtain ⟨r, -, sharesR, foundR, act, maker, original⟩ := records.exists_original found
    obtain ⟨r', -, sharesR', foundR', act', maker', original'⟩ := records.exists_original found'
    cases records.original_unique maker original maker' original' foundR foundR' same
    exact .trans _ _ _ sharesR (.symm _ _ sharesR')

/-- The flags of ancestors are older. -/
theorem ancestors_older (found : host.tokens[t]? = some token) :
    ∀ flag ∈ token.ancestors, flag < token.own := by
  induction t using Nat.strongRecOn generalizing token with
  | ind t ih =>
    obtain ⟨act, maker⟩ := records.exists_maker found
    have made := records.made t act maker
    cases act with
    | fresh =>
        obtain ⟨own, here, -⟩ := made
        cases found.symm.trans here
        nofun
    | child parent =>
        obtain ⟨earlier, own, above, foundParent, here, before⟩ := made
        cases found.symm.trans here
        have newer := before parent above earlier foundParent
        intro flag member
        rcases List.mem_cons.mp member with rfl | higher
        · exact newer
        · exact Nat.lt_trans (ih parent earlier foundParent flag higher) newer
    | copy original =>
        obtain ⟨earlier, same⟩ := made
        exact ih original earlier (same.symm.trans found)
    | cancel number => exact made.elim

/-- A token listens to the tokens whose flags it has, as its own or as an ancestor's. -/
theorem heeds_iff (found : host.tokens[t]? = some token)
    (found' : host.tokens[u]? = some other) :
    Heeds history t u ↔ other.own ∈ token.own :: token.ancestors := by
  constructor
  · intro heeds
    induction heeds generalizing token with
    | own shared => simp [(records.shares_iff found found').mp shared]
    | @ancestor t child parent u shared made _ ih =>
        obtain ⟨-, own, above, foundParent, here, -⟩ := records.made child _ made
        cases found.symm.trans ((records.getElem?_of_shares shared).trans here)
        exact List.mem_cons_of_mem own (ih foundParent found')
  · intro member
    -- A child has the flags of its parent besides its own, and the parent was made earlier.
    induction t using Nat.strongRecOn generalizing token with
    | ind t ih =>
      rcases List.mem_cons.mp member with same | higher
      · exact .own ((records.shares_iff found found').mpr same.symm)
      · obtain ⟨r, upTo, shared, foundR, act, maker, original⟩ := records.exists_original found
        have made := records.made r act maker
        cases act with
        | fresh =>
            obtain ⟨own, here, -⟩ := made
            cases foundR.symm.trans here
            cases higher
        | child parent =>
            obtain ⟨earlier, own, above, foundParent, here, -⟩ := made
            cases foundR.symm.trans here
            exact .ancestor shared maker
              (ih parent (Nat.lt_of_lt_of_le earlier upTo) foundParent higher)
        | copy original' => exact absurd rfl (original original')
        | cancel number => exact made.elim

theorem isCancelled_iff (inside : t < host.tokens.length) :
    host.isCancelled t = true ↔ ∃ u, .cancel u ∈ history ∧ Heeds history t u := by
  have found := List.getElem?_eq_getElem inside
  rw [Host.isCancelled, found, Option.any_some, isCancelled, List.any_eq_true]
  constructor
  · rintro ⟨flag, member, raised⟩
    obtain ⟨u, other, cancelled, found', rfl⟩ :=
      (records.raised flag).mp (SortedSet.contains_iff.mp raised)
    exact ⟨u, cancelled, (records.heeds_iff found found').mpr member⟩
  · rintro ⟨u, cancelled, heeds⟩
    have found' := List.getElem?_eq_getElem (records.named u cancelled)
    refine ⟨_, (records.heeds_iff found found').mp heeds, ?_⟩
    exact SortedSet.contains_iff.mpr ((records.raised _).mpr ⟨u, _, cancelled, found', rfl⟩)

/-- A token does not listen to one whose flag is newer than its own. -/
theorem not_heeds_of_older (found : host.tokens[t]? = some token)
    (found' : host.tokens[u]? = some other) (older : token.own < other.own) :
    ¬ Heeds history t u := by
  intro heeds
  rcases List.mem_cons.mp ((records.heeds_iff found found').mp heeds) with same | higher
  · omega
  · have := records.ancestors_older found _ higher
    omega

theorem not_heeds_child {parent : Nat} (child : ChildOf history t parent) :
    ¬ Heeds history parent t := by
  obtain ⟨earlier, own, token, foundParent, found, newest⟩ := records.made t _ child
  exact records.not_heeds_of_older foundParent found (newest parent token earlier foundParent)

theorem not_heeds_sibling {parent original : Nat} (child : ChildOf history t parent)
    (shared : SharesFlag history parent original) (sibling : ChildOf history u original)
    (different : u ≠ t) : ¬ Heeds history u t := by
  intro heeds
  obtain ⟨-, own, token, foundParent, found, -⟩ := records.made t _ child
  obtain ⟨-, own', token', foundOriginal, found', -⟩ := records.made u _ sibling
  have same : token' = token := by
    rw [records.getElem?_of_shares shared, foundOriginal, Option.some.injEq] at foundParent
    exact foundParent
  subst same
  rcases List.mem_cons.mp ((records.heeds_iff found' found).mp heeds) with flags | higher
  · exact different (records.original_unique sibling nofun child nofun found' found flags.symm)
  · exact records.not_heeds_child child ((records.heeds_iff foundParent found).mpr higher)

end Records

/-! ### Longer histories -/

theorem Heeds.mono {longer : List Act}
    (kept : ∀ t act, maker? history t = some act → maker? longer t = some act)
    (heeds : Heeds history t u) : Heeds longer t u := by
  have shares {a b : Nat} (shared : SharesFlag history a b) : SharesFlag longer a b :=
    Relation.EqvGen.mono (fun t u => kept t (.copy u)) a b shared
  induction heeds with
  | own shared => exact .own (shares shared)
  | ancestor shared made _ ih => exact .ancestor (shares shared) (kept _ _ made) ih

theorem Heeds.trans {v : Nat} (first : Heeds history t u) (second : Heeds history u v) :
    Heeds history t v := by
  induction first with
  | own shared =>
      cases second with
      | own further => exact .own (.trans _ _ _ shared further)
      | ancestor further made above => exact .ancestor (.trans _ _ _ shared further) made above
  | ancestor shared made _ ih => exact .ancestor shared made (ih second)

theorem maker?_append (found : maker? history t = some act) (more : List Act) :
    maker? (history ++ more) t = some act := by
  rw [maker?, List.filter_append]
  exact (List.getElem?_append_left (List.getElem?_eq_some_iff.mp found).1).trans found

theorem maker?_append_cancel (history : List Act) (t number : Nat) :
    maker? (history ++ [.cancel number]) t = maker? history t := by
  simp [maker?, Act.makes]

/-- After any history a token is cancelled exactly if one was cancelled in it to which the token
listens. One more cancellation so changes the tokens that listen to the one it names, and these
are neither its parent nor other children of its parent. A token that is cancelled stays so,
whatever else is done, and so do all that listen to it, those made later included. -/
theorem cancelled_iff_heeded_was (served : Host.serve? history = some host)
    (made : t < host.tokens.length) :
    (host.isCancelled t = true ↔ ∃ u, .cancel u ∈ history ∧ Heeds history t u) ∧
    (∀ u next, host.act? (.cancel u) = some next →
      (next.isCancelled t = true ↔ host.isCancelled t = true ∨ Heeds history t u)) ∧
    (∀ parent, ChildOf history t parent → ¬ Heeds history parent t ∧
      ∀ sibling original, sibling ≠ t → SharesFlag history parent original →
        ChildOf history sibling original → ¬ Heeds history sibling t) ∧
    (host.isCancelled t = true → ∀ more later v, Host.serve? (history ++ more) = some later →
      v < later.tokens.length → Heeds (history ++ more) v t → later.isCancelled v = true) := by
  have records := records_of_serve served
  have now := records.isCancelled_iff made
  refine ⟨now, fun u next servedNext => ?_, fun parent child => ?_, ?_⟩
  · have recordsNext := records.step servedNext
    have madeNext : t < next.tokens.length := by
      obtain ⟨token, -, rfl⟩ := Option.map_eq_some_iff.mp servedNext
      exact made
    -- A cancellation makes no token, so nothing listens to more than before.
    have same (v : Nat) : Heeds (history ++ [.cancel u]) t v ↔ Heeds history t v :=
      ⟨Heeds.mono fun t _ => (maker?_append_cancel history t u) ▸ id,
        Heeds.mono fun t _ => (maker?_append_cancel history t u).symm ▸ id⟩
    rw [recordsNext.isCancelled_iff madeNext, now]
    simp only [same, List.mem_append, List.mem_singleton, Act.cancel.injEq]
    constructor
    · rintro ⟨v, before | rfl, heeds⟩
      · exact .inl ⟨v, before, heeds⟩
      · exact .inr heeds
    · rintro (⟨v, before, heeds⟩ | heeds)
      · exact ⟨v, .inl before, heeds⟩
      · exact ⟨u, .inr rfl, heeds⟩
  · refine ⟨records.not_heeds_child child, fun sibling original different shared other => ?_⟩
    exact records.not_heeds_sibling child shared other different
  · intro cancelled more later v servedLater madeLater heeds
    obtain ⟨u, before, above⟩ := now.mp cancelled
    refine ((records_of_serve servedLater).isCancelled_iff madeLater).mpr
      ⟨u, List.mem_append_left more before, heeds.trans ?_⟩
    exact above.mono fun _ _ found => maker?_append found more

/-- A token with two children, of which the first is cancelled through a copy and then has a child
of its own. -/
def household : List Act := [.fresh, .child 0, .copy 1, .child 0, .cancel 2, .child 1]

theorem household_cancelled_iff_heeded_was :
    ∃ host, Host.serve? household = some host ∧ 4 < host.tokens.length ∧
      Heeds household 4 2 ∧ host.isCancelled 4 = true ∧
      ¬ Heeds household 0 1 ∧ host.isCancelled 0 = false ∧
      ¬ Heeds household 3 1 ∧ host.isCancelled 3 = false := by
  obtain ⟨host, served⟩ : ∃ host, Host.serve? household = some host :=
    Option.isSome_iff_exists.mp (by decide)
  have shape : (Host.serve? household).map (fun host => (host.tokens.length,
      host.isCancelled 0, host.isCancelled 3)) = some (5, false, false) := by decide
  simp only [served, Option.map_some, Option.some.injEq, Prod.mk.injEq] at shape
  obtain ⟨count, root, sibling⟩ := shape
  have child : ChildOf household 1 0 := by decide
  have heeds : Heeds household 4 2 :=
    .ancestor (.refl 4) (by decide : ChildOf household 4 1)
      (.own (.symm _ _ (.rel _ _ (by decide))))
  have grandchild := (cancelled_iff_heeded_was served (t := 4) (by omega)).1
  obtain ⟨-, -, apart, -⟩ := cancelled_iff_heeded_was served (t := 1) (by omega)
  refine ⟨host, served, by omega, heeds, grandchild.mpr ⟨2, by decide, heeds⟩, (apart 0 child).1,
    root, ?_, sibling⟩
  exact (apart 0 child).2 3 0 (by decide) (.refl 0) (by decide)

end PathCompletion.Cancellation
