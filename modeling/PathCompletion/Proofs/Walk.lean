import PathCompletion.Flow.Order

/-!
A depth-first walk with fuel enough for the nodes it can still meet leaves exactly what is
reachable from its start, each node once. For a graph that the analysis accepts, the fuel of
`reversePostorder` is enough, so the visiting order lists the reachable blocks.
-/

namespace PathCompletion

variable {α : Type}

theorem Reaches.induct {next : α → List α} {holds : α → Prop}
    (kept : ∀ x, holds x → ∀ y ∈ next x, holds y) {a b : α} (reaches : Reaches next a b)
    (start : holds a) : holds b := by
  induction reaches with
  | refl => exact start
  | step edge _ ih => exact ih (kept _ start _ edge)

theorem Reaches.trans {next : α → List α} {a b c : α} (first : Reaches next a b)
    (second : Reaches next b c) : Reaches next a c := by
  induction first with
  | refl => exact second
  | step edge _ ih => exact .step edge (ih second)

theorem Reaches.snoc {next : α → List α} {a b c : α} (reaches : Reaches next a b)
    (edge : c ∈ next b) : Reaches next a c :=
  reaches.trans (.step edge (.refl c))

namespace Walk

variable {next : α → List α}

/-- What a stretch of a walk does: it meets nodes, with all that follows them, and leaves
exactly the nodes it met, each once. -/
structure Grown (next : α → List α) (before after : Walk α) : Prop where
  met : ∀ x ∈ before.met, x ∈ after.met
  closed : ∀ x ∈ after.met, x ∉ before.met → ∀ y ∈ next x, y ∈ after.met
  left : ∃ fresh : List α, after.left = fresh ++ before.left ∧ fresh.Nodup ∧
    ∀ x, x ∈ fresh ↔ x ∈ after.met ∧ x ∉ before.met

theorem Grown.refl (w : Walk α) : Grown next w w :=
  ⟨fun _ member => member, fun _ member absent => absurd member absent,
    [], rfl, List.nodup_nil, fun x => by simp⟩

theorem Grown.trans {first second third : Walk α} (left : Grown next first second)
    (right : Grown next second third) : Grown next first third := by
  obtain ⟨early, leftEarly, nodupEarly, memEarly⟩ := left.left
  obtain ⟨late, leftLate, nodupLate, memLate⟩ := right.left
  refine ⟨fun x member => right.met x (left.met x member), ?_, late ++ early, ?_, ?_, ?_⟩
  · intro x member absent y edge
    by_cases between : x ∈ second.met
    · exact right.met y (left.closed x between absent y edge)
    · exact right.closed x member between y edge
  · rw [leftLate, leftEarly, List.append_assoc]
  · refine List.nodup_append.mpr ⟨nodupLate, nodupEarly, ?_⟩
    rintro x inLate _ inEarly rfl
    exact ((memLate x).mp inLate).2 ((memEarly x).mp inEarly).1
  · intro x
    rw [List.mem_append, memLate, memEarly]
    constructor
    · rintro (⟨member, absent⟩ | ⟨member, absent⟩)
      · exact ⟨member, fun old => absent (left.met x old)⟩
      · exact ⟨right.met x member, absent⟩
    · rintro ⟨member, absent⟩
      by_cases between : x ∈ second.met
      · exact .inr ⟨between, absent⟩
      · exact .inl ⟨member, between⟩

/-- Whatever the list has is where it starts, or follows something further to the front. -/
def Led (next : α → List α) (start : α → Prop) (list : List α) : Prop :=
  ∀ before x after, list = before ++ x :: after → start x ∨ ∃ y ∈ before, x ∈ next y

theorem Led.nil {start : α → Prop} : Led next start [] := by
  intro before x after split
  simp at split

theorem Led.append {start : α → Prop} {first second : List α} (left : Led next start first)
    (right : Led next start second) : Led next start (first ++ second) := by
  intro before x after split
  rcases List.append_eq_append_iff.mp split with ⟨between, rfl, rest⟩ | ⟨between, rfl, rest⟩
  · rcases right between x after rest with starts | ⟨y, earlier, edge⟩
    · exact .inl starts
    · exact .inr ⟨y, List.mem_append_right _ earlier, edge⟩
  · cases between with
    | nil => exact .inl ((right [] x after rest.symm).resolve_right (by simp))
    | cons head between =>
        cases rest
        exact left before x between rfl

theorem Led.cons {a : α} {list : List α} (led : Led next (· ∈ next a) list) :
    Led next (· = a) (a :: list) := by
  intro before x after split
  cases before with
  | nil =>
      cases split
      exact .inl rfl
  | cons head before =>
      cases split
      rcases led before x after rfl with follows | ⟨y, earlier, edge⟩
      · exact .inr ⟨a, List.mem_cons_self, follows⟩
      · exact .inr ⟨y, List.mem_cons_of_mem a earlier, edge⟩

def Closing (next : α → List α) (list : List α) : Prop :=
  ∀ before x after, list = before ++ x :: after → ∀ y ∈ next x, y ∈ after ∨ Reaches next y x

theorem Closing.nil : Closing next [] := by
  intro before x after split
  simp at split

theorem Closing.cons {a : α} {list : List α} (closing : Closing next list)
    (first : ∀ y ∈ next a, y ∈ list ∨ Reaches next y a) : Closing next (a :: list) := by
  intro before x after split
  cases before with
  | nil =>
      cases split
      exact first
  | cons head before =>
      cases split
      exact closing before x after rfl

def Open (w : Walk α) (x : α) : Prop := x ∈ w.met ∧ x ∉ w.left

theorem Grown.open_before {before after : Walk α} (grown : Grown next before after) {x : α}
    (isOpen : after.Open x) : before.Open x := by
  obtain ⟨fresh, left, -, memFresh⟩ := grown.left
  obtain ⟨met, notLeft⟩ := isOpen
  rw [left, List.mem_append, not_or, memFresh, not_and, Classical.not_not] at notLeft
  exact ⟨notLeft.1 met, notLeft.2⟩

variable [DecidableEq α]

def unmet (nodes : List α) (w : Walk α) : Nat := nodes.countP fun x => x ∉ w.met

theorem unmet_le_of_met {nodes : List α} {w v : Walk α} (more : ∀ x ∈ w.met, x ∈ v.met) :
    unmet nodes v ≤ unmet nodes w := by
  apply List.countP_mono_left
  intro x _ absent
  simp only [decide_eq_true_eq] at absent ⊢
  exact fun member => absent (more x member)

theorem unmet_meet_lt {nodes : List α} {a : α} {w : Walk α} (member : a ∈ nodes)
    (fresh : a ∉ w.met) : unmet nodes { w with met := a :: w.met } < unmet nodes w := by
  unfold unmet
  induction nodes with
  | nil => simp at member
  | cons head rest ih =>
      have mono : rest.countP (fun x => x ∉ a :: w.met) ≤ rest.countP (fun x => x ∉ w.met) :=
        unmet_le_of_met (v := { w with met := a :: w.met }) fun x old => List.mem_cons_of_mem a old
      by_cases here : head = a
      · subst here
        simp only [List.countP_cons, List.mem_cons, true_or, not_true_eq_false, decide_false,
          fresh, not_false_eq_true, decide_true, Bool.false_eq_true, ↓reduceIte]
        simp only [List.mem_cons] at mono
        omega
      · have later := ih ((List.mem_cons.mp member).resolve_left (Ne.symm here))
        simp only [List.countP_cons, List.mem_cons, here, false_or]
        simp only [List.mem_cons] at later
        omega

theorem Grown.leave {a : α} {w below : Walk α} (fresh : a ∉ w.met)
    (grown : Grown next { w with met := a :: w.met } below)
    (followed : ∀ y ∈ next a, y ∈ below.met) :
    Grown next w { below with left := a :: below.left } := by
  obtain ⟨inner, leftInner, nodupInner, memInner⟩ := grown.left
  have met : a ∈ below.met := grown.met a List.mem_cons_self
  refine ⟨fun x member => grown.met x (List.mem_cons_of_mem a member), ?_, a :: inner, ?_, ?_, ?_⟩
  · intro x member absent y edge
    by_cases here : x = a
    · subst here
      exact followed y edge
    · exact grown.closed x member (by simp [here, absent]) y edge
  · simp [leftInner]
  · refine List.nodup_cons.mpr ⟨?_, nodupInner⟩
    intro member
    exact ((memInner a).mp member).2 List.mem_cons_self
  · intro x
    rw [List.mem_cons, memInner]
    simp only [List.mem_cons, not_or]
    constructor
    · rintro (rfl | ⟨member, -, absent⟩)
      · exact ⟨met, fresh⟩
      · exact ⟨member, absent⟩
    · rintro ⟨member, absent⟩
      by_cases here : x = a
      · exact .inl here
      · exact .inr ⟨member, here, absent⟩

/-- Visits one after the other grow a walk, if what each of them needs of it stays true as the
walk grows. -/
theorem grown_foldl {fuel : Nat} (fits : α → Walk α → Prop)
    (stays : ∀ b w v, (∀ x ∈ w.met, x ∈ v.met) → fits b w → fits b v)
    (single : ∀ b w, fits b w →
      Grown next w (visit next fuel b w) ∧ b ∈ (visit next fuel b w).met)
    (targets : List α) (w : Walk α) (all : ∀ b ∈ targets, fits b w) :
    Grown next w (targets.foldl (fun w b => visit next fuel b w) w) ∧
      ∀ b ∈ targets, b ∈ (targets.foldl (fun w b => visit next fuel b w) w).met := by
  induction targets generalizing w with
  | nil => exact ⟨.refl w, nofun⟩
  | cons first rest ih =>
      obtain ⟨grown, met⟩ := single first w (all first List.mem_cons_self)
      obtain ⟨grownRest, metRest⟩ := ih (visit next fuel first w) fun b later =>
        stays b w _ grown.met (all b (List.mem_cons_of_mem first later))
      refine ⟨grown.trans grownRest, ?_⟩
      intro b member
      rcases List.mem_cons.mp member with rfl | later
      · exact grownRest.met b met
      · exact metRest b later

/-- Visits of listed nodes grow a walk, with fuel for all the listed nodes it has not met. -/
theorem grown_foldl_listed {nodes : List α} {fuel : Nat}
    (single : ∀ b ∈ nodes, ∀ w : Walk α, unmet nodes w ≤ fuel →
      Grown next w (visit next fuel b w) ∧ b ∈ (visit next fuel b w).met)
    (targets : List α) (inside : ∀ b ∈ targets, b ∈ nodes) (w : Walk α)
    (enough : unmet nodes w ≤ fuel) :
    Grown next w (targets.foldl (fun w b => visit next fuel b w) w) ∧
      ∀ b ∈ targets, b ∈ (targets.foldl (fun w b => visit next fuel b w) w).met :=
  grown_foldl (fun b w => b ∈ nodes ∧ unmet nodes w ≤ fuel)
    (fun _ _ _ more fits => ⟨fits.1, Nat.le_trans (unmet_le_of_met more) fits.2⟩)
    (fun b w fits => single b fits.1 w fits.2) targets w fun b member => ⟨inside b member, enough⟩

theorem visit_grown {nodes : List α} (closed : ∀ x ∈ nodes, ∀ y ∈ next x, y ∈ nodes)
    (fuel : Nat) : ∀ a ∈ nodes, ∀ w : Walk α, unmet nodes w ≤ fuel →
      Grown next w (visit next fuel a w) ∧ a ∈ (visit next fuel a w).met := by
  induction fuel with
  | zero =>
      intro a member w enough
      -- No fuel is left only when every node has been met.
      have met : a ∈ w.met := by
        have none := List.countP_eq_zero.mp (Nat.le_zero.mp enough) a member
        simpa using none
      exact ⟨.refl w, met⟩
  | succ fuel ih =>
      intro a member w enough
      rw [visit]
      split
      · next met => exact ⟨.refl w, met⟩
      · next fresh =>
        -- The node is met before those that follow it, which leaves them one node fewer to meet.
        have fewer := unmet_meet_lt member fresh
        obtain ⟨grown, followed⟩ := grown_foldl_listed ih (next a) (closed a member)
          { w with met := a :: w.met } (by omega)
        exact ⟨grown.leave fresh followed, grown.met a List.mem_cons_self⟩

/-- With fuel for one node more than the inner ones it has not met, a visit meets all that
follows: a node that is no inner one ends its chain. -/
theorem visit_grown_inner {inner : List α} (ends : ∀ x, x ∉ inner → next x = []) (fuel : Nat) :
    ∀ (a : α) (w : Walk α), unmet inner w < fuel →
      Grown next w (visit next fuel a w) ∧ a ∈ (visit next fuel a w).met := by
  induction fuel with
  | zero => exact fun a w enough => absurd enough (Nat.not_lt_zero _)
  | succ fuel ih =>
      intro a w enough
      rw [visit]
      split
      · next met => exact ⟨.refl w, met⟩
      · next fresh =>
        have below : Grown next { w with met := a :: w.met }
              ((next a).foldl (fun w b => visit next fuel b w) { w with met := a :: w.met }) ∧
            ∀ b ∈ next a, b ∈ ((next a).foldl (fun w b => visit next fuel b w)
              { w with met := a :: w.met }).met := by
          by_cases member : a ∈ inner
          · have fewer := unmet_meet_lt member fresh
            apply grown_foldl (fun _ w => unmet inner w < fuel)
              (fun _ _ _ more => Nat.lt_of_le_of_lt (unmet_le_of_met more)) ih
            intro b _
            omega
          · rw [ends a member]
            exact ⟨.refl _, nofun⟩
        exact ⟨below.1.leave fresh below.2, below.1.met a List.mem_cons_self⟩

/-- What visits one after the other meet, if each of them meets nodes of one kind only. -/
theorem mem_foldl_visit {fuel : Nat} (kind : α → Prop) (targets : List α)
    (each : ∀ b ∈ targets, ∀ w, ∀ y ∈ (visit next fuel b w).met, y ∈ w.met ∨ kind y)
    (w : Walk α) :
    ∀ y ∈ (targets.foldl (fun w b => visit next fuel b w) w).met, y ∈ w.met ∨ kind y := by
  induction targets generalizing w with
  | nil => exact fun y met => .inl met
  | cons first rest ih =>
      intro y met
      rcases ih (fun b later => each b (List.mem_cons_of_mem first later)) _ y met with
        before | new
      · exact each first List.mem_cons_self w y before
      · exact .inr new

theorem reaches_of_mem_visit {fuel : Nat} {a x : α} {w : Walk α}
    (member : x ∈ (visit next fuel a w).met) : x ∈ w.met ∨ Reaches next a x := by
  induction fuel generalizing a x w with
  | zero => exact .inl member
  | succ fuel ih =>
      rw [visit] at member
      split at member
      · exact .inl member
      · -- What the visits below `a` meet is reached from `a` by the edge that led to the visit.
        have below := mem_foldl_visit (Reaches next a) (next a)
          (fun b edge w y met => (ih met).imp_right (.step edge)) _ x member
        rcases below with met | reached
        · rcases List.mem_cons.mp met with rfl | before
          · exact .inr (.refl x)
          · exact .inl before
        · exact .inr reached

/-- Visits from some starts meet exactly what can be reached from them, if the fuel is enough for
the nodes that have successors, and one more. -/
theorem mem_met_visitAll_iff {inner : List α} (ends : ∀ x, x ∉ inner → next x = []) {fuel : Nat}
    (enough : inner.length < fuel) (starts : List α) (x : α) :
    x ∈ (visitAll next fuel starts).met ↔ ∃ a ∈ starts, Reaches next a x := by
  have fits (w : Walk α) : unmet inner w < fuel :=
    Nat.lt_of_le_of_lt List.countP_le_length enough
  obtain ⟨grown, met⟩ := grown_foldl (fun _ w => unmet inner w < fuel) (fun _ _ v _ _ => fits v)
    (visit_grown_inner ends fuel) starts {} fun _ _ => fits {}
  constructor
  · intro member
    have reached := mem_foldl_visit (fun y => ∃ a ∈ starts, Reaches next a y) starts
      (fun b listed w y seen => (reaches_of_mem_visit seen).imp_right fun reached =>
        ⟨b, listed, reached⟩) {} x member
    exact reached.resolve_left List.not_mem_nil
  · rintro ⟨a, listed, reached⟩
    exact reached.induct (fun y seen => grown.closed y seen List.not_mem_nil) (met a listed)

theorem mem_left_visit_iff (nodes : List α) (closed : ∀ x ∈ nodes, ∀ y ∈ next x, y ∈ nodes)
    {fuel : Nat} {a : α} (member : a ∈ nodes) (enough : nodes.length ≤ fuel) (x : α) :
    x ∈ (visit next fuel a {}).left ↔ Reaches next a x := by
  obtain ⟨grown, met⟩ := visit_grown closed fuel a member {}
    (Nat.le_trans List.countP_le_length enough)
  obtain ⟨fresh, left, -, memFresh⟩ := grown.left
  simp only [left, List.append_nil, memFresh, List.not_mem_nil, not_false_eq_true, and_true]
  constructor
  · intro seen
    exact (reaches_of_mem_visit seen).resolve_left (by simp)
  · intro reached
    exact reached.induct (fun y seen => grown.closed y seen (by simp)) met

theorem nodup_left_visit (nodes : List α) (closed : ∀ x ∈ nodes, ∀ y ∈ next x, y ∈ nodes)
    {fuel : Nat} {a : α} (member : a ∈ nodes) (enough : nodes.length ≤ fuel) :
    (visit next fuel a {}).left.Nodup := by
  obtain ⟨grown, -⟩ := visit_grown closed fuel a member {}
    (Nat.le_trans List.countP_le_length enough)
  obtain ⟨fresh, left, nodup, -⟩ := grown.left
  rwa [left, List.append_nil]

theorem visit_led (fuel : Nat) (a : α) (w : Walk α) :
    ∃ fresh, (visit next fuel a w).left = fresh ++ w.left ∧ Led next (· = a) fresh := by
  induction fuel generalizing a w with
  | zero => exact ⟨[], rfl, .nil⟩
  | succ fuel ih =>
      rw [visit]
      split
      · exact ⟨[], rfl, .nil⟩
      · have below (targets : List α) (edges : ∀ b ∈ targets, b ∈ next a) (v : Walk α) :
            ∃ fresh, (targets.foldl (fun w b => visit next fuel b w) v).left = fresh ++ v.left ∧
              Led next (· ∈ next a) fresh := by
          induction targets generalizing v with
          | nil => exact ⟨[], rfl, .nil⟩
          | cons first rest ihRest =>
              obtain ⟨early, leftEarly, ledEarly⟩ := ih first v
              obtain ⟨late, leftLate, ledLate⟩ :=
                ihRest (fun b later => edges b (List.mem_cons_of_mem first later)) _
              refine ⟨late ++ early, ?_, ledLate.append fun before x after split => ?_⟩
              · rw [List.foldl_cons, leftLate, leftEarly, List.append_assoc]
              · refine (ledEarly before x after split).imp_left ?_
                rintro rfl
                exact edges x List.mem_cons_self
        obtain ⟨fresh, left, led⟩ :=
          below (next a) (fun _ edge => edge) { w with met := a :: w.met }
        exact ⟨a :: fresh, congrArg (a :: ·) left, led.cons⟩

/-- Only nodes that the walk is on its way from are met and not left, so an edge from a node that
is being left ends at a node left before, or at one that leads to it. -/
theorem visit_closing {nodes : List α} (closed : ∀ x ∈ nodes, ∀ y ∈ next x, y ∈ nodes)
    (fuel : Nat) : ∀ a ∈ nodes, ∀ w : Walk α, unmet nodes w ≤ fuel →
      (∀ x, w.Open x → Reaches next x a) → Closing next w.left →
        Closing next (visit next fuel a w).left := by
  induction fuel with
  | zero => exact fun a _ w _ _ closing => closing
  | succ fuel ih =>
      intro a member w enough leads closing
      rw [visit]
      split
      · exact closing
      · next fresh =>
        have fewer := unmet_meet_lt member fresh
        -- Below `a` the walk is on its way from `a` as well, and from all it was on its way from.
        have leadsBelow (x : α) (isOpen : Open { w with met := a :: w.met } x) :
            Reaches next x a := by
          rcases List.mem_cons.mp isOpen.1 with rfl | before
          · exact .refl x
          · exact leads x ⟨before, isOpen.2⟩
        have below (targets : List α) (edges : ∀ b ∈ targets, b ∈ next a) (v : Walk α)
            (enough : unmet nodes v ≤ fuel) (leads : ∀ x, v.Open x → Reaches next x a)
            (closing : Closing next v.left) :
            Closing next (targets.foldl (fun w b => visit next fuel b w) v).left := by
          induction targets generalizing v with
          | nil => exact closing
          | cons first rest ihRest =>
              have edge := edges first List.mem_cons_self
              have inside := closed a member first edge
              obtain ⟨grown, -⟩ := visit_grown closed fuel first inside v enough
              apply ihRest (fun b later => edges b (List.mem_cons_of_mem first later)) _
                (Nat.le_trans (unmet_le_of_met grown.met) enough)
                (fun x isOpen => leads x (grown.open_before isOpen))
              exact ih first inside v enough (fun x isOpen => (leads x isOpen).snoc edge) closing
        obtain ⟨grown, followed⟩ := grown_foldl_listed (visit_grown closed fuel)
          (next a) (closed a member) { w with met := a :: w.met } (by omega)
        refine Closing.cons (below (next a) (fun _ edge => edge) _ (by omega) leadsBelow closing) ?_
        -- A successor that was met and not left is one of those, so it leads back to `a`.
        intro y edge
        by_cases left : y ∈ (((next a).foldl (fun w b => visit next fuel b w)
            { w with met := a :: w.met }).left)
        · exact .inl left
        · exact .inr (leadsBelow y (grown.open_before ⟨followed y edge, left⟩))

end Walk

/-! ### The visiting order of a graph -/

namespace Graph

variable {g : Graph}

theorem Valid.entry_block (valid : g.Valid) : ∃ block, g.block? g.entry = some block := by
  unfold Valid fault? at valid
  split at valid
  · contradiction
  · next kind =>
    unfold hasKind at kind
    split at kind
    · next block found => exact ⟨block, found⟩
    · contradiction

theorem Valid.entry_ne_exit (valid : g.Valid) : g.entry ≠ g.exit := by
  intro same
  obtain ⟨block, found⟩ := valid.entry_block
  unfold Valid fault? hasKind at valid
  rw [← same, found] at valid
  cases kind : block.kind <;> simp [kind] at valid

theorem Valid.blockFault? (valid : g.Valid) {id : BlockId} {block : Block}
    (found : g.block? id = some block) : g.blockFault? block id.index = none := by
  unfold Valid fault? at valid
  split at valid
  · contradiction
  · split at valid
    · contradiction
    · have member : (block, id.index) ∈ g.blocks.zipIdx :=
        List.mem_zipIdx_iff_getElem?.mpr found
      exact List.findSome?_eq_none_iff.mp valid _ member

theorem Valid.block_id (valid : g.Valid) {id : BlockId} {block : Block}
    (found : g.block? id = some block) : block.id = id := by
  have sound := valid.blockFault? found
  unfold Graph.blockFault? at sound
  split at sound
  · contradiction
  · next placed =>
    have same : block.id.index = id.index := by simpa using placed
    cases left : block.id
    cases right : id
    simp_all

theorem Valid.soundEdge (valid : g.Valid) {id : BlockId} {block : Block}
    (found : g.block? id = some block) {edge : Edge} (listed : edge ∈ block.successors) :
    edge.source = id ∧ ∃ target, g.block? edge.destination = some target := by
  have sound := valid.blockFault? found
  unfold Graph.blockFault? at sound
  split at sound
  · contradiction
  · split at sound
    · contradiction
    · next none =>
      have fine := List.find?_eq_none.mp none edge listed
      simp only [Bool.not_eq_true', Bool.not_eq_false, Graph.soundEdge, Bool.and_eq_true,
        decide_eq_true_eq, Option.isSome_iff_exists] at fine
      exact ⟨fine.1.trans (valid.block_id found), fine.2⟩

theorem mem_successors_iff {a b : BlockId} :
    b ∈ g.successors a ↔
      ∃ block, g.block? a = some block ∧ ∃ edge ∈ block.successors, edge.destination = b := by
  unfold successors
  split
  · next block found => simp [found]
  · next absent => simp [absent]

theorem destination_mem_successors {id : BlockId} {block : Block} {edge : Edge}
    (found : g.block? id = some block) (listed : edge ∈ block.successors) :
    edge.destination ∈ g.successors id :=
  mem_successors_iff.mpr ⟨block, found, edge, listed, rfl⟩

theorem mem_edges {id : BlockId} {block : Block} {edge : Edge}
    (found : g.block? id = some block) (listed : edge ∈ block.successors) : edge ∈ g.edges :=
  List.mem_flatMap.mpr ⟨block, List.mem_of_getElem? found, listed⟩

/-- Only the entry and the destinations of edges can be met, and `walkBound` counts these. -/
def meetable (g : Graph) : List BlockId := g.entry :: g.edges.map Edge.destination

theorem meetable_closed (g : Graph) : ∀ x ∈ g.meetable, ∀ y ∈ g.successors x, y ∈ g.meetable := by
  intro x _ y successor
  obtain ⟨block, found, edge, listed, rfl⟩ := mem_successors_iff.mp successor
  exact List.mem_cons_of_mem _ (List.mem_map_of_mem (mem_edges found listed))

theorem meetable_length (g : Graph) : g.meetable.length ≤ g.walkBound := by
  simp [meetable, walkBound]

/-- The visiting order lists the blocks that the entry reaches. -/
theorem mem_reversePostorder_iff (valid : g.Valid) (b : BlockId) :
    b ∈ g.reversePostorder ↔ Reaches g.successors g.entry b := by
  obtain ⟨block, found⟩ := valid.entry_block
  simp only [reversePostorder, found]
  exact Walk.mem_left_visit_iff g.meetable g.meetable_closed List.mem_cons_self g.meetable_length b

theorem nodup_reversePostorder (g : Graph) : g.reversePostorder.Nodup := by
  unfold reversePostorder
  split
  · exact Walk.nodup_left_visit g.meetable g.meetable_closed List.mem_cons_self g.meetable_length
  · exact List.nodup_nil

theorem not_mem_of_reversePostorder {id : BlockId} {before after : List BlockId}
    (order : g.reversePostorder = before ++ id :: after) : id ∉ before ∧ id ∉ after := by
  have nodup : (before ++ id :: after).Nodup := order ▸ g.nodup_reversePostorder
  obtain ⟨-, later, apart⟩ := List.nodup_append.mp nodup
  exact ⟨fun member => apart id member id List.mem_cons_self rfl, (List.nodup_cons.mp later).1⟩

/-- Every listed block but the entry follows a block that is listed before it. -/
theorem reversePostorder_led (g : Graph) :
    Walk.Led g.successors (· = g.entry) g.reversePostorder := by
  unfold reversePostorder
  split
  · obtain ⟨fresh, left, led⟩ : ∃ fresh, _ = fresh ++ [] ∧
        Walk.Led g.successors (· = g.entry) fresh := Walk.visit_led g.walkBound g.entry {}
    rw [left, List.append_nil]
    exact led
  · exact .nil

/-- Every edge goes forward in the order or closes a cycle. -/
theorem reversePostorder_closing (g : Graph) : Walk.Closing g.successors g.reversePostorder := by
  unfold reversePostorder
  split
  · apply Walk.visit_closing g.meetable_closed g.walkBound g.entry List.mem_cons_self
    · exact Nat.le_trans List.countP_le_length g.meetable_length
    · rintro x ⟨met, -⟩
      contradiction
    · exact .nil
  · exact .nil

theorem Valid.reached_block (valid : g.Valid) {b : BlockId}
    (reached : Reaches g.successors g.entry b) : ∃ block, g.block? b = some block := by
  apply reached.induct _ valid.entry_block
  intro x _ y successor
  obtain ⟨block, found, edge, listed, rfl⟩ := mem_successors_iff.mp successor
  exact (valid.soundEdge found listed).2

end Graph

end PathCompletion
