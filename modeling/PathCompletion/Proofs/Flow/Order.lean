import Mathlib.Data.List.Basic
import PathCompletion.Proofs.Chain
import PathCompletion.Proofs.Search

/-!
The visiting order of a graph and its back edges. An edge of a listed block goes strictly
forward in the order, or it is a back edge, and then its ends lie on a cycle. So the graph has
back edges exactly if some block that the entry reaches is on a cycle.
-/

namespace PathCompletion.Graph

variable {g : Graph}

/-- The walk behind the order, done by a loop with a stack, ends with the order. -/
theorem search_ends (valid : g.Valid) :
    ∃ met, Search.LeadsTo g.successors (.start g.entry) ⟨[], ⟨met, g.reversePostorder⟩⟩ := by
  obtain ⟨block, found⟩ := valid.entry_block
  refine ⟨(Walk.visit g.successors g.walkBound g.entry {}).met, ?_⟩
  simp only [reversePostorder, found]
  exact Search.start_leadsTo g.meetable_closed List.mem_cons_self g.meetable_length

theorem head?_reversePostorder (valid : g.Valid) : g.reversePostorder.head? = some g.entry := by
  have listed := (mem_reversePostorder_iff valid g.entry).mpr (.refl _)
  cases order : g.reversePostorder with
  | nil => simp [order] at listed
  | cons first rest =>
      have leads := reversePostorder_led g [] first rest order
      rw [List.head?_cons, leads.resolve_right (by simp)]

/-! ### Places in the order -/

theorem idxOf_lt_of_after {x y : BlockId} {before after : List BlockId}
    (order : g.reversePostorder = before ++ x :: after) (later : y ∈ after) :
    g.reversePostorder.idxOf x < g.reversePostorder.idxOf y := by
  have nodup : (before ++ x :: after).Nodup := order ▸ g.nodup_reversePostorder
  obtain ⟨-, nodupRest, apart⟩ := List.nodup_append.mp nodup
  have notBefore : x ∉ before := (not_mem_of_reversePostorder order).1
  have notBeforeToo : y ∉ before := fun earlier =>
    apart y earlier y (List.mem_cons_of_mem x later) rfl
  have different : x ≠ y := fun same => (List.nodup_cons.mp nodupRest).1 (same ▸ later)
  rw [order, List.idxOf_append_of_notMem notBefore, List.idxOf_append_of_notMem notBeforeToo,
    List.idxOf_cons_self, List.idxOf_cons_ne _ different]
  omega

/-- An edge of a listed block goes strictly forward, or leads back to its source. -/
theorem forward_or_closing {a b : BlockId} (listed : a ∈ g.reversePostorder)
    (successor : b ∈ g.successors a) :
    g.reversePostorder.idxOf a < g.reversePostorder.idxOf b ∨ Reaches g.successors b a := by
  obtain ⟨before, after, order⟩ := List.append_of_mem listed
  rcases g.reversePostorder_closing before a after order b successor with later | closes
  · exact .inl (idxOf_lt_of_after order later)
  · exact .inr closes

theorem mem_order_of_successor (valid : g.Valid) {a b : BlockId}
    (listed : a ∈ g.reversePostorder) (successor : b ∈ g.successors a) :
    b ∈ g.reversePostorder := by
  rw [mem_reversePostorder_iff valid] at listed ⊢
  exact listed.snoc successor

/-! ### Back edges -/

theorem mem_backEdges_iff (valid : g.Valid) {link : Link} :
    link ∈ g.backEdges g.reversePostorder ↔
      link.source ∈ g.reversePostorder ∧ link.destination ∈ g.successors link.source ∧
        g.reversePostorder.idxOf link.destination ≤ g.reversePostorder.idxOf link.source := by
  simp only [backEdges, SortedSet.mem_ofList, List.mem_filterMap, List.mem_flatMap]
  constructor
  · rintro ⟨edge, ⟨id, listed, inside⟩, kept⟩
    cases found : g.block? id with
    | none => simp [found] at inside
    | some block =>
        simp only [found, Option.map_some, Option.getD_some] at inside
        obtain ⟨source, -⟩ := valid.soundEdge found inside
        split at kept
        · next backward =>
          cases kept
          refine ⟨backward.1, ?_, backward.2.2⟩
          rw [source]
          exact destination_mem_successors found inside
        · contradiction
  · rintro ⟨listed, successor, backward⟩
    obtain ⟨block, found, edge, inside, arrives⟩ := mem_successors_iff.mp successor
    obtain ⟨source, -⟩ := valid.soundEdge found inside
    refine ⟨edge, ⟨link.source, listed, by simpa [found] using inside⟩, ?_⟩
    have listedToo := mem_order_of_successor valid listed successor
    simp [source, arrives, listed, listedToo, backward]

/-- A back edge lies on a cycle. -/
theorem reaches_of_mem_backEdges (valid : g.Valid) {link : Link}
    (isBack : link ∈ g.backEdges g.reversePostorder) :
    Reaches g.successors link.destination link.source := by
  obtain ⟨listed, successor, backward⟩ := (mem_backEdges_iff valid).mp isBack
  exact (forward_or_closing listed successor).resolve_left (Nat.not_lt.mpr backward)

theorem idxOf_lt_of_not_mem_backEdges (valid : g.Valid) {a b : BlockId}
    (listed : a ∈ g.reversePostorder) (successor : b ∈ g.successors a)
    (notBack : (⟨a, b⟩ : Link) ∉ g.backEdges g.reversePostorder) :
    g.reversePostorder.idxOf a < g.reversePostorder.idxOf b := by
  by_contra backward
  exact notBack ((mem_backEdges_iff valid).mpr ⟨listed, successor, Nat.not_lt.mp backward⟩)

/-- Where no edge goes back, nothing that the entry reaches leads back to itself. -/
theorem backEdges_eq_empty_iff (valid : g.Valid) :
    g.backEdges g.reversePostorder = ∅ ↔
      ∀ b, Reaches g.successors g.entry b → ¬ OnCycle g.successors b := by
  constructor
  · rintro none b reached ⟨y, successor, round⟩
    have forward {x z : BlockId} (listed : x ∈ g.reversePostorder)
        (edge : z ∈ g.successors x) :=
      idxOf_lt_of_not_mem_backEdges valid listed edge (by simp [none])
    have listed := (mem_reversePostorder_iff valid b).mpr reached
    have listedNext := mem_order_of_successor valid listed successor
    -- Places never fall along the way round, and rise on the first step of it.
    have kept (x : BlockId) (here : x ∈ g.reversePostorder ∧
        g.reversePostorder.idxOf y ≤ g.reversePostorder.idxOf x) (z : BlockId)
        (edge : z ∈ g.successors x) : z ∈ g.reversePostorder ∧
          g.reversePostorder.idxOf y ≤ g.reversePostorder.idxOf z := by
      have step := forward here.1 edge
      exact ⟨mem_order_of_successor valid here.1 edge, by omega⟩
    have later := round.induct kept ⟨listedNext, le_refl _⟩
    have first := forward listed successor
    omega
  · intro acyclic
    apply SortedSet.ext
    intro link
    refine ⟨fun isBack => ?_, fun absent => absurd absent (SortedSet.not_mem_empty link)⟩
    obtain ⟨listed, successor, -⟩ := (mem_backEdges_iff valid).mp isBack
    exact absurd ⟨_, successor, reaches_of_mem_backEdges valid isBack⟩
      (acyclic _ ((mem_reversePostorder_iff valid _).mp listed))

/-- The loop that makes the order ends. The order begins with the entry and lists what the entry
reaches, each block once. An edge of a listed block that is no back edge goes strictly forward,
and a back edge closes a cycle. There are none exactly if nothing that the entry reaches is on
a cycle, and then every edge goes forward. -/
theorem order_goes_forward_but_for_cycles (valid : g.Valid) :
    (∃ n met, (Search.step g.successors)^[n] (.start g.entry) =
      ⟨[], ⟨met, g.reversePostorder⟩⟩) ∧
    g.reversePostorder.head? = some g.entry ∧ g.reversePostorder.Nodup ∧
    (∀ b, b ∈ g.reversePostorder ↔ Reaches g.successors g.entry b) ∧
    (∀ a ∈ g.reversePostorder, ∀ b ∈ g.successors a,
      (⟨a, b⟩ : Link) ∉ g.backEdges g.reversePostorder →
        g.reversePostorder.idxOf a < g.reversePostorder.idxOf b) ∧
    (∀ link ∈ g.backEdges g.reversePostorder, link.source ∈ g.reversePostorder ∧
      link.destination ∈ g.successors link.source ∧
      Reaches g.successors link.destination link.source) ∧
    (g.backEdges g.reversePostorder = ∅ ↔
      ∀ b, Reaches g.successors g.entry b → ¬ OnCycle g.successors b) ∧
    (g.backEdges g.reversePostorder = ∅ → ∀ a ∈ g.reversePostorder, ∀ b ∈ g.successors a,
      b ∈ g.reversePostorder ∧ g.reversePostorder.idxOf a < g.reversePostorder.idxOf b) := by
  obtain ⟨met, n, ran⟩ := search_ends valid
  refine ⟨⟨n, met, ran⟩, head?_reversePostorder valid, g.nodup_reversePostorder,
    mem_reversePostorder_iff valid, ?_, ?_, backEdges_eq_empty_iff valid, ?_⟩
  · intro a listed b successor notBack
    exact idxOf_lt_of_not_mem_backEdges valid listed successor notBack
  · intro link isBack
    obtain ⟨listed, successor, -⟩ := (mem_backEdges_iff valid).mp isBack
    exact ⟨listed, successor, reaches_of_mem_backEdges valid isBack⟩
  · intro none a listed b successor
    refine ⟨mem_order_of_successor valid listed successor, ?_⟩
    exact idxOf_lt_of_not_mem_backEdges valid listed successor (by simp [none])

/-- Two blocks lead to each other and are both entered from outside, one of them leads to itself
and to the entry, an edge stands twice, and one block is not reached. -/
def tangled : Graph where
  blocks :=
    [{ id := ⟨0⟩, kind := .entry,
        successors := [⟨⟨0⟩, ⟨2⟩, .whenTrue⟩, ⟨⟨0⟩, ⟨3⟩, .whenFalse⟩, ⟨⟨0⟩, ⟨2⟩, .always⟩] },
      { id := ⟨1⟩, kind := .exit },
      { id := ⟨2⟩, kind := .block, successors := [⟨⟨2⟩, ⟨3⟩, .always⟩] },
      { id := ⟨3⟩, kind := .block,
        successors := [⟨⟨3⟩, ⟨2⟩, .always⟩, ⟨⟨3⟩, ⟨3⟩, .always⟩, ⟨⟨3⟩, ⟨0⟩, .always⟩,
          ⟨⟨3⟩, ⟨1⟩, .always⟩] },
      { id := ⟨4⟩, kind := .block, successors := [⟨⟨4⟩, ⟨1⟩, .always⟩] }]
  regions := []
  entry := ⟨0⟩
  exit := ⟨1⟩

theorem tangled_goes_forward_but_for_cycles :
    tangled.Valid ∧ tangled.reversePostorder = [⟨0⟩, ⟨2⟩, ⟨3⟩, ⟨1⟩] ∧
      (tangled.backEdges tangled.reversePostorder).toList =
        [⟨⟨3⟩, ⟨0⟩⟩, ⟨⟨3⟩, ⟨2⟩⟩, ⟨⟨3⟩, ⟨3⟩⟩] ∧
      Reaches tangled.successors ⟨0⟩ ⟨3⟩ ∧ Reaches tangled.successors ⟨2⟩ ⟨3⟩ ∧
      ¬ Reaches tangled.successors ⟨0⟩ ⟨4⟩ := by
  have valid : tangled.Valid := by decide
  have order : tangled.reversePostorder = [⟨0⟩, ⟨2⟩, ⟨3⟩, ⟨1⟩] := by decide
  obtain ⟨-, -, -, listed, -, closing, -⟩ := order_goes_forward_but_for_cycles valid
  refine ⟨valid, order, by decide, ?_, ?_, ?_⟩
  · exact (closing ⟨⟨3⟩, ⟨0⟩⟩ (by decide)).2.2
  · exact (closing ⟨⟨3⟩, ⟨2⟩⟩ (by decide)).2.2
  · rw [show (⟨0⟩ : BlockId) = tangled.entry from rfl, ← listed, order]
    decide

end PathCompletion.Graph
