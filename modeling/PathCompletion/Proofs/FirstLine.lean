import Mathlib.Data.List.DropRight
import Mathlib.Data.String.Basic
import PathCompletion.Source

/-!
The first line of a fragment, as it is shown and as it is measured. A reader is shown the line
without any of the carriage returns at its end; the span leaves out one of them only, and only
where a line feed follows. So the span covers what is shown exactly if no carriage return ends
the line, or a single one before a line feed.
-/

namespace PathCompletion.Fragment

variable {text : String} {shown rest : List Char} {returns : Nat}

/-- A text in three parts: what is shown of its first line, the carriage returns at the end of
the line, and the rest, from the line feed on if there is one. -/
structure Parted (text : String) (shown : List Char) (returns : Nat) (rest : List Char) : Prop where
  whole : text.toList = shown ++ List.replicate returns '\r' ++ rest
  oneLine : '\n' ∉ shown
  trimmed : shown.getLast? ≠ some '\r'
  ends : rest = [] ∨ rest.head? = some '\n'

/-- The carriage returns that belong to no line end: a line feed takes the last one along. -/
def looseReturns (returns : Nat) (rest : List Char) : Nat :=
  if rest = [] then returns else returns - 1

theorem trimReturns_append_returns (trimmed : shown.getLast? ≠ some '\r') (returns : Nat) :
    trimReturns (shown ++ List.replicate returns '\r') = shown := by
  change List.rdropWhile (· == '\r') _ = shown
  induction returns with
  | zero =>
      rw [List.replicate_zero, List.append_nil, List.rdropWhile_eq_self_iff]
      intro nonempty last
      exact trimmed (by rw [List.getLast?_eq_some_getLast nonempty, eq_of_beq last])
  | succ returns ih =>
      rw [List.replicate_succ', ← List.append_assoc, List.rdropWhile_concat_pos _ _ _ rfl, ih]

theorem exists_returns (line : List Char) :
    ∃ shown returns, line = shown ++ List.replicate returns '\r' ∧ shown.getLast? ≠ some '\r' := by
  induction line using List.reverseRecOn with
  | nil => exact ⟨[], 0, rfl, nofun⟩
  | append_singleton line c ih =>
      by_cases isReturn : c = '\r'
      · obtain ⟨shown, returns, rfl, trimmed⟩ := ih
        refine ⟨shown, returns + 1, ?_, trimmed⟩
        rw [isReturn, List.append_assoc, List.replicate_succ']
      · refine ⟨line ++ [c], 0, (List.append_nil _).symm, ?_⟩
        simpa using isReturn

theorem exists_parted (text : String) : ∃ shown returns rest, Parted text shown returns rest := by
  obtain ⟨shown, returns, line, trimmed⟩ := exists_returns (firstChars text)
  refine ⟨shown, returns, text.toList.dropWhile (· ≠ '\n'), ?_, ?_, trimmed, ?_⟩
  · rw [← line]
    exact List.takeWhile_append_dropWhile.symm
  · intro member
    have inLine : '\n' ∈ firstChars text := line ▸ List.mem_append_left _ member
    simpa using List.mem_takeWhile_imp inLine
  · have stops := List.head?_dropWhile_not (· ≠ '\n') text.toList
    cases rest : text.toList.dropWhile (· ≠ '\n') with
    | nil => exact .inl rfl
    | cons c rest =>
        rw [rest] at stops
        simpa using stops

namespace Parted

theorem firstChars (parted : Parted text shown returns rest) :
    firstChars text = shown ++ List.replicate returns '\r' := by
  have inLine : ∀ c ∈ shown ++ List.replicate returns '\r', decide (c ≠ '\n') = true := by
    intro c member
    rw [decide_eq_true_eq]
    rintro rfl
    rcases List.mem_append.mp member with here | there
    · exact parted.oneLine here
    · simp at there
  rw [Fragment.firstChars, parted.whole, List.takeWhile_append_of_pos inLine]
  rcases parted.ends with rfl | feed
  · simp
  · cases rest <;> simp_all

theorem firstLine (parted : Parted text shown returns rest) (span : Span) :
    (Fragment.mk span text).firstLine = String.ofList shown := by
  rw [Fragment.firstLine, parted.firstChars, trimReturns_append_returns parted.trimmed]

theorem measuredLine (parted : Parted text shown returns rest) :
    measuredLine text = shown ++ List.replicate (looseReturns returns rest) '\r' := by
  have fed : (shown ++ List.replicate returns '\r').length < text.toList.length ↔ rest ≠ [] := by
    rw [parted.whole, ← List.length_pos_iff]
    simp only [List.length_append]
    omega
  simp only [Fragment.measuredLine, parted.firstChars, fed]
  cases returns with
  | zero => simp [looseReturns, parted.trimmed]
  | succ returns =>
      rw [List.replicate_succ', ← List.append_assoc]
      by_cases last : rest = [] <;> simp [looseReturns, last, List.replicate_succ']

end Parted

/-! ### Bytes -/

theorem byteLength_append_returns (shown : List Char) (returns : Nat) :
    byteLength (shown ++ List.replicate returns '\r') = byteLength shown + returns := by
  unfold byteLength
  induction returns with
  | zero => simp
  | succ returns ih =>
      rw [List.replicate_succ', ← List.append_assoc, String.ofList_append,
        String.utf8ByteSize_append, ih]
      rfl

theorem Parted.measured_le (parted : Parted text shown returns rest) :
    byteLength shown + looseReturns returns rest ≤ text.utf8ByteSize := by
  have whole : text.utf8ByteSize = byteLength shown + returns + byteLength rest := by
    rw [← byteLength_append_returns, byteLength, byteLength, ← String.utf8ByteSize_append,
      ← String.ofList_append, ← parted.whole, String.ofList_toList]
  have loose : looseReturns returns rest ≤ returns := by
    unfold looseReturns
    split
    · exact Nat.le_refl _
    · exact Nat.sub_le _ _
  omega

theorem looseReturns_eq_zero_iff :
    looseReturns returns rest = 0 ↔ returns = 0 ∨ returns = 1 ∧ rest ≠ [] := by
  unfold looseReturns
  split
  · next ended => simp [ended]
  · next fed => simp only [ne_eq, fed, not_false_eq_true, and_true]; omega

/-- The span of a fragment goes from column 0 over what is shown of its first line and over the
loose carriage returns after it. For texts below the limit on columns it exists, and it ends
where the shown line does exactly if at most a carriage return that belongs to a line end
follows. -/
theorem span_covers_shown_line_and_loose_returns (line : Nat) (text : String)
    (short : text.utf8ByteSize < UInt32.size) :
    ∃ shown returns rest, Parted text shown returns rest ∧
      (atLine line text).firstLine = String.ofList shown ∧
      Span.onLine? line 0
          ((atLine line text).firstLine.utf8ByteSize + looseReturns returns rest) =
        some (atLine line text).span ∧
      ((atLine line text).span = ⟨line, 0, line, (atLine line text).firstLine.utf8ByteSize⟩ ↔
        returns = 0 ∨ returns = 1 ∧ rest ≠ []) := by
  obtain ⟨shown, returns, rest, parted⟩ := exists_parted text
  have firstLine : (atLine line text).firstLine = String.ofList shown := parted.firstLine _
  have measured : (atLine line text).span =
      ⟨line, 0, line, (atLine line text).firstLine.utf8ByteSize + looseReturns returns rest⟩ := by
    rw [firstLine, atLine, parted.measuredLine, byteLength_append_returns, byteLength]
  refine ⟨shown, returns, rest, parted, firstLine, ?_, ?_⟩
  · have within : 0 + ((atLine line text).firstLine.utf8ByteSize + looseReturns returns rest) ≤
        Span.limit := by
      rw [firstLine, Nat.zero_add]
      exact Nat.le_pred_of_lt (Nat.lt_of_le_of_lt parted.measured_le short)
    rw [measured, Span.onLine?, if_pos within, Nat.zero_add]
  · rw [measured, ← looseReturns_eq_zero_iff]
    simp

/-- One carriage return before a line feed: what is shown is what is measured. -/
theorem brokenCall_span_covers_shown_line :
    "new Scope(\r\n    options)".utf8ByteSize < UInt32.size ∧
      ∃ shown returns rest, Parted "new Scope(\r\n    options)" shown returns rest ∧
        "new Scope(" = String.ofList shown ∧ (returns = 0 ∨ returns = 1 ∧ rest ≠ []) := by
  have short : "new Scope(\r\n    options)".utf8ByteSize < UInt32.size := by decide +kernel
  have shownLine : (atLine 3 "new Scope(\r\n    options)").firstLine = "new Scope(" := by
    decide +kernel
  have measured : (atLine 3 "new Scope(\r\n    options)").span = ⟨3, 0, 3, 10⟩ := by decide +kernel
  obtain ⟨shown, returns, rest, parted, firstLine, -, same⟩ :=
    span_covers_shown_line_and_loose_returns 3 _ short
  refine ⟨short, shown, returns, rest, parted, shownLine.symm.trans firstLine, same.mp ?_⟩
  rw [measured, shownLine]
  decide +kernel

/-- A carriage return at the end of the text is measured and not shown. -/
theorem loose_return_is_measured_only :
    "new Scope()\r".utf8ByteSize < UInt32.size ∧
      (atLine 3 "new Scope()\r").firstLine = "new Scope()" ∧
      "new Scope()".utf8ByteSize = 11 ∧ (atLine 3 "new Scope()\r").span = ⟨3, 0, 3, 12⟩ := by
  decide +kernel

end PathCompletion.Fragment
