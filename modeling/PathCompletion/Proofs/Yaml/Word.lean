import PathCompletion.Settings.Document
import PathCompletion.Yaml.Lexer

/-!
Words of letters, digits and underscores. None of these characters means anything else in a
document, so a word is one plain text. It goes on up to a colon before a space, or to the end of
its line, where a key on the next line ends it.
-/

namespace PathCompletion.Yaml

/-! ### Characters of words -/

def isSkipped (c : Char) : Bool := isSpace c || isBreak c || c = '#' || c = '\ufeff'

variable {c d : Char} {word rest : List Char} {offset line column : Nat}

theorem toNat_of_isWordChar (inside : isWordChar c = true) : 0x30 ≤ c.toNat ∧ c.toNat ≤ 0x7A := by
  unfold isWordChar Char.isAlphanum Char.isAlpha Char.isUpper Char.isLower at inside
  simp only [UInt32.le_iff_toNat_le, Bool.or_eq_true, Bool.and_eq_true, decide_eq_true_eq,
    Char.isDigit_iff_toNat] at inside
  rcases inside with ((inside | inside) | inside) | rfl
  · exact ⟨Nat.le_trans (by decide) inside.1, Nat.le_trans inside.2 (by decide)⟩
  · exact ⟨Nat.le_trans (by decide) inside.1, inside.2⟩
  · exact ⟨inside.1, Nat.le_trans inside.2 (by decide)⟩
  · decide

theorem ne_of_isWordChar (inside : isWordChar c = true) (outside : isWordChar d = false) :
    c ≠ d := by
  rintro rfl
  rw [inside] at outside
  contradiction

theorem isAllowed_of_isWordChar (inside : isWordChar c = true) : isAllowed c = true := by
  have ⟨least, greatest⟩ := toNat_of_isWordChar inside
  have ascii : 0x20 ≤ c.toNat ∧ c.toNat ≤ 0x7E := by omega
  simp [isAllowed, allowedRanges, ascii]

theorem utf8Size_of_isWordChar (inside : isWordChar c = true) : c.utf8Size = 1 := by
  rw [Char.utf8Size_eq_one_iff, UInt32.le_iff_toNat_le, Char.toNat_val]
  exact Nat.le_trans (toNat_of_isWordChar inside).2 (by decide)

theorem isSkipped_of_isWordChar (inside : isWordChar c = true) : isSkipped c = false := by
  have other (d : Char) (outside : isWordChar d = false) : c ≠ d := ne_of_isWordChar inside outside
  simp [isSkipped, isSpace, isBreak, other ' ' rfl, other '\t' rfl, other '\n' rfl, other '\r' rfl,
    other '\u0085' rfl, other '\u2028' rfl, other '\u2029' rfl, other '#' rfl, other '\ufeff' rfl]

theorem any_isSpace_of_stays {next : Option Char} (stays : next.any isSkipped = false) :
    next.any isSpace = false := by
  cases next <;> simp_all [isSkipped]

theorem any_isBreak_of_stays {next : Option Char} (stays : next.any isSkipped = false) :
    next.any isBreak = false := by
  cases next <;> simp_all [isSkipped]

theorem not_blank_of_isWordChar (inside : isWordChar c = true) :
    isSpace c = false ∧ isBreak c = false :=
  have stays := isSkipped_of_isWordChar inside
  ⟨@any_isSpace_of_stays (some c) stays, @any_isBreak_of_stays (some c) stays⟩

theorem octets_of_isWord (inside : ∀ c ∈ word, isWordChar c = true) :
    octets word = word.length := by
  induction word with
  | nil => rfl
  | cons c rest ih =>
      have tail := ih fun d later => inside d (List.mem_cons_of_mem c later)
      rw [octets, List.foldr_cons, ← octets, tail,
        utf8Size_of_isWordChar (inside c List.mem_cons_self), List.length_cons, Nat.add_comm]

/-! ### Cursors -/

namespace Cursor

theorem run_of_next {cursor : Cursor} {test : Char → Bool}
    (stays : cursor.next?.any test = false) : cursor.run test = [] := by
  obtain ⟨rest, offset, line, column⟩ := cursor
  cases rest with
  | nil => rfl
  | cons c rest =>
      have fails : test c = false := by simpa [next?] using stays
      simp [run, fails]

/-- A cursor stays where the next character does not pass the test. -/
theorem skip_of_next {cursor : Cursor} {test : Char → Bool}
    (stays : cursor.next?.any test = false) : cursor.skip test = cursor := by
  simp [skip, run_of_next stays, advance, octets]

theorem skip_one {test : Char → Bool} (passes : test c = true)
    (stays : rest.head?.any test = false) :
    (Cursor.mk (c :: rest) offset line column).skip test =
      ⟨rest, offset + c.utf8Size, line, column + 1⟩ := by
  have behind : (Cursor.mk rest 0 0 0).run test = [] := run_of_next stays
  rw [run] at behind
  simp [skip, run, passes, behind, advance, octets]

theorem skipComment_of_stays {cursor : Cursor} (stays : cursor.next?.any isSkipped = false) :
    cursor.skipComment = cursor := by
  refine if_neg fun next => ?_
  rw [next] at stays
  exact absurd stays (by decide)

theorem advance_word (inside : ∀ c ∈ word, isWordChar c = true) :
    (Cursor.mk (word ++ rest) offset line column).advance word.length =
      ⟨rest, offset + word.length, line, column + word.length⟩ := by
  simp [advance, octets_of_isWord inside]

end Cursor

/-! ### Words as plain texts -/

theorem plainWord_append (inside : ∀ c ∈ word, isWordChar c = true) :
    plainWord false (word ++ rest) = (plainWord false rest).map (word ++ ·) := by
  induction word with
  | nil => simp
  | cons c word ih =>
      have first : isWordChar c = true := inside c List.mem_cons_self
      rw [List.cons_append, plainWord, ih fun d later => inside d (List.mem_cons_of_mem c later)]
      simp [not_blank_of_isWordChar first,
        ne_of_isWordChar first (show isWordChar ':' = false from rfl), Function.comp_def]

theorem readBreaks_of_stays {cursor : Cursor} (limit fuel : Nat)
    (stays : cursor.next?.any isSkipped = false) :
    readBreaks limit fuel cursor = some ([], cursor) := by
  cases fuel with
  | zero => rfl
  | succ fuel =>
      have inLine : cursor.atBreak = false := any_isBreak_of_stays stays
      simp [readBreaks, inLine]

theorem readGap_of_stays {cursor : Cursor} (limit : Nat)
    (stays : cursor.next?.any isSkipped = false) :
    readGap limit cursor = some (⟨[], []⟩, cursor) := by
  have blank := any_isSpace_of_stays stays
  simp [readGap, Cursor.skip_of_next blank, Cursor.run_of_next blank,
    readBreaks_of_stays limit _ stays]

theorem readGap_newline (limit : Nat) (next : rest.head?.any isSkipped = false) :
    readGap limit ⟨'\n' :: rest, offset, line, column⟩ =
      some (⟨[], ['\n']⟩, ⟨rest, offset + 1, line + 1, 0⟩) := by
  let onBreak : Cursor := ⟨'\n' :: rest, offset, line, column⟩
  let onNext : Cursor := ⟨rest, offset + 1, line + 1, 0⟩
  have stillNext : onNext.next?.any isSpace = false := any_isSpace_of_stays next
  have last : readBreaks limit rest.length onNext = some ([], onNext) :=
    readBreaks_of_stays limit _ next
  have breaks : readBreaks limit (rest.length + 1) onBreak = some (['\n'], onNext) := by
    have atBreak : onBreak.atBreak = true := rfl
    have moved : onBreak.newline = onNext := rfl
    have kept : onBreak.lineBreak = '\n' := rfl
    simp [readBreaks, atBreak, moved, kept, Cursor.run_of_next stillNext,
      Cursor.skip_of_next stillNext, last]
  have still : onBreak.next?.any isSpace = false := rfl
  change readGap limit onBreak = some (⟨[], ['\n']⟩, onNext)
  rw [readGap, Cursor.skip_of_next still, Cursor.run_of_next still]
  simp only [onBreak, List.length_cons] at breaks ⊢
  rw [breaks]
  rfl

/-- A plain text does not go on at a colon that a space follows. -/
theorem plainTail_colon (fuel limit : Nat) (within : limit ≤ column) (inLine : 0 < column) :
    plainTail false limit (fuel + 1) ⟨':' :: ' ' :: rest, offset, line, column⟩ =
      some ⟨[], false, ⟨':' :: ' ' :: rest, offset, line, column⟩⟩ := by
  rw [plainTail, readGap_of_stays limit rfl]
  simp [Nat.not_lt_of_le within, Cursor.atMark, Nat.ne_of_gt inLine, Cursor.next?, plainWord,
    endsWord, isSpace, Gap.isBroken]

/-- In a block a plain text does not go on in the first column of the next line. -/
theorem plainTail_newline (fuel : Nat) {limit : Nat} (inBlock : 0 < limit)
    (next : rest.head?.any isSkipped = false) :
    plainTail false limit (fuel + 1) ⟨'\n' :: rest, offset, line, column⟩ =
      some ⟨[], true, ⟨rest, offset + 1, line + 1, 0⟩⟩ := by
  rw [plainTail, readGap_newline limit next]
  simp [inBlock, Gap.isBroken]

theorem readPlain_word (isWord : IsWord word) (limit : Nat) {broken : Bool} {after : Cursor}
    (ends : plainWord false rest = some [])
    (tail : ∀ fuel, plainTail false limit (fuel + 1)
      ⟨rest, offset + word.length, line, column + word.length⟩ = some ⟨[], broken, after⟩) :
    readPlain false limit ⟨word ++ rest, offset, line, column⟩ = some ⟨word, broken, after⟩ := by
  obtain ⟨nonempty, inside⟩ := isWord
  obtain ⟨fuel, enough⟩ : ∃ fuel, (word ++ rest).length = fuel + 1 := by
    refine Nat.exists_eq_add_one.mpr ?_
    rw [List.length_append]
    exact Nat.add_pos_left (List.length_pos_iff.mpr nonempty) _
  simp [readPlain, plainWord_append inside, ends, Cursor.advance_word inside, enough, tail]

end PathCompletion.Yaml
