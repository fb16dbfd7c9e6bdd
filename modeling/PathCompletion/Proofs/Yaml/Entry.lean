import PathCompletion.Proofs.Yaml.Word
import PathCompletion.Yaml.Node

/-!
Documents of entries. An entry is a line with a key, a colon, a space and a value, both words. The
tokens of such lines are one block mapping, which the first key opens and the end of the text
closes; and the tokens read as one mapping, entry by entry.
-/

namespace PathCompletion.Yaml

structure Entry where
  key : List Char
  value : List Char
  isKey : IsWord key
  isValue : IsWord value
  short : key.length ≤ PossibleKey.reach

namespace Entry

def line (e : Entry) : List Char := e.key ++ ':' :: ' ' :: (e.value ++ ['\n'])

def tokens (e : Entry) : List Token :=
  [.key, .scalar .plain e.key, .value, .scalar .plain e.value]

theorem line_append (e : Entry) (rest : List Char) :
    e.line ++ rest = e.key ++ ':' :: ' ' :: (e.value ++ '\n' :: rest) := by
  simp [line]

theorem head_lines (entries : List Entry) :
    (entries.flatMap line).head?.any isSkipped = false := by
  cases entries with
  | nil => rfl
  | cons e rest =>
      obtain ⟨nonempty, inside⟩ := e.isKey
      obtain ⟨c, key, same⟩ := List.exists_cons_of_ne_nil nonempty
      rw [List.flatMap_cons, line_append, same]
      exact isSkipped_of_isWordChar (inside c (same ▸ List.mem_cons_self))

end Entry

variable {rest : List Char} {offset line column : Nat} {tokens : List Token} {blocks : List Nat}

namespace Lexer

/-! ### Where tokens start -/

def isBlank (tabs : Bool) (c : Char) : Bool := c = ' ' || tabs && c = '\t'

theorem any_isBlank_of_stays {next : Option Char} (tabs : Bool)
    (stays : next.any isSkipped = false) :
    next.any (isBlank tabs) = false := by
  cases next <;> simp_all [isSkipped, isSpace, isBlank]

theorem skipBlanks_of_skip {cursor after : Cursor} (inFlow keyAllowed : Bool) (fuel : Nat)
    (noMark : cursor.next? ≠ some '\ufeff') (stays : after.next?.any isSkipped = false)
    (skips : ∀ tabs, cursor.skip (isBlank tabs) = after) :
    skipBlanks inFlow (fuel + 1) keyAllowed cursor = (keyAllowed, after) := by
  have inLine : after.atBreak = false := any_isBreak_of_stays stays
  have skipped (tabs : Bool) : cursor.skip (fun c => c = ' ' || tabs && c = '\t') = after :=
    skips tabs
  simp [skipBlanks, noMark, skipped, Cursor.skipComment_of_stays stays, inLine]

theorem skipBlanks_of_stays {cursor : Cursor} (inFlow keyAllowed : Bool) (fuel : Nat)
    (stays : cursor.next?.any isSkipped = false) :
    skipBlanks inFlow (fuel + 1) keyAllowed cursor = (keyAllowed, cursor) := by
  refine skipBlanks_of_skip inFlow keyAllowed fuel (fun next => ?_) stays fun tabs =>
    Cursor.skip_of_next (any_isBlank_of_stays tabs stays)
  rw [next] at stays
  exact absurd stays (by decide)

theorem skipBlanks_space (inFlow keyAllowed : Bool) (fuel : Nat)
    (next : rest.head?.any isSkipped = false) :
    skipBlanks inFlow (fuel + 1) keyAllowed ⟨' ' :: rest, offset, line, column⟩ =
      (keyAllowed, ⟨rest, offset + 1, line, column + 1⟩) :=
  skipBlanks_of_skip inFlow keyAllowed fuel (by simp [Cursor.next?]) next fun tabs =>
    Cursor.skip_one rfl (any_isBlank_of_stays tabs next)

theorem closeBlocks_of_inside {lexer : Lexer} {test : Nat → Bool}
    (inside : lexer.blocks.head?.any test = false) : lexer.closeBlocks test = lexer := by
  obtain ⟨cursor, tokens, blocks, keyAllowed, possible, outer, anchors⟩ := lexer
  cases blocks with
  | nil => simp [closeBlocks]
  | cons column rest =>
      have stays : test column = false := by simpa using inside
      simp [closeBlocks, stays]

/-- A lexer settles on the token that comes next, outside brackets, where the possible key may
still be one and no block is left. -/
theorem settle_of_skipBlanks {lexer : Lexer} {keyAllowed : Bool} {cursor : Cursor}
    (outside : lexer.outer = [])
    (skips : ∀ fuel, skipBlanks false (fuel + 1) lexer.keyAllowed lexer.cursor =
      (keyAllowed, cursor))
    (fresh : PossibleKey.age cursor lexer.possible = some lexer.possible)
    (inside : lexer.blocks.head?.any (cursor.column < ·) = false) :
    lexer.settle = some { lexer with keyAllowed, cursor } := by
  have noFlow : lexer.inFlow = false := by simp [inFlow, outside]
  simp [settle, noFlow, skips, ageKeys, fresh, outside, closeBlocks_of_inside, inside]

def atLine (rest : List Char) (offset line : Nat) (tokens : List Token) (blocks : List Nat) :
    Lexer :=
  ⟨⟨rest, offset, line, 0⟩, tokens, blocks, true, none, [], []⟩

def atColon (key rest : List Char) (offset line : Nat) (tokens : List Token)
    (blocks : List Nat) : Lexer :=
  { cursor := ⟨':' :: ' ' :: rest, offset + key.length, line, key.length⟩
    tokens := .scalar .plain key :: tokens
    blocks
    keyAllowed := false
    possible := some ⟨tokens.length, offset, line, 0, blocks.head? = some 0⟩
    outer := []
    anchors := [] }

def atValue (rest : List Char) (offset line column : Nat) (tokens : List Token) : Lexer :=
  ⟨⟨' ' :: rest, offset, line, column⟩, tokens, [0], false, none, [], []⟩

def opened (tokens : List Token) : List Nat → List Token
  | [] => .blockMapping :: tokens
  | _ => tokens

/-- A character of a word starts nothing but a plain text. -/
theorem lexToken_word {lexer : Lexer} {c : Char} {more : List Char}
    (inside : isWordChar c = true) (here : lexer.cursor.rest = c :: more) (next : Option Char) :
    lexer.lexToken c next = lexer.lexPlain := by
  have other (d : Char) (outside : isWordChar d = false) : c ≠ d := ne_of_isWordChar inside outside
  have plain : c ∉ indicators := by
    have outside : indicators.all (!isWordChar ·) = true := by decide
    intro listed
    exact other c (by simpa using List.all_eq_true.mp outside c listed) rfl
  have noMark : lexer.cursor.atMark = false := by
    simp [Cursor.atMark, here, other '-' rfl, other '.' rfl]
  have starts : startsPlain lexer.inFlow c next = true := by
    simp [startsPlain, not_blank_of_isWordChar inside, plain]
  simp [lexToken, noMark, starts, other '%' rfl, other '[' rfl, other ']' rfl, other '\x7b' rfl,
    other '\x7d' rfl, other ',' rfl, other '-' rfl, other '?' rfl, other ':' rfl, other '*' rfl,
    other '&' rfl, other '!' rfl, other '|' rfl, other '>' rfl, other '\x27' rfl, other '\x22' rfl]

theorem run_of_settle {lexer next : Lexer} {c : Char} {more : List Char} (fuel : Nat)
    (settled : lexer.settle = some next) (here : next.cursor.rest = c :: more) :
    run (fuel + 1) lexer = (next.lexToken c more.head?).bind (run fuel) := by
  simp [run, settled, here]

/-! ### The tokens of an entry -/

theorem lexPlain_key {key : List Char} (isKey : IsWord key)
    (outermost : blocks = [] ∨ blocks = [0]) :
    (atLine (key ++ ':' :: ' ' :: rest) offset line tokens blocks).lexPlain =
      some (atColon key rest offset line tokens blocks) := by
  have positive : 0 < key.length := List.length_pos_iff.mpr isKey.nonempty
  have within : blocks.head?.elim 0 (· + 1) ≤ 0 + key.length := by
    rcases outermost with rfl | rfl
    · exact Nat.zero_le _
    · exact Nat.zero_add _ ▸ positive
  have ends : plainWord false (':' :: ' ' :: rest) = some [] := rfl
  have read : readPlain false (blocks.head?.elim 0 (· + 1))
      ⟨key ++ ':' :: ' ' :: rest, offset, line, 0⟩ = some ⟨key, false, _⟩ :=
    readPlain_word isKey _ ends fun fuel =>
      plainTail_colon fuel _ within (Nat.zero_add _ ▸ positive)
  simp [lexPlain, saveKey, dropKey, atLine, inFlow, read, atColon, emit]

theorem run_key {key : List Char} (isKey : IsWord key) (fuel : Nat)
    (outermost : blocks = [] ∨ blocks = [0]) :
    run (fuel + 1) (atLine (key ++ ':' :: ' ' :: rest) offset line tokens blocks) =
      run fuel (atColon key rest offset line tokens blocks) := by
  obtain ⟨c, more, same⟩ := List.exists_cons_of_ne_nil isKey.nonempty
  have inside : isWordChar c = true := isKey.inside c (same ▸ List.mem_cons_self)
  have here : (atLine (key ++ ':' :: ' ' :: rest) offset line tokens blocks).cursor.rest =
      c :: (more ++ ':' :: ' ' :: rest) := by simp [atLine, same]
  have settled : (atLine (key ++ ':' :: ' ' :: rest) offset line tokens blocks).settle =
      some (atLine (key ++ ':' :: ' ' :: rest) offset line tokens blocks) := by
    refine settle_of_skipBlanks rfl (fun fuel => skipBlanks_of_stays _ _ fuel ?_) rfl ?_
    · simp [Cursor.next?, here, isSkipped_of_isWordChar inside]
    · rcases outermost with rfl | rfl <;> rfl
  rw [run_of_settle fuel settled here, lexToken_word inside here, lexPlain_key isKey outermost]
  rfl

/-- The token of the key, and before it that of the mapping, go before the token of the word. -/
theorem lexValue_colon {key : List Char} (outermost : blocks = [] ∨ blocks = [0]) :
    (atColon key rest offset line tokens blocks).lexValue =
      some (atValue rest (offset + key.length + 1) line (key.length + 1)
        (.value :: .scalar .plain key :: .key :: opened tokens blocks)) := by
  have behindWord : tokens.length + 1 - tokens.length = 1 := by omega
  have behindKey : tokens.length + 1 + 1 - tokens.length = 2 := by omega
  have width : ':'.utf8Size = 1 := rfl
  -- Only the first key opens the block, so only there a second token goes behind the key.
  rcases outermost with rfl | rfl
  · simp [lexValue, atColon, atValue, opened, emitAt, openBlock, emit, advance, inFlow,
      Cursor.advance, octets, behindWord, behindKey, width]
  · simp [lexValue, atColon, atValue, opened, emitAt, openBlock, emit, advance, inFlow,
      Cursor.advance, octets, behindWord, width]

theorem run_colon {key : List Char} (short : key.length ≤ PossibleKey.reach) (fuel : Nat)
    (outermost : blocks = [] ∨ blocks = [0]) :
    run (fuel + 1) (atColon key rest offset line tokens blocks) =
      run fuel (atValue rest (offset + key.length + 1) line (key.length + 1)
        (.value :: .scalar .plain key :: .key :: opened tokens blocks)) := by
  have settled : (atColon key rest offset line tokens blocks).settle =
      some (atColon key rest offset line tokens blocks) := by
    refine settle_of_skipBlanks rfl (fun fuel => skipBlanks_of_stays _ _ fuel rfl) ?_ ?_
    -- The key is still within reach of its colon.
    · simp [atColon, PossibleKey.age, PossibleKey.isStale, Nat.not_lt_of_le short]
    · rcases outermost with rfl | rfl <;> rfl
  have isValue : (atColon key rest offset line tokens blocks).lexToken ':' (some ' ') =
      (atColon key rest offset line tokens blocks).lexValue := by
    simp [lexToken, atColon, Cursor.atMark, endsWord, isSpace]
  rw [run_of_settle fuel settled rfl, List.head?_cons, isValue, lexValue_colon outermost]
  rfl

theorem run_value {value : List Char} (isValue : IsWord value) (fuel : Nat)
    (next : rest.head?.any isSkipped = false) :
    run (fuel + 1) (atValue (value ++ '\n' :: rest) offset line column tokens) =
      run fuel (atLine rest (offset + 1 + value.length + 1) (line + 1)
        (.scalar .plain value :: tokens) [0]) := by
  let onWord : Lexer :=
    ⟨⟨value ++ '\n' :: rest, offset + 1, line, column + 1⟩, tokens, [0], false, none, [], []⟩
  obtain ⟨c, more, same⟩ := List.exists_cons_of_ne_nil isValue.nonempty
  have inside : isWordChar c = true := isValue.inside c (same ▸ List.mem_cons_self)
  have here : onWord.cursor.rest = c :: (more ++ '\n' :: rest) := by simp [onWord, same]
  have settled : (atValue (value ++ '\n' :: rest) offset line column tokens).settle =
      some onWord := by
    refine settle_of_skipBlanks rfl (fun fuel => skipBlanks_space _ _ fuel ?_) rfl rfl
    simp [same, isSkipped_of_isWordChar inside]
  have ends : plainWord false ('\n' :: rest) = some [] := rfl
  -- The next line starts in the column of the block, so the text does not go on there.
  have read : readPlain false 1 onWord.cursor = some ⟨value, true, _⟩ :=
    readPlain_word isValue 1 ends fun fuel => plainTail_newline fuel Nat.one_pos next
  have lexed : onWord.lexPlain = some (atLine rest (offset + 1 + value.length + 1) (line + 1)
      (.scalar .plain value :: tokens) [0]) := by
    simp [lexPlain, saveKey, atLine, inFlow, onWord, read, emit]
  rw [run_of_settle fuel settled here, lexToken_word inside here, lexed]
  rfl

/-- The end of the text closes the block. -/
theorem run_end (fuel : Nat) :
    run (fuel + 1) (atLine [] offset line tokens [0]) = some (tokens.reverse ++ [.blockEnd]) := by
  have settled : (atLine [] offset line tokens [0]).settle =
      some (atLine [] offset line tokens [0]) :=
    settle_of_skipBlanks rfl (fun fuel => skipBlanks_of_stays _ _ fuel rfl) rfl rfl
  rw [run, settled]
  simp [atLine, leave, closeBlocks, inFlow, dropKey]

/-- The tokens of an entry take three steps. -/
theorem run_entry (e : Entry) (fuel : Nat) (outermost : blocks = [] ∨ blocks = [0])
    (next : rest.head?.any isSkipped = false) :
    run (fuel + 3) (atLine (e.line ++ rest) offset line tokens blocks) =
      run fuel (atLine rest (offset + e.key.length + 1 + 1 + e.value.length + 1) (line + 1)
        (e.tokens.reverse ++ opened tokens blocks) [0]) := by
  rw [e.line_append, run_key e.isKey _ outermost, run_colon e.short _ outermost,
    run_value e.isValue _ next]
  rfl

theorem run_entries (entries : List Entry) (fuel : Nat) :
    run (3 * entries.length + fuel + 1)
        (atLine (entries.flatMap Entry.line) offset line tokens [0]) =
      some (tokens.reverse ++ entries.flatMap Entry.tokens ++ [.blockEnd]) := by
  -- The tokens so far are kept; what the lines after this one add does not depend on them.
  induction entries generalizing offset line tokens with
  | nil => simpa using run_end fuel
  | cons e rest ih =>
      have steps : 3 * (e :: rest).length + fuel + 1 = 3 * rest.length + fuel + 1 + 3 := by
        rw [List.length_cons]
        omega
      rw [steps, List.flatMap_cons, run_entry e _ (.inr rfl) (Entry.head_lines rest), ih]
      simp [opened]

end Lexer

namespace Entry

theorem three_le_length_line (e : Entry) : 3 ≤ e.line.length := by
  simp [line]
  omega

theorem steps_le_length (entries : List Entry) :
    3 * entries.length ≤ (entries.flatMap Entry.line).length := by
  induction entries with
  | nil => exact Nat.le_refl 0
  | cons e rest ih =>
      have first := e.three_le_length_line
      rw [List.flatMap_cons, List.length_append, List.length_cons]
      omega

theorem isAllowed_of_mem_line {e : Entry} {c : Char} (inside : c ∈ e.line) :
    isAllowed c = true := by
  simp only [line, List.mem_append, List.mem_cons, List.not_mem_nil, or_false] at inside
  rcases inside with key | rfl | rfl | value | rfl
  · exact isAllowed_of_isWordChar (e.isKey.inside c key)
  · rfl
  · rfl
  · exact isAllowed_of_isWordChar (e.isValue.inside c value)
  · rfl

end Entry

/-- Lines of entries hold one block mapping. -/
theorem tokenize_lines (e : Entry) (rest : List Entry) :
    tokenize ((e :: rest).flatMap Entry.line) =
      some (.blockMapping :: (e :: rest).flatMap Entry.tokens ++ [.blockEnd]) := by
  have allowed : ((e :: rest).flatMap Entry.line).all isAllowed = true := by
    refine List.all_eq_true.mpr fun c inside => ?_
    obtain ⟨entry, -, inLine⟩ := List.mem_flatMap.mp inside
    exact Entry.isAllowed_of_mem_line inLine
  obtain ⟨fuel, enough⟩ := Nat.exists_eq_add_of_le (Entry.steps_le_length (e :: rest))
  have steps : 3 * (e :: rest).length + fuel + 1 = 3 * rest.length + fuel + 1 + 3 := by
    rw [List.length_cons]
    omega
  rw [tokenize, if_pos allowed, enough, steps, List.flatMap_cons]
  change Lexer.run _ (Lexer.atLine _ 0 0 [] []) = _
  rw [Lexer.run_entry e _ (.inl rfl) (Entry.head_lines rest), Lexer.run_entries]
  simp [Lexer.opened]

/-! ### The mapping of the entries -/

def Node.plain (text : List Char) : Node := .scalar none ⟨none, .plain, text⟩

def Entry.nodes (e : Entry) : Node × Node := (.plain e.key, .plain e.value)

namespace Node

variable {handles : Handles}

theorem parseUnless_scalar (handles : Handles) (kind : Token → Bool) (fuel : Nat) (place : Place)
    (text : List Char) (rest : List Token) (stays : kind (.scalar .plain text) = false) :
    parseUnless handles kind (fuel + 2) place (.scalar .plain text :: rest) =
      some (plain text, rest) := by
  simp [parseUnless, omitted, stays, parse, Properties.read, Properties.scalar, plain]

theorem blockEntries_tokens (handles : Handles) (entries : List Entry) (fuel : Nat)
    (rest : List Token) :
    blockEntries handles (entries.length + fuel + 3)
        (entries.flatMap Entry.tokens ++ .blockEnd :: rest) =
      some (entries.map Entry.nodes, rest) := by
  induction entries with
  | nil => simp [blockEntries]
  | cons e later ih =>
      -- An entry takes one step of the list, and inside it three at most.
      let more : List Token := later.flatMap Entry.tokens ++ .blockEnd :: rest
      have steps : (e :: later).length + fuel + 3 = later.length + fuel + 3 + 1 := by
        rw [List.length_cons]
        omega
      have key : parseUnless handles endsBlockPart (later.length + fuel + 3) .entry
          (.scalar .plain e.key :: .value :: .scalar .plain e.value :: more) =
            some (plain e.key, .value :: .scalar .plain e.value :: more) :=
        parseUnless_scalar handles _ _ _ _ _ rfl
      have value : blockValue handles (later.length + fuel + 3)
          (.value :: .scalar .plain e.value :: more) = some (plain e.value, more) := by
        rw [blockValue]
        exact parseUnless_scalar handles _ _ _ _ _ rfl
      rw [steps, List.flatMap_cons, List.append_assoc]
      change blockEntries handles _ (.key :: .scalar .plain e.key :: .value ::
        .scalar .plain e.value :: more) = _
      simp [blockEntries, key, value, more, ih, Entry.nodes]

end Node

theorem Entry.length_tokens (entries : List Entry) :
    (entries.flatMap Entry.tokens).length = 4 * entries.length := by
  induction entries with
  | nil => rfl
  | cons e rest ih =>
      rw [List.flatMap_cons, List.length_append, ih, List.length_cons]
      simp only [tokens, List.length_cons, List.length_nil]
      omega

/-- The tokens of entries are a document with one mapping. -/
theorem parseStream_tokens (entries : List Entry) :
    parseStream (.blockMapping :: entries.flatMap Entry.tokens ++ [.blockEnd]) =
      some (some (.mapping none (entries.map Entry.nodes))) := by
  have steps : Node.fuel (.blockMapping :: entries.flatMap Entry.tokens ++ [.blockEnd]) =
      entries.length + (11 * entries.length + 5) + 3 + 1 := by
    simp only [Node.fuel, List.cons_append, List.length_cons, List.length_append,
      Entry.length_tokens, List.length_nil]
    omega
  have parsed : parseDocument (.blockMapping :: entries.flatMap Entry.tokens ++ [.blockEnd]) =
      some (.mapping none (entries.map Entry.nodes), []) := by
    simp only [List.cons_append] at steps
    simp [parseDocument, readDirectives, declaredHandles, steps, Node.parse, Properties.read,
      Node.blockEntries_tokens]
  rw [parseStream, parsed]
  rfl

end PathCompletion.Yaml
