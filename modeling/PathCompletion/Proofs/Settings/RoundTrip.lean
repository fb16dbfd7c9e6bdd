import Mathlib.Data.List.Nodup
import PathCompletion.Proofs.Yaml.Entry
import PathCompletion.Settings.Yaml

/-!
Configurations survive documents. What is written for a configuration are four entries, and these
are read back field by field: the decimal digits of a number read as the number. So, in whatever
format keeps its contract, a configuration that was written is read as itself, and refused only
where its numbers are out of range. YAML is such a format.
-/

namespace PathCompletion

/-! ### Decimal numbers -/

/-- There is no needless zero before the digits. -/
theorem head_toDigits {n : Nat} (positive : 0 < n) : (Nat.toDigits 10 n).head? ≠ some '0' := by
  induction n using Nat.strongRecOn with
  | ind n ih =>
      by_cases small : n < 10
      · simpa [Nat.toDigits_of_lt_base small] using Nat.ne_of_gt positive
      · have tens := ih (n / 10) (by omega) (by omega)
        rw [Nat.toDigits_of_base_le (by decide) (Nat.le_of_not_lt small), List.head?_append]
        cases first : (Nat.toDigits 10 (n / 10)).head? with
        | none => simp at first
        | some c => simpa [first] using tens

theorem isDecimal_toDigits (n : Nat) : IsDecimal (Nat.toDigits 10 n) where
  nonempty := Nat.toDigits_ne_nil
  leading zero := by
    rcases Nat.eq_zero_or_pos n with rfl | positive
    · rfl
    · exact absurd zero (head_toDigits positive)
  inside _ member := Nat.isDigit_of_mem_toDigits (by decide) (by decide) member

theorem IsDecimal.isWord {digits : List Char} (decimal : IsDecimal digits) : IsWord digits where
  nonempty := decimal.nonempty
  inside c member := by simp [isWordChar, Char.isAlphanum, decimal.inside c member]

theorem Datum.isWord_text (d : Datum) : IsWord d.text.toList := by
  cases d with
  | flag b => cases b <;> decide
  | number n =>
      rw [text, Nat.toString_eq_ofList_toDigits, String.toList_ofList]
      exact (isDecimal_toDigits n).isWord

namespace Yaml

theorem digit?_of_isDigit {c : Char} (digit : c.isDigit = true) :
    digit? 10 c = some (c.toNat - '0'.toNat) := by
  have range : 0x30 ≤ c.toNat ∧ c.toNat ≤ 0x39 := Char.isDigit_iff_toNat.mp digit
  have least : '0' ≤ c := Char.le_def.mpr (UInt32.le_iff_toNat_le.mpr range.1)
  have greatest : c ≤ '9' := Char.le_def.mpr (UInt32.le_iff_toNat_le.mpr range.2)
  have small : c.toNat - '0'.toNat < 10 := by
    change c.toNat - 0x30 < 10
    omega
  simp only [digit?, least, greatest, and_self, ↓reduceIte, Option.bind_some, small]

theorem digits?_of_digits {digits : List Char} (nonempty : digits ≠ [])
    (inside : ∀ c ∈ digits, c.isDigit = true) :
    digits? 10 digits = some (Nat.ofDigitChars 10 digits 0) := by
  have read (init : Nat) : digits.foldlM (fun n c => (digit? 10 c).map (n * 10 + ·)) init =
      some (Nat.ofDigitChars 10 digits init) := by
    clear nonempty
    induction digits generalizing init with
    | nil => simp
    | cons c rest ih =>
        have later := ih fun d member => inside d (List.mem_cons_of_mem c member)
        rw [List.foldlM_cons, digit?_of_isDigit (inside c List.mem_cons_self),
          Nat.ofDigitChars_cons, Nat.mul_comm]
        exact later _
  rw [digits?, if_neg (by simpa using nonempty), read]

theorem parseNumber?_of_isDecimal {digits : List Char} (decimal : IsDecimal digits)
    (fits : Nat.ofDigitChars 10 digits 0 < UInt64.size) :
    parseNumber? digits = some (Nat.ofDigitChars 10 digits 0) := by
  have read := digits?_of_digits decimal.nonempty decimal.inside
  cases digits with
  | nil => exact absurd rfl decimal.nonempty
  | cons c rest =>
      have noSign : c ≠ '+' := by
        rintro rfl
        exact absurd (decimal.inside '+' List.mem_cons_self) (by decide)
      -- A zero that comes first is all there is, so no other base is tried.
      by_cases zero : c = '0'
      · obtain rfl : rest = [] := by
          simpa [zero] using decimal.leading (by rw [zero]; rfl)
        rw [zero]
        decide
      · simp [parseNumber?, noSign, zero, read, fits]

/-! ### YAML documents -/

theorem toList_lines (entries : List Entry) :
    (DocumentFormat.lines
        (entries.map fun e => (String.ofList e.key, String.ofList e.value))).toList =
      entries.flatMap Entry.line := by
  simp [DocumentFormat.lines, DocumentFormat.line, List.flatMap_map, Function.comp_def]
  rfl

/-- Words under names make entries: a name is short enough for a key. -/
theorem exists_entries {entries : List (String × String)}
    (simple : ∀ entry ∈ entries, IsName entry.1 ∧ IsWord entry.2.toList) :
    ∃ made : List Entry,
      made.map (fun e => (String.ofList e.key, String.ofList e.value)) = entries := by
  induction entries with
  | nil => exact ⟨[], rfl⟩
  | cons first rest ih =>
      obtain ⟨⟨isName, isWord⟩, later⟩ := List.forall_mem_cons.mp simple
      obtain ⟨made, same⟩ := ih later
      have inReach : first.1.toList.length ≤ PossibleKey.reach := by
        rw [String.length_toList]
        exact Nat.le_trans isName.short (by decide)
      exact ⟨⟨first.1.toList, first.2.toList, isName.isWord, isWord, inReach⟩ :: made,
        by simp [same]⟩

theorem anchoredEntries_nodes (entries : List Entry) :
    Node.anchoredEntries (entries.map Entry.nodes) = [] := by
  induction entries with
  | nil => rfl
  | cons e rest ih => simpa [Node.anchoredEntries, Entry.nodes, Node.anchored, Node.plain] using ih

def plainContent (text : String) : Option Scalar := some ⟨none, .plain, text.toList⟩

theorem readEntries_nodes (entries : List Entry) :
    readEntries [] (.mapping none (entries.map Entry.nodes)) =
      some (entries.map fun e => (String.ofList e.key, plainContent (String.ofList e.value))) := by
  induction entries with
  | nil => rfl
  | cons e rest ih =>
      rw [readEntries] at ih ⊢
      rw [List.map_cons, List.mapM_cons, ih]
      simp [Entry.nodes, Node.plain, Node.scalar?, plainContent]

theorem entries?_lines {entries : List Entry} (nonempty : entries ≠ []) :
    entries? (DocumentFormat.lines
        (entries.map fun e => (String.ofList e.key, String.ofList e.value))) =
      some (entries.map fun e => (String.ofList e.key, plainContent (String.ofList e.value))) := by
  obtain ⟨e, rest, rfl⟩ := List.exists_cons_of_ne_nil nonempty
  have anchored : Node.anchored (.mapping none ((e :: rest).map Entry.nodes)) = [] := by
    simp only [Node.anchored, anchoredEntries_nodes]
    rfl
  rw [entries?, toList_lines, tokenize_lines]
  simp only [Option.bind_eq_bind, Option.bind_some, parseStream_tokens, anchored,
    readEntries_nodes]

/-- YAML keeps the contract of document formats. -/
theorem format_lawful : format.Lawful plainContent where
  writes _ _ _ := rfl
  reads entries nonempty simple := by
    obtain ⟨made, rfl⟩ := exists_entries simple
    rw [List.map_map]
    exact entries?_lines fun none => nonempty (by rw [none]; rfl)
  flags b := by cases b <;> decide
  numbers digits decimal fits := by
    change parseNumber? (String.ofList digits).toList = _
    rw [String.toList_ofList]
    exact parseNumber?_of_isDecimal decimal fits

end Yaml

namespace Config

/-! ### Fields -/

theorem filter_name {Content : Type} {entries : List (String × Content)} {name : String}
    {content : Content} (distinct : (entries.map Prod.fst).Nodup)
    (listed : (name, content) ∈ entries) :
    (entries.filter fun entry => entry.1 = name) = [(name, content)] := by
  induction entries with
  | nil => contradiction
  | cons first rest ih =>
      obtain ⟨apart, distinctRest⟩ := List.nodup_cons.mp distinct
      rcases List.mem_cons.mp listed with rfl | later
      · have others : (rest.filter fun entry => entry.1 = name) = [] := by
          refine List.filter_eq_nil_iff.mpr fun other inside same => apart ?_
          exact List.mem_map.mpr ⟨other, inside, of_decide_eq_true same⟩
        simp [others]
      · have other : first.1 ≠ name := fun same =>
          apart (same ▸ List.mem_map_of_mem (f := Prod.fst) later)
        simp [other, ih distinctRest later]

/-- Where no name is there twice, a field finds its entry. -/
theorem readField_of_mem {Content α : Type} {entries : List (String × Content)} {name : String}
    {content : Content} (distinct : (entries.map Prod.fst).Nodup)
    (listed : (name, content) ∈ entries) (standard : α) (read : Content → Option α) :
    readField entries name standard read = read content := by
  rw [readField, filter_name distinct listed]

theorem names_fields (c : Config) : c.fields.map Prod.fst =
    [interproceduralField, maxDepthField, maxIterationsField, trackFieldsField] := rfl

theorem isName_of_mem {c : Config} {field : String × Datum} (listed : field ∈ c.fields) :
    IsName field.1 := by
  have name : field.1 ∈ c.fields.map Prod.fst := List.mem_map_of_mem listed
  have all : ∀ name ∈ [interproceduralField, maxDepthField, maxIterationsField, trackFieldsField],
      IsName name := by decide
  exact all _ (names_fields c ▸ name)

theorem fits_of_mem {c : Config} (depth : c.maxDepth < UInt64.size)
    (iterations : c.maxIterations < UInt64.size) {field : String × Datum}
    (listed : field ∈ c.fields) : field.2.Fits := by
  simp only [fields, List.mem_cons, List.not_mem_nil, or_false] at listed
  rcases listed with rfl | rfl | rfl | rfl
  · trivial
  · exact depth
  · exact iterations
  · trivial

section

variable {format : DocumentFormat} {plain : String → format.Content} (lawful : format.Lawful plain)

include lawful

theorem number?_text {n : Nat} (fits : n < UInt64.size) :
    format.number? (plain (Datum.number n).text) = some n := by
  have value := Nat.ofDigitChars_toDigits (b := 10) (n := n) (by decide) (by decide)
  have read := lawful.numbers _ (isDecimal_toDigits n) (value.symm ▸ fits)
  rw [value] at read
  rw [Datum.text, Nat.toString_eq_ofList_toDigits]
  exact read

theorem ofEntries?_fields (c : Config) (depth : c.maxDepth < UInt64.size)
    (iterations : c.maxIterations < UInt64.size) :
    ofEntries? format (c.fields.map fun field => (field.1, plain field.2.text)) = some c := by
  have distinct : ((c.fields.map fun field => (field.1, plain field.2.text)).map
      Prod.fst).Nodup := by
    rw [List.map_map]
    change [interproceduralField, maxDepthField, maxIterationsField, trackFieldsField].Nodup
    decide
  have field {α : Type} {name : String} {d : Datum} (listed : (name, d) ∈ c.fields)
      (standard : α) (read : format.Content → Option α) :=
    readField_of_mem distinct (List.mem_map_of_mem listed) standard read
  have first : (interproceduralField, .flag c.interprocedural) ∈ c.fields := by simp [fields]
  have second : (maxDepthField, .number c.maxDepth) ∈ c.fields := by simp [fields]
  have third : (maxIterationsField, .number c.maxIterations) ∈ c.fields := by simp [fields]
  have last : (trackFieldsField, .flag c.trackFields) ∈ c.fields := by simp [fields]
  have flag (b : Bool) : format.flag? (plain (Datum.flag b).text) = some b := lawful.flags b
  -- No two fields have one name, so each finds its own entry.
  simp only [ofEntries?, field first, field second, field third, field last, flag,
    number?_text lawful depth, number?_text lawful iterations, Option.bind_eq_bind,
    Option.bind_some]
  rfl

end

/-- Only a number that is out of range is refused. -/
theorem validate_cases (c : Config) : c.validate = .ok c ∨
    ∃ field value least greatest hint,
      c.validate = .error (.outOfRange field value least greatest hint) := by
  have refused (field : String) (value limit : Nat) (hint : String) {e : ConfigError}
      (found : rangeError? field value limit hint = some e) :
      e = .outOfRange field (toString value) "1" (toString limit) hint := by
    unfold rangeError? at found
    split at found
    · exact (Option.some.inj found).symm
    · contradiction
  unfold validate
  cases found : c.error? with
  | none => exact .inl rfl
  | some e =>
      simp only [error?, Option.orElse_eq_orElse, Option.orElse_eq_or,
        Option.or_eq_some_iff] at found
      rcases found with depth | ⟨-, iterations⟩
      · exact .inr ⟨_, _, _, _, _, congrArg Except.error (refused _ _ _ _ depth)⟩
      · exact .inr ⟨_, _, _, _, _, congrArg Except.error (refused _ _ _ _ iterations)⟩

/-- In a format that keeps its contract, a configuration of 64-bit numbers can be written, and what
was written is read with the same checks as before: it is the configuration again, or refused
with the same range error. -/
theorem read_write {format : DocumentFormat} {plain : String → format.Content}
    (lawful : format.Lawful plain) (c : Config) (depth : c.maxDepth < UInt64.size)
    (iterations : c.maxIterations < UInt64.size) :
    ∃ text, c.write format = .ok text ∧ read format text = c.validate ∧ (c.validate = .ok c ∨
      ∃ field value least greatest hint,
        c.validate = .error (.outOfRange field value least greatest hint)) := by
  have written := lawful.writes c.fields nofun fun field listed =>
    ⟨isName_of_mem listed, fits_of_mem depth iterations listed⟩
  have entries := lawful.reads (c.fields.map fun field => (field.1, field.2.text)) nofun
    (List.forall_mem_map.mpr fun field listed => ⟨isName_of_mem listed, field.2.isWord_text⟩)
  refine ⟨_, by rw [write, written], ?_, c.validate_cases⟩
  rw [read, entries, List.map_map, Option.bind_some]
  simp only [Function.comp_def, ofEntries?_fields lawful c depth iterations]

def tireless : Config := { Preset.thorough.config with maxIterations := UInt64.size - 1 }

theorem tireless_read_write :
    Yaml.format.Lawful Yaml.plainContent ∧
      tireless.maxDepth < UInt64.size ∧ tireless.maxIterations < UInt64.size ∧
      (Yaml.write tireless).bind Yaml.read = .error (.outOfRange "max_iterations"
        "18446744073709551615" "1" "100000" "Typical CFGs converge in fewer than 10 passes") ∧
      (Yaml.write Preset.thorough.config).bind Yaml.read = .ok Preset.thorough.config := by
  have depth : tireless.maxDepth < UInt64.size := by decide
  have iterations : tireless.maxIterations < UInt64.size := by decide
  obtain ⟨text, written, refused, -⟩ := read_write Yaml.format_lawful tireless depth iterations
  obtain ⟨other, writtenToo, accepted, -⟩ :=
    read_write Yaml.format_lawful Preset.thorough.config (by decide) (by decide)
  refine ⟨Yaml.format_lawful, depth, iterations, ?_, ?_⟩
  · rw [Yaml.write, written]
    exact refused
  · rw [Yaml.write, writtenToo]
    exact accepted

end Config

end PathCompletion
