import PathCompletion.Settings.Config

/-!
Configurations as documents. A configuration is a record of named booleans and numbers. How
records are laid out in a text, and how a text is taken apart, is up to a document format, which
comes from elsewhere; a field that a document leaves out has its default, and a field that is not
known is passed over.
-/

namespace PathCompletion

inductive Datum where
  | flag (b : Bool)
  | number (n : Nat)

def Datum.text : Datum → String
  | .flag b => toString b
  | .number n => toString n

def Datum.Fits : Datum → Prop
  | .flag _ => True
  | .number n => n < UInt64.size

structure DocumentFormat where
  /-- What a document has for the value of an entry. -/
  Content : Type
  write : List (String × Datum) → Option String
  /-- The entries of a document that is one mapping. -/
  entries? : String → Option (List (String × Content))
  flag? : Content → Option Bool
  number? : Content → Option Nat

/-! ### What is relied on -/

def isWordChar (c : Char) : Bool := c.isAlphanum || c = '_'

structure IsWord (word : List Char) : Prop where
  nonempty : word ≠ []
  inside : ∀ c ∈ word, isWordChar c = true

instance (word : List Char) : Decidable (IsWord word) :=
  decidable_of_iff (word ≠ [] ∧ word.all isWordChar = true)
    ⟨fun ⟨nonempty, inside⟩ => ⟨nonempty, List.all_eq_true.mp inside⟩,
      fun isWord => ⟨isWord.nonempty, List.all_eq_true.mpr isWord.inside⟩⟩

def nameLimit : Nat := 128

-- A letter comes first, so a name is no number, and it is longer than `false` and `null`.
structure IsName (name : String) : Prop where
  isWord : IsWord name.toList
  letter : name.toList.head?.any Char.isAlpha = true
  long : 5 < name.length
  short : name.length ≤ nameLimit

instance (name : String) : Decidable (IsName name) :=
  decidable_of_iff (IsWord name.toList ∧ name.toList.head?.any Char.isAlpha = true ∧
      5 < name.length ∧ name.length ≤ nameLimit)
    ⟨fun ⟨isWord, letter, long, short⟩ => ⟨isWord, letter, long, short⟩,
      fun isName => ⟨isName.isWord, isName.letter, isName.long, isName.short⟩⟩

/-- Decimal digits, with no zero that could be left out. -/
structure IsDecimal (digits : List Char) : Prop where
  nonempty : digits ≠ []
  leading : digits.head? = some '0' → digits = ['0']
  inside : ∀ c ∈ digits, c.isDigit = true

namespace DocumentFormat

def line (key value : String) : String := key ++ ": " ++ value ++ "\n"

def lines (entries : List (String × String)) : String :=
  String.join (entries.map fun (key, value) => line key value)

/-- The contract of the format with simple documents: it writes a record as lines `key: value` in
the order of its fields, and reads such lines entry by entry, each value as its plain text; plain
text that is the name of a boolean, or a decimal number of 64 bits, can be read as such. -/
structure Lawful (format : DocumentFormat) (plain : String → format.Content) : Prop where
  writes : ∀ fields : List (String × Datum), fields ≠ [] →
    (∀ field ∈ fields, IsName field.1 ∧ field.2.Fits) →
    format.write fields = some (lines (fields.map fun field => (field.1, field.2.text)))
  reads : ∀ entries : List (String × String), entries ≠ [] →
    (∀ entry ∈ entries, IsName entry.1 ∧ IsWord entry.2.toList) →
    format.entries? (lines entries) = some (entries.map fun entry => (entry.1, plain entry.2))
  flags : ∀ b : Bool, format.flag? (plain (toString b)) = some b
  numbers : ∀ digits : List Char, IsDecimal digits →
    Nat.ofDigitChars 10 digits 0 < UInt64.size →
    format.number? (plain (String.ofList digits)) = some (Nat.ofDigitChars 10 digits 0)

end DocumentFormat

namespace Config

def interproceduralField : String := "interprocedural"

def maxDepthField : String := "max_interprocedural_depth"

def maxIterationsField : String := "max_iterations"

def trackFieldsField : String := "track_instance_fields"

def fields (c : Config) : List (String × Datum) :=
  [(interproceduralField, .flag c.interprocedural), (maxDepthField, .number c.maxDepth),
    (maxIterationsField, .number c.maxIterations), (trackFieldsField, .flag c.trackFields)]

def write (format : DocumentFormat) (c : Config) : Except ConfigError String :=
  match format.write c.fields with
  | some text => .ok text
  | none => .error .malformed

/-- The field with a name: its default when absent; nothing when it is there twice or
cannot be read. -/
def readField {Content α : Type} (entries : List (String × Content)) (name : String)
    (standard : α) (read : Content → Option α) : Option α :=
  match entries.filter fun entry => entry.1 = name with
  | [] => some standard
  | [entry] => read entry.2
  | _ => none

def ofEntries? (format : DocumentFormat) (entries : List (String × format.Content)) :
    Option Config := do
  let standard : Config := default
  let interprocedural ←
    readField entries interproceduralField standard.interprocedural format.flag?
  let maxDepth ← readField entries maxDepthField standard.maxDepth format.number?
  let maxIterations ← readField entries maxIterationsField standard.maxIterations format.number?
  let trackFields ← readField entries trackFieldsField standard.trackFields format.flag?
  return { interprocedural, maxDepth, maxIterations, trackFields }

def read (format : DocumentFormat) (text : String) : Except ConfigError Config :=
  match (format.entries? text).bind (ofEntries? format) with
  | some config => config.validate
  | none => .error .malformed

end Config

end PathCompletion
