import PathCompletion.Settings.Document
import PathCompletion.Yaml.Lexer
import PathCompletion.Yaml.Node

/-!
The format that configurations are kept in when the program runs: a YAML document with one mapping.
It is one document format among others, and no result about configurations is about it alone.
-/

namespace PathCompletion.Yaml

/-! ### Scalars -/

def boolTag : List Char := "tag:yaml.org,2002:bool".toList

def intTag : List Char := "tag:yaml.org,2002:int".toList

def typedText? (tag : List Char) (scalar : Scalar) : Option (List Char) :=
  if scalar.style = .plain || scalar.style = .literal && scalar.tag = some tag then
    some scalar.text
  else none

def parseBool? (text : List Char) : Option Bool :=
  if text ∈ ["true".toList, "True".toList, "TRUE".toList] then some true
  else if text ∈ ["false".toList, "False".toList, "FALSE".toList] then some false
  else none

/-- Decimal digits with no needless zero before them, or hexadecimal, octal or binary
digits after their mark; a plus sign may come first. -/
def parseNumber? (text : List Char) : Option Nat :=
  let unsigned := match text with
    | '+' :: rest => rest
    | _ => text
  let number := match unsigned with
    | '0' :: 'x' :: rest => digits? 16 rest
    | '0' :: 'o' :: rest => digits? 8 rest
    | '0' :: 'b' :: rest => digits? 2 rest
    | '0' :: _ :: _ => none
    | _ => digits? 10 unsigned
  number.bind fun n => if n < UInt64.size then some n else none

/-! ### Entries -/

/-- The entries of a document, each with the text of its key: every key is a scalar or refers
to one. An empty document has none; an empty text in quotes or in a block is not one. -/
def readEntries (anchored : List (Nat × Node)) : Node → Option (List (String × Option Scalar))
  | .mapping _ entries =>
      entries.mapM fun (key, value) =>
        (key.scalar? anchored).map fun scalar =>
          (String.ofList scalar.text, value.scalar? anchored)
  | .scalar _ content =>
      if content.style = .plain ∧ content.text = [] then some [] else none
  | _ => none

def entries? (text : String) : Option (List (String × Option Scalar)) := do
  let tokens ← tokenize text.toList
  match ← parseStream tokens with
  | some node => readEntries node.anchored node
  | none => return []

def format : DocumentFormat where
  Content := Option Scalar
  write fields :=
    some (DocumentFormat.lines (fields.map fun field => (field.1, field.2.text)))
  entries? := entries?
  flag? content := (content.bind (typedText? boolTag)).bind parseBool?
  number? content := (content.bind (typedText? intTag)).bind parseNumber?

def write (c : Config) : Except ConfigError String := c.write format

def read (text : String) : Except ConfigError Config := Config.read format text

end PathCompletion.Yaml
