import PathCompletion.Yaml.Cursor
import PathCompletion.Yaml.Plain

/-!
Texts between quotes. Between single quotes a quote is written twice. Between double quotes a
backslash starts an escape, and before a line break it joins the lines.
-/

namespace PathCompletion.Yaml

/-! ### Escapes -/

def shortEscapes : List (Char × Char) :=
  [('0', '\x00'), ('a', '\x07'), ('b', '\x08'), ('t', '\t'), ('\t', '\t'), ('n', '\n'),
    ('v', '\x0b'), ('f', '\x0c'), ('r', '\r'), ('e', '\x1b'), (' ', ' '), ('\x22', '\x22'),
    ('/', '/'), ('\x5c', '\x5c'), ('N', '\u0085'), ('_', '\u00a0'), ('L', '\u2028'),
    ('P', '\u2029')]

def escapeDigits? : Char → Option Nat
  | 'x' => some 2
  | 'u' => some 4
  | 'U' => some 8
  | _ => none

def readEscape : List Char → Option (Char × Nat)
  | [] => none
  | letter :: rest =>
      match shortEscapes.lookup letter with
      | some c => some (c, 1)
      | none => do
          let count ← escapeDigits? letter
          let digits := rest.take count
          let code ← digits? 16 digits
          if digits.length = count ∧ code.isValidChar then return (Char.ofNat code, count + 1)
          else none

/-! ### Words -/

inductive Quotes where
  | single
  | double
  deriving DecidableEq

def Quotes.char : Quotes → Char
  | .single => '\x27'
  | .double => '\x22'

structure QuotedWord where
  text : List Char
  /-- How many characters write it, with the backslash that joins two lines. -/
  width : Nat
  /-- Whether it joins this line to the next. -/
  joins : Bool

namespace QuotedWord

def empty : QuotedWord := ⟨[], 0, false⟩

def cons (text : List Char) (word : QuotedWord) : QuotedWord :=
  ⟨text ++ word.text, word.width + 1, word.joins⟩

end QuotedWord

def quotedWord (quotes : Quotes) : Nat → List Char → Option QuotedWord
  | _, [] => some .empty
  | escaped + 1, _ :: rest => (quotedWord quotes escaped rest).map (.cons [])
  | 0, c :: rest =>
      if isSpace c || isBreak c then some .empty
      else if c = quotes.char then
        if quotes = .single && rest.head? = some c then
          (quotedWord quotes 1 rest).map (.cons [c])
        else some .empty
      else if quotes = .double && c = '\x5c' then
        if rest.head?.any isBreak then some ⟨[], 1, true⟩
        else do
          let (character, width) ← readEscape rest
          let word ← quotedWord quotes width rest
          return .cons [character] word
      else (quotedWord quotes 0 rest).map (.cons [c])

/-! ### Texts -/

def quotedGap (joined : Bool) (cursor : Cursor) : Option (List Char × Cursor) :=
  if joined then readBreaks 0 cursor.rest.length (cursor.newline.skip isSpace)
  else (readGap 0 cursor).map fun (gap, after) => (gap.text, after)

/-- The text from here to the closing quote. A mark between documents may not stand in it. -/
def quotedTail (quotes : Quotes) : Nat → Cursor → Option (List Char × Cursor)
  | 0, _ => none
  | fuel + 1, cursor =>
      if cursor.atMark then none
      else do
        let word ← quotedWord quotes 0 cursor.rest
        let after := cursor.advance word.width
        match after.rest with
        | [] => none
        | c :: _ =>
            if c = quotes.char then return (word.text, after.advance 1)
            else
              let (gap, next) ← quotedGap word.joins after
              let (more, last) ← quotedTail quotes fuel next
              return (word.text ++ gap ++ more, last)

def readQuoted (quotes : Quotes) (cursor : Cursor) : Option (List Char × Cursor) :=
  quotedTail quotes cursor.rest.length (cursor.advance 1)

end PathCompletion.Yaml
