/-!
Characters and digits, and a place in a document: the characters from there on, how far it is
from the start, and the line and column, both from 0. A column counts characters, a tab as one;
the distance from the start counts the octets that the characters take.
-/

namespace PathCompletion.Yaml

def isSpace (c : Char) : Bool := c = ' ' || c = '\t'

def isBreak (c : Char) : Bool :=
  c = '\n' || c = '\r' || c = '\u0085' || c = '\u2028' || c = '\u2029'

def allowedRanges : List (Nat × Nat) :=
  [(0x9, 0xA), (0xD, 0xD), (0x20, 0x7E), (0x85, 0x85), (0xA0, 0xD7FF), (0xE000, 0xFFFD),
    (0x10000, 0x10FFFF)]

def isAllowed (c : Char) : Bool :=
  allowedRanges.any fun (first, last) => first ≤ c.toNat && c.toNat ≤ last

def endsWord (next : Option Char) : Bool := next.all fun c => isSpace c || isBreak c

def octets (s : List Char) : Nat := s.foldr (fun ch sum => ch.utf8Size + sum) 0

def digit? (base : Nat) (c : Char) : Option Nat :=
  let value :=
    if '0' ≤ c ∧ c ≤ '9' then some (c.toNat - '0'.toNat)
    else if 'a' ≤ c ∧ c ≤ 'f' then some (c.toNat - 'a'.toNat + 10)
    else if 'A' ≤ c ∧ c ≤ 'F' then some (c.toNat - 'A'.toNat + 10)
    else none
  value.bind fun d => if d < base then some d else none

def digits? (base : Nat) (s : List Char) : Option Nat :=
  if s.isEmpty then none
  else s.foldlM (fun n c => (digit? base c).map (n * base + ·)) 0

structure Cursor where
  rest : List Char
  offset : Nat := 0
  line : Nat := 0
  column : Nat := 0
  deriving DecidableEq

namespace Cursor

def advance (cursor : Cursor) (count : Nat) : Cursor where
  rest := cursor.rest.drop count
  offset := cursor.offset + octets (cursor.rest.take count)
  line := cursor.line
  column := cursor.column + count

/-- How long the line break here is: a return and a line feed are one. -/
def breakWidth : List Char → Nat
  | '\r' :: '\n' :: _ => 2
  | _ => 1

def newline (cursor : Cursor) : Cursor where
  rest := cursor.rest.drop (breakWidth cursor.rest)
  offset := cursor.offset + octets (cursor.rest.take (breakWidth cursor.rest))
  line := cursor.line + 1
  column := 0

/-- What a text keeps of the line break here: a line feed, but for the separators of lines
and paragraphs. -/
def lineBreak (cursor : Cursor) : Char :=
  match cursor.rest with
  | '\u2028' :: _ => '\u2028'
  | '\u2029' :: _ => '\u2029'
  | _ => '\n'

def next? (cursor : Cursor) : Option Char := cursor.rest.head?

def atBreak (cursor : Cursor) : Bool := cursor.next?.any isBreak

def run (cursor : Cursor) (test : Char → Bool) : List Char := cursor.rest.takeWhile test

def skip (cursor : Cursor) (test : Char → Bool) : Cursor :=
  cursor.advance (cursor.run test).length

def skipComment (cursor : Cursor) : Cursor :=
  if cursor.next? = some '#' then cursor.skip (!isBreak ·) else cursor

def finishLine (cursor : Cursor) : Option Cursor :=
  let after := (cursor.skip isSpace).skipComment
  match after.rest with
  | [] => some after
  | c :: _ => if isBreak c then some after.newline else none

/-- Whether three dashes or three dots stand here, at the start of a line and as a word. -/
def atMark (cursor : Cursor) : Bool :=
  cursor.column = 0 &&
    (cursor.rest.take 3 = ['-', '-', '-'] || cursor.rest.take 3 = ['.', '.', '.']) &&
    endsWord cursor.rest[3]?

end Cursor

end PathCompletion.Yaml
