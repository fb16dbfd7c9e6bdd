import PathCompletion.Sorted.Set

/-!
Places in source files, and the piece of source text an operation was read from.
Columns and lengths count the bytes of the UTF-8 encoding.
-/

namespace PathCompletion

structure Span where
  startLine : Nat
  startCol : Nat
  endLine : Nat
  endCol : Nat
  deriving DecidableEq

namespace Span

def zero : Span := ⟨0, 0, 0, 0⟩

def limit : Nat := UInt32.size - 1

/-- The span of `length` bytes on one line; absent when its end lies beyond `limit`. -/
def onLine? (line startCol length : Nat) : Option Span :=
  if startCol + length ≤ limit then some ⟨line, startCol, line, startCol + length⟩ else none

def atOrBefore (line col line' col' : Nat) : Bool :=
  line < line' || line == line' && col ≤ col'

def contains (outer inner : Span) : Bool :=
  atOrBefore outer.startLine outer.startCol inner.startLine inner.startCol &&
    atOrBefore inner.endLine inner.endCol outer.endLine outer.endCol

instance : Key Span where
  key span := [span.startLine, span.startCol, span.endLine, span.endCol]
  injective := by
    rintro ⟨a, b, c, d⟩ ⟨a', b', c', d'⟩ same
    simp_all

end Span

structure SourceLocation where
  file : String
  span : Span
  deriving DecidableEq

namespace SourceLocation

def render (location : SourceLocation) : String :=
  location.file ++ s!":{location.span.startLine}:{location.span.startCol}"

/-- A character's number is one more than its code point, and zero ends the name, so
that a file comes before every file whose name it begins. -/
def fileKey (file : String) : List Nat := file.toList.map (·.toNat + 1) ++ [0]

theorem eq_of_fileKey_append {a b : List Char} {r s : List Nat}
    (same : a.map (·.toNat + 1) ++ 0 :: r = b.map (·.toNat + 1) ++ 0 :: s) :
    a = b ∧ r = s := by
  induction a generalizing b with
  | nil =>
      cases b with
      | nil => simpa using same
      | cons c rest => simp at same
  | cons c rest ih =>
      cases b with
      | nil => simp at same
      | cons c' rest' =>
          simp only [List.map_cons, List.cons_append, List.cons.injEq] at same
          have chars : c = c' := Char.toNat_inj.mp (Nat.succ.inj same.1)
          have tails := ih same.2
          exact ⟨by rw [chars, tails.1], tails.2⟩

instance : Key SourceLocation where
  key location := fileKey location.file ++ Key.key location.span
  injective := by
    rintro ⟨file, span⟩ ⟨file', span'⟩ same
    have parts := eq_of_fileKey_append (by simpa [fileKey] using same)
    have files : file = file' := String.toList_inj.mp parts.1
    rw [files, Key.injective _ _ parts.2]

end SourceLocation

structure Fragment where
  span : Span
  text : String
  deriving DecidableEq

namespace Fragment

def firstChars (text : String) : List Char := text.toList.takeWhile (· ≠ '\n')

def trimReturns (line : List Char) : List Char :=
  (line.reverse.dropWhile (· == '\r')).reverse

def firstLine (fragment : Fragment) : String :=
  String.ofList (trimReturns (firstChars fragment.text))

/-- The first line as measured: a line feed, or one carriage return before a line feed,
ends it; a carriage return at the end of the text belongs to it. -/
def measuredLine (text : String) : List Char :=
  let line := firstChars text
  if line.length < text.toList.length ∧ line.getLast? = some '\r' then line.dropLast else line

def byteLength (chars : List Char) : Nat := (String.ofList chars).utf8ByteSize

def atLine (line : Nat) (text : String) : Fragment :=
  ⟨⟨line, 0, line, byteLength (measuredLine text)⟩, text⟩

end Fragment

end PathCompletion
