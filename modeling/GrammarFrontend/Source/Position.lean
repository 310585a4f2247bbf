import GrammarFrontend.Source.Size

/-! Places in a source text. A position counts lines and columns from one and bytes of the
UTF-8 encoding from zero; a span runs from one position up to, and not including, another.
-/

namespace GrammarFrontend

/-- The number of bytes that a text takes in UTF-8. -/
def utf8Length : List Char → Nat
  | [] => 0
  | c :: text => c.utf8Size + utf8Length text

@[simp]
theorem utf8Length_append (first rest : List Char)
    : utf8Length (first ++ rest) = utf8Length first + utf8Length rest := by
  induction first with
  | nil => simp [utf8Length]
  | cons c first ih => simp [utf8Length, ih, Nat.add_assoc]

/-- A place in a source text; the column counts code points. -/
structure Position where
  line : Nat
  column : Nat
  offset : Nat
deriving DecidableEq, Repr

namespace Position

/-- The first place of every text. -/
def start : Position := { line := 1, column := 1, offset := 0 }

instance : Inhabited Position := ⟨start⟩

/-- A line feed begins the next line; any other character moves one column on. -/
def advance (p : Position) (c : Char) : Position :=
  if c = '\n' then
    { line := p.line + 1, column := 1, offset := p.offset + c.utf8Size }
  else
    { line := p.line, column := p.column + 1, offset := p.offset + c.utf8Size }

/-- The place reached from `p` by moving over a whole text. -/
def advanceOver (p : Position) (text : List Char) : Position :=
  text.foldl advance p

@[simp]
theorem advanceOver_nil (p : Position) : p.advanceOver [] = p := rfl

@[simp]
theorem advanceOver_cons (p : Position) (c : Char) (text : List Char)
    : p.advanceOver (c :: text) = (p.advance c).advanceOver text := rfl

theorem advanceOver_append (p : Position) (first rest : List Char)
    : p.advanceOver (first ++ rest) = (p.advanceOver first).advanceOver rest :=
  List.foldl_append

theorem advance_offset (p : Position) (c : Char)
    : (p.advance c).offset = p.offset + c.utf8Size := by
  unfold advance
  split <;> rfl

theorem advanceOver_offset (p : Position) (text : List Char)
    : (p.advanceOver text).offset = p.offset + utf8Length text := by
  induction text generalizing p with
  | nil => rfl
  | cons c text ih => simp [ih, advance_offset, utf8Length, Nat.add_assoc]

/-- Positions compare by line, then by column, then by offset. -/
instance : Ord Position where
  compare p q :=
    (compare p.line q.line).then
      ((compare p.column q.column).then (compare p.offset q.offset))

end Position

/-- The part of a source text from `start` up to, and not including, `stop`. -/
structure Span where
  start : Position
  stop : Position
deriving DecidableEq, Repr, Inhabited

namespace Span

/-- The empty span at one place. -/
def point (p : Position) : Span := { start := p, stop := p }

/-- The length in bytes; offsets are 64-bit words, so the difference of two of them wraps. -/
def length (s : Span) : Nat :=
  if s.start.offset ≤ s.stop.offset then
    s.stop.offset - s.start.offset
  else
    sizeBound - (s.start.offset - s.stop.offset)

def isEmpty (s : Span) : Bool := s.length == 0

end Span

end GrammarFrontend
