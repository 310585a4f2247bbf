import GrammarFrontend.Source.Position

/-! A cursor over a source text: the whole text, what is left of it, and the position reached.
A mark remembers a place so that a cursor can return to it.
-/

namespace GrammarFrontend

structure Cursor where
  source : List Char
  rest : List Char
  position : Position
deriving DecidableEq, Repr, Inhabited

/-- A place that a cursor was at. -/
structure Mark where
  rest : List Char
  position : Position
deriving DecidableEq, Repr, Inhabited

/-- Why a cursor cannot be moved to an offset. -/
inductive SeekError where
  | outOfBounds (offset length : Nat)
  | notCharBoundary (offset : Nat)
deriving DecidableEq, Repr

namespace SeekError

def name : SeekError → String
  | outOfBounds .. => "OutOfBounds"
  | notCharBoundary _ => "NotCharBoundary"

def message : SeekError → String
  | outOfBounds offset length =>
      "seek offset " ++ Nat.repr offset ++ " is past the end of input (" ++ Nat.repr length
        ++ " bytes)"
  | notCharBoundary offset =>
      "seek offset " ++ Nat.repr offset ++ " is not on a UTF-8 character boundary"

end SeekError

/-- An offset is a boundary of a text when some characters at its front take that many bytes. -/
def isCharBoundary : List Char → Nat → Bool
  | _, 0 => true
  | [], _ + 1 => false
  | c :: text, n + 1 => c.utf8Size ≤ n + 1 && isCharBoundary text (n + 1 - c.utf8Size)

/-- What of `text` comes before `rest`, where `rest` is what is left of `text` at some place. -/
def textBefore (text rest : List Char) : List Char :=
  text.take (text.length - rest.length)

@[simp]
theorem textBefore_append (text rest : List Char) : textBefore (text ++ rest) rest = text := by
  simp [textBefore]

theorem textBefore_append_of_suffix {text rest : List Char} (h : rest <:+ text)
    : textBefore text rest ++ rest = text := by
  obtain ⟨consumed, rfl⟩ := h
  simp

/-- Before a place where less is left stands something. -/
theorem textBefore_ne_nil {text rest : List Char} (h : rest <:+ text)
    (hlt : rest.length < text.length)
    : textBefore text rest ≠ [] := by
  intro hnil
  have happ := textBefore_append_of_suffix h
  rw [hnil, List.nil_append] at happ
  rw [happ] at hlt
  exact Nat.lt_irrefl _ hlt

namespace Cursor

def ofText (source : List Char) : Cursor :=
  { source, rest := source, position := .start }

def offset (c : Cursor) : Nat := c.position.offset

def atEnd (c : Cursor) : Bool := c.rest.isEmpty

/-- The character `k` places ahead. -/
def peek (c : Cursor) (k : Nat) : Option Char := c.rest[k]?

/-- Moves past one character, if there is one. -/
def advance (c : Cursor) : Cursor :=
  match c.rest with
  | [] => c
  | next :: rest => { c with rest, position := c.position.advance next }

/-- Moves past a text that the remaining input starts with. -/
def advanceOver (c : Cursor) (text : List Char) : Cursor :=
  { c with rest := c.rest.drop text.length, position := c.position.advanceOver text }

/-- Moves past the characters at the front that satisfy `p`, and counts them. -/
def advanceWhile (p : Char → Bool) (c : Cursor) : Nat × Cursor :=
  let run := c.rest.takeWhile p
  (run.length, c.advanceOver run)

def startsWith (c : Cursor) (text : List Char) : Bool := text.isPrefixOf c.rest

/-- Moves past `text` if the remaining input starts with it. -/
def accept (c : Cursor) (text : List Char) : Bool × Cursor :=
  if c.startsWith text then (true, c.advanceOver text) else (false, c)

def mark (c : Cursor) : Mark := { rest := c.rest, position := c.position }

def rewind (c : Cursor) (m : Mark) : Cursor :=
  { c with rest := m.rest, position := m.position }

/-- Moves forward from a place until the offset is at least `target`. -/
def forward (target : Nat) : List Char → Position → Mark
  | [], p => { rest := [], position := p }
  | next :: rest, p =>
      if p.offset < target then
        forward target rest (p.advance next)
      else
        { rest := next :: rest, position := p }

/-- Moves to an offset: forward from the present place, or else from the start of the text. -/
def seek (c : Cursor) (target : Nat) : Except SeekError Cursor :=
  if utf8Length c.source < target then
    .error (.outOfBounds target (utf8Length c.source))
  else if !isCharBoundary c.source target then
    .error (.notCharBoundary target)
  else if target < c.offset then
    .ok (c.rewind (forward target c.source .start))
  else
    .ok (c.rewind (forward target c.rest c.position))

/-- The text between a mark and the present place; a mark further on has none. -/
def textSince (c : Cursor) (m : Mark) : Option (List Char) :=
  if m.position.offset ≤ c.offset then some (textBefore m.rest c.rest) else none

def spanSince (c : Cursor) (m : Mark) : Span := { start := m.position, stop := c.position }

end Cursor

end GrammarFrontend
