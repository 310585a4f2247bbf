import GrammarFrontend.Diagnostic.Basic
import GrammarFrontend.Lexeme.Probe
import GrammarFrontend.Token.Kind

/-! Lexemes: what a recogniser finds at the front of the unread input. A place in the input is
given by what is left of it there, so a lexeme does not depend on where in the source it stands.
-/

namespace GrammarFrontend

/-- What is wrong with the part of a lexeme from `start` up to `stop`. -/
structure Fault where
  kind : DiagnosticKind
  start : List Char
  stop : List Char
deriving DecidableEq, Repr

/-- A file and a line named at the front of a line comment, in the part up to `stop`. -/
structure Origin where
  file : List Char
  line : Nat
  stop : List Char
deriving DecidableEq, Repr

structure Lexeme where
  kind : TokenKind
  /-- The probe after the lexeme. -/
  next : Probe
  faults : List Fault
  origin : Option Origin
deriving DecidableEq, Repr

namespace Lexeme

def plain (kind : TokenKind) (next : Probe) : Lexeme := { kind, next, faults := [], origin := none }

/-- A lexeme that starts with `text` left to read and is cut short by the end of the line or of the
input. -/
def unterminated (kind : TokenKind) (next : Probe) (text : List Char) (fault : DiagnosticKind)
    : Lexeme :=
  { kind, next, faults := [{ kind := fault, start := text, stop := next.rest }], origin := none }

def rest (l : Lexeme) : List Char := l.next.rest

end Lexeme

end GrammarFrontend
