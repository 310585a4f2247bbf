import GrammarFrontend.Source.Position
import GrammarFrontend.Token.Kind

/-! A token: its kind, its channel, its text, and the span of that text in the source. -/

namespace GrammarFrontend

structure Token where
  kind : TokenKind
  channel : Channel
  text : String
  span : Span
deriving DecidableEq, Repr, Inhabited

namespace Token

def line (t : Token) : Nat := t.span.start.line

def column (t : Token) : Nat := t.span.start.column

/-- A token on the channel that a parser reads, whatever its kind. -/
def visible (kind : TokenKind) (text : String) (span : Span) : Token :=
  { kind, channel := .visible, text, span }

/-- The empty token at the end of the input. -/
def eofAt (p : Position) : Token := visible .eof "" (.point p)

end Token

end GrammarFrontend
