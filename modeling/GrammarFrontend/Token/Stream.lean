import GrammarFrontend.Token.Basic

/-! Token streams: the tokens of one source on all channels, the input discarded between them, and
the source directives found in its comments.
-/

namespace GrammarFrontend

/-- A note in a line comment that the text comes from a line of another file. -/
structure Directive where
  file : String
  line : Nat
  span : Span
deriving DecidableEq, Repr

/-- The tokens end with the one for the end of the input. -/
structure TokenStream where
  tokens : List Token
  discarded : List Token
  directives : List Directive
deriving DecidableEq, Repr

namespace TokenStream

def onChannel (s : TokenStream) (channel : Channel) : List Token :=
  s.tokens.filter (·.channel == channel)

def kinds (s : TokenStream) : List TokenKind := s.tokens.map (·.kind)

def length (s : TokenStream) : Nat := s.tokens.length

/-- Tokens and discarded input, merged by where they start; a token goes first if both start at one
place. -/
def items (s : TokenStream) : List Token :=
  s.tokens.merge s.discarded
    (fun kept dropped => kept.span.start.offset ≤ dropped.span.start.offset)

/-- The texts of all items one after another. -/
def reconstruct (s : TokenStream) : String :=
  String.ofList (s.items.flatMap (·.text.toList))

end TokenStream

end GrammarFrontend
