import GrammarFrontend.Token.Kind

/-! The scan mode: in a parser rule a bracket opens an argument action, in a lexer rule a character
set. A colon sets the mode by the kinds of the tokens before it.
-/

namespace GrammarFrontend

inductive ScanMode where
  | parserRule
  | lexerRule
deriving DecidableEq, Repr, Inhabited

namespace ScanMode

def name : ScanMode → String
  | parserRule => "ParserRule"
  | lexerRule => "LexerRule"

def ofName? (name : String) : Option ScanMode :=
  [parserRule, lexerRule].find? (·.name == name)

/-- Searches the kinds before a colon, the nearest first, for the name of the enclosing rule. While
`skipping`, everything up to the nearest opener of an options block is passed over. A left
parenthesis means that the colon belongs to a subrule; then, and without a name, there is none. -/
def searchRule : (skipping : Bool) → List TokenKind → Option ScanMode
  | _, [] => none
  | true, kind :: earlier => searchRule (kind != .optionsOpener) earlier
  | false, kind :: earlier =>
      match kind with
      | .rightBrace => searchRule true earlier
      | .leftParen => none
      | .tokenRef => some .lexerRule
      | .ruleRef => some .parserRule
      | _ => searchRule false earlier

/-- The mode of the rule whose colon comes after tokens of these kinds, the nearest first. -/
def ofHistory (earlier : List TokenKind) : Option ScanMode := searchRule false earlier

end ScanMode

end GrammarFrontend
