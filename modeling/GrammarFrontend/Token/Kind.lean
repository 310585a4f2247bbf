/-! The alphabet of tokens. Every kind has a name, a code that fixes its order, and a channel;
the keyword and block opener tables say which words are kinds of their own.
-/

namespace GrammarFrontend

/-- The lane of a token: what a parser reads, blank text, or comments. -/
inductive Channel where
  | visible
  | hidden
  | comments
deriving DecidableEq, Repr, Inhabited

def Channel.code : Channel → Nat
  | visible => 0
  | hidden => 1
  | comments => 2

inductive TokenKind where
  | docComment
  | comment
  | action
  | sempred
  | argAction
  | charSet
  | optionsOpener
  | tokensOpener
  | channelsOpener
  | importWord
  | fragmentWord
  | lexerWord
  | parserWord
  | grammarWord
  | returnsWord
  | localsWord
  | throwsWord
  | catchWord
  | finallyWord
  | modeWord
  | colon
  | doubleColon
  | comma
  | semicolon
  | leftParen
  | rightParen
  | arrow
  | less
  | greater
  | assign
  | question
  | synpred
  | star
  | plus
  | plusAssign
  | bar
  | dollar
  | dot
  | range
  | ellipsis
  | atSign
  | pound
  | tilde
  | rightBrace
  | tokenRef
  | ruleRef
  | stringLiteral
  | int
  | blank
  | byteOrderMark
  | errorChar
  | eof
deriving DecidableEq, Repr

namespace TokenKind

instance : Inhabited TokenKind := ⟨eof⟩

/-- Every kind, in the order of the codes. -/
def all : List TokenKind :=
  [docComment, comment, action, sempred, argAction, charSet, optionsOpener, tokensOpener,
    channelsOpener, importWord, fragmentWord, lexerWord, parserWord, grammarWord, returnsWord,
    localsWord, throwsWord, catchWord, finallyWord, modeWord, colon, doubleColon, comma,
    semicolon, leftParen, rightParen, arrow, less, greater, assign, question, synpred, star,
    plus, plusAssign, bar, dollar, dot, range, ellipsis, atSign, pound, tilde, rightBrace,
    tokenRef, ruleRef, stringLiteral, int, blank, byteOrderMark, errorChar, eof]

def name : TokenKind → String
  | docComment => "DOC_COMMENT"
  | comment => "COMMENT"
  | action => "ACTION"
  | sempred => "SEMPRED"
  | argAction => "ARG_ACTION"
  | charSet => "LEXER_CHAR_SET"
  | optionsOpener => "OPTIONS"
  | tokensOpener => "TOKENS_SPEC"
  | channelsOpener => "CHANNELS"
  | importWord => "IMPORT"
  | fragmentWord => "FRAGMENT"
  | lexerWord => "LEXER"
  | parserWord => "PARSER"
  | grammarWord => "GRAMMAR"
  | returnsWord => "RETURNS"
  | localsWord => "LOCALS"
  | throwsWord => "THROWS"
  | catchWord => "CATCH"
  | finallyWord => "FINALLY"
  | modeWord => "MODE"
  | colon => "COLON"
  | doubleColon => "COLONCOLON"
  | comma => "COMMA"
  | semicolon => "SEMI"
  | leftParen => "LPAREN"
  | rightParen => "RPAREN"
  | arrow => "RARROW"
  | less => "LT"
  | greater => "GT"
  | assign => "ASSIGN"
  | question => "QUESTION"
  | synpred => "SYNPRED"
  | star => "STAR"
  | plus => "PLUS"
  | plusAssign => "PLUS_ASSIGN"
  | bar => "OR"
  | dollar => "DOLLAR"
  | dot => "DOT"
  | range => "RANGE"
  | ellipsis => "ETC"
  | atSign => "AT"
  | pound => "POUND"
  | tilde => "NOT"
  | rightBrace => "RBRACE"
  | tokenRef => "TOKEN_REF"
  | ruleRef => "RULE_REF"
  | stringLiteral => "STRING_LITERAL"
  | int => "INT"
  | blank => "WS"
  | byteOrderMark => "UnicodeBOM"
  | errorChar => "ERRCHAR"
  | eof => "EOF"

def ofName? (name : String) : Option TokenKind := all.find? (·.name == name)

/-- One byte for each kind; the families start at round numbers. -/
def code : TokenKind → Nat
  | docComment => 0
  | comment => 1
  | action => 10
  | sempred => 11
  | argAction => 12
  | charSet => 13
  | optionsOpener => 20
  | tokensOpener => 21
  | channelsOpener => 22
  | importWord => 30
  | fragmentWord => 31
  | lexerWord => 32
  | parserWord => 33
  | grammarWord => 34
  | returnsWord => 35
  | localsWord => 36
  | throwsWord => 37
  | catchWord => 38
  | finallyWord => 39
  | modeWord => 40
  | colon => 60
  | doubleColon => 61
  | comma => 62
  | semicolon => 63
  | leftParen => 64
  | rightParen => 65
  | arrow => 66
  | less => 67
  | greater => 68
  | assign => 69
  | question => 70
  | synpred => 71
  | star => 72
  | plus => 73
  | plusAssign => 74
  | bar => 75
  | dollar => 76
  | dot => 77
  | range => 78
  | ellipsis => 79
  | atSign => 80
  | pound => 81
  | tilde => 82
  | rightBrace => 83
  | tokenRef => 100
  | ruleRef => 101
  | stringLiteral => 102
  | int => 103
  | blank => 120
  | byteOrderMark => 121
  | errorChar => 122
  | eof => 255

instance : Ord TokenKind where
  compare a b := compare a.code b.code

/-- The channel that a token of this kind is sent on. -/
def channel : TokenKind → Channel
  | blank => .hidden
  | comment => .comments
  | _ => .visible

/-- The kinds of input that no parser sees. -/
def isDiscarded : TokenKind → Bool
  | byteOrderMark | errorChar => true
  | _ => false

/-- The words that are keywords wherever they stand alone. -/
def keywords : List (String × TokenKind) :=
  [("import", importWord), ("fragment", fragmentWord), ("lexer", lexerWord),
    ("parser", parserWord), ("grammar", grammarWord), ("returns", returnsWord),
    ("locals", localsWord), ("throws", throwsWord), ("catch", catchWord),
    ("finally", finallyWord), ("mode", modeWord)]

/-- The words that open a block when a brace follows, with or without blank text between. -/
def blockOpeners : List (String × TokenKind) :=
  [("options", optionsOpener), ("tokens", tokensOpener), ("channels", channelsOpener)]

def isKeyword (kind : TokenKind) : Bool := keywords.any (·.2 == kind)

end TokenKind

end GrammarFrontend
