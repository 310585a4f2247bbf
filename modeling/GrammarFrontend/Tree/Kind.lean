import GrammarFrontend.Token.Kind

/-! The alphabet of syntax tree nodes, and the kind of the leaf that a token becomes. -/

namespace GrammarFrontend

inductive NodeKind where
  | grammar
  | id
  | options
  | assign
  | plusAssign
  | imports
  | tokensSpec
  | channels
  | namedAction
  | rules
  | rule
  | ruleModifiers
  | fragmentMark
  | publicMark
  | privateMark
  | protectedMark
  | docComment
  | argAction
  | returns
  | throws
  | locals
  | catchClause
  | finallyClause
  | mode
  | block
  | alt
  | epsilon
  | lexerAltAction
  | lexerActionCall
  | action
  | sempred
  | set
  | range
  | complement
  | tokenRef
  | ruleRef
  | stringLiteral
  | int
  | wildcard
  | charSet
  | optional
  | closure
  | positiveClosure
  | elementOptions
  | dot
deriving DecidableEq, Repr, Inhabited

namespace NodeKind

def all : List NodeKind :=
  [grammar, id, options, assign, plusAssign, imports, tokensSpec, channels, namedAction, rules,
    rule, ruleModifiers, fragmentMark, publicMark, privateMark, protectedMark, docComment,
    argAction, returns, throws, locals, catchClause, finallyClause, mode, block, alt, epsilon,
    lexerAltAction, lexerActionCall, action, sempred, set, range, complement, tokenRef, ruleRef,
    stringLiteral, int, wildcard, charSet, optional, closure, positiveClosure, elementOptions,
    dot]

def name : NodeKind → String
  | grammar => "GRAMMAR"
  | id => "ID"
  | options => "OPTIONS"
  | assign => "ASSIGN"
  | plusAssign => "PLUS_ASSIGN"
  | imports => "IMPORT"
  | tokensSpec => "TOKENS_SPEC"
  | channels => "CHANNELS"
  | namedAction => "AT"
  | rules => "RULES"
  | rule => "RULE"
  | ruleModifiers => "RULEMODIFIERS"
  | fragmentMark => "FRAGMENT"
  | publicMark => "PUBLIC"
  | privateMark => "PRIVATE"
  | protectedMark => "PROTECTED"
  | docComment => "DOC_COMMENT"
  | argAction => "ARG_ACTION"
  | returns => "RETURNS"
  | throws => "THROWS"
  | locals => "LOCALS"
  | catchClause => "CATCH"
  | finallyClause => "FINALLY"
  | mode => "MODE"
  | block => "BLOCK"
  | alt => "ALT"
  | epsilon => "EPSILON"
  | lexerAltAction => "LEXER_ALT_ACTION"
  | lexerActionCall => "LEXER_ACTION_CALL"
  | action => "ACTION"
  | sempred => "SEMPRED"
  | set => "SET"
  | range => "RANGE"
  | complement => "NOT"
  | tokenRef => "TOKEN_REF"
  | ruleRef => "RULE_REF"
  | stringLiteral => "STRING_LITERAL"
  | int => "INT"
  | wildcard => "WILDCARD"
  | charSet => "LEXER_CHAR_SET"
  | optional => "OPTIONAL"
  | closure => "CLOSURE"
  | positiveClosure => "POSITIVE_CLOSURE"
  | elementOptions => "ELEMENT_OPTIONS"
  | dot => "DOT"

def ofName? (name : String) : Option NodeKind := all.find? (·.name == name)

/-- The suffixes of a block: at most once, any number of times, at least once. -/
def isEbnfSuffix : NodeKind → Bool
  | optional | closure | positiveClosure => true
  | _ => false

def isRuleModifier : NodeKind → Bool
  | publicMark | privateMark | protectedMark | fragmentMark => true
  | _ => false

/-- The kind of the leaf that a token of this kind becomes, if it becomes one. -/
def ofTokenKind? : TokenKind → Option NodeKind
  | .tokenRef => some tokenRef
  | .ruleRef => some ruleRef
  | .stringLiteral => some stringLiteral
  | .int => some int
  | .action => some action
  | .sempred => some sempred
  | .argAction => some argAction
  | .charSet => some charSet
  | .docComment => some docComment
  | .fragmentWord => some fragmentMark
  | .optionsOpener => some options
  | .tokensOpener => some tokensSpec
  | .channelsOpener => some channels
  | .importWord => some imports
  | .returnsWord => some returns
  | .throwsWord => some throws
  | .localsWord => some locals
  | .catchWord => some catchClause
  | .finallyWord => some finallyClause
  | .modeWord => some mode
  | .assign => some assign
  | .plusAssign => some plusAssign
  | .atSign => some namedAction
  | .range => some range
  | .tilde => some complement
  | .dot => some wildcard
  | _ => none

end NodeKind

end GrammarFrontend
