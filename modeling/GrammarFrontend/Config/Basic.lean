/-! The settings of the scanner and of the tree walk, with their defaults. -/

namespace GrammarFrontend

structure ScannerConfig where
  /-- Start as if inside a lexer rule. -/
  startsInLexerRule : Bool := false
  /-- Keep the source directives found in line comments. -/
  recordsDirectives : Bool := true
deriving DecidableEq, Repr, Inhabited

structure WalkerConfig where
  /-- The production that the walk of a whole grammar starts with. -/
  startProduction : String := "grammarSpec"
  /-- The mode in effect before the first mode section. -/
  defaultMode : String := "DEFAULT_MODE"
  /-- How many productions may be open at once. -/
  maxDepth : Nat := 512
  /-- Report a mismatch and go on with the next sibling. -/
  resumesOnMismatch : Bool := true
deriving DecidableEq, Repr, Inhabited

structure Config where
  scanner : ScannerConfig := {}
  walker : WalkerConfig := {}
deriving DecidableEq, Repr, Inhabited

end GrammarFrontend
