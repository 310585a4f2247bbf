import GrammarFrontend.Walk.Context
import GrammarFrontend.Walk.Production

/-! What a walk announces to its listener. Every production is entered and left; every construct of
the grammar is announced once, with its parts found.
-/

namespace GrammarFrontend

/-- Everything known about a parser rule before its block is visited. -/
structure RuleHeader where
  rule : Node
  id : Node
  modifiers : List Node
  argAction : Option Node
  returns : Option Node
  throws : Option Node
  options : Option Node
  locals : Option Node
  actions : List Node
  block : Node
deriving DecidableEq, Repr

inductive Callback where
  | enter (production : Production) (node : Node)
  | exit (production : Production) (node : Node)
  | discoverGrammar (root id : Node)
  /-- After the constructs before the rules; the first of them is given. -/
  | finishPrequels (first : Option Node)
  | finishGrammar (root id : Node)
  | grammarOption (id value : Node)
  | ruleOption (id value : Node)
  | blockOption (block id value : Node)
  | importGrammar (label : Option Node) (id : Node)
  | defineToken (id : Node)
  | defineChannel (id : Node)
  | globalNamedAction (scope : Option Node) (name action : Node)
  | discoverRules (rules : Node)
  | finishRules (rules : Node)
  | modeDef (mode id : Node)
  | discoverRule (header : RuleHeader)
  | finishRule (rule id block : Node)
  | discoverLexerRule (rule id : Node) (modifiers : List Node) (block : Node)
  | finishLexerRule (rule id block : Node)
  | ruleCatch (arg action : Node)
  | finallyAction (action : Node)
  | discoverOuterAlt (alt : Node)
  | finishOuterAlt (alt : Node)
  | enterAlternative (alt : Node)
  | exitAlternative (alt : Node)
  | lexerCommand (alternative : Nat) (id : Node)
  | lexerCallCommand (alternative : Nat) (id arg : Node)
  | actionInAlt (action : Node)
  | sempredInAlt (predicate : Node)
  | label (op id element : Node)
  | ruleRef (node : Node) (arg : Option Node)
  | tokenRef (node : Node)
  | stringRef (node : Node)
  | wildcardRef (node : Node)
  | elementOption (element id : Node) (value : Option Node)
deriving DecidableEq, Repr

/-- A callback with the context that the listener could read in it. -/
structure Event where
  callback : Callback
  context : Context
deriving DecidableEq, Repr

end GrammarFrontend
