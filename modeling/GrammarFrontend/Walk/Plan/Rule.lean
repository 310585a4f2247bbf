import GrammarFrontend.Walk.Plan
import GrammarFrontend.Walk.Shape

/-! The plans of rules: sections of rules, rule headers, exception handlers, and the blocks of outer
alternatives.
-/

namespace GrammarFrontend.Plan

open Shape

/-- A rule whose first child names a token is a lexer rule. -/
def ruleOfSection (n : Node) : Plan :=
  match n.children with
  | first :: _ => if first.kind == .tokenRef then visitAs .lexerRule n else visitAs .parserRule n
  | [] => visitAs .parserRule n

/-- Shape: `(RULES (rule | lexerRule)*)` -/
def rules (n : Node) : Plan := ofReading do
  requireKind .rules [.rules] n
  return steps [
    announce (.discoverRules n),
    each (n.children.map ruleOfSection),
    announce (.finishRules n)
  ]

/-- Shape: `(MODE ID lexerRule*)` -/
def modeSection (n : Node) : Plan := ofReading do
  requireKind .modeSection [.mode] n
  let (id, rest) ← expect .modeSection [.id] n.children
  return steps [
    setMode id.text,
    announce (.modeDef n id),
    each (rest.map (visitAs .lexerRule))
  ]

/-- The children of a node that may be absent. -/
def childrenOf (n : Option Node) : List Node := (n.map (·.children)).getD []

/-- Shape: `(RULE TOKEN_REF DOC_COMMENT? RULEMODIFIERS? BLOCK)` -/
def lexerRule (n : Node) : Plan := ofReading do
  requireKind .lexerRule [.rule] n
  let (id, rest) ← expect .lexerRule [.tokenRef] n.children
  let (_, rest) := takeIf .docComment rest
  let (list, rest) := takeIf .ruleModifiers rest
  let modifiers := childrenOf list
  return inRule id.text n <| steps [
    steps (modifiers.map (visitAs .ruleModifier)),
    ofReading do
      let (block, rest) ← expect .lexerRule [.block] rest
      finish .lexerRule rest
      return steps [
        announce (.discoverLexerRule n id modifiers block),
        visitAs .lexerRuleBlock block,
        announce (.finishLexerRule n id block)
      ]
  ]

/-- An options block or a named action of a rule header. -/
def ruleHeaderPart (n : Node) : Plan :=
  if n.kind == .options then visitAs .optionsSpec n else visitAs .ruleAction n

/-- Shape: `(RULE RULE_REF DOC_COMMENT? RULEMODIFIERS? ARG_ACTION? RETURNS? THROWS? LOCALS?
(OPTIONS | AT)* BLOCK exceptionGroup)` -/
def parserRule (n : Node) : Plan := ofReading do
  requireKind .parserRule [.rule] n
  let (id, rest) ← expect .parserRule [.ruleRef] n.children
  let (_, rest) := takeIf .docComment rest
  let (list, rest) := takeIf .ruleModifiers rest
  let modifiers := childrenOf list
  let (argAction, rest) := takeIf .argAction rest
  let (returns, rest) := takeIf .returns rest
  let (throws, rest) := takeIf .throws rest
  let (locals, rest) := takeIf .locals rest
  let (parts, rest) := takeRun [.options, .namedAction] rest
  return inRule id.text n <| steps [
    steps (modifiers.map (visitAs .ruleModifier)),
    steps (returns.toList.map (visitAs .ruleReturns)),
    steps (throws.toList.map (visitAs .throwsSpec)),
    steps (locals.toList.map (visitAs .locals)),
    steps (parts.map ruleHeaderPart),
    ofReading do
      let (block, handlers) ← expect .parserRule [.block] rest
      let header : RuleHeader := {
        rule := n
        id
        modifiers
        argAction
        returns := returns.bind (·.child? 0)
        throws
        options := (parts.filter (·.kind == .options)).getLast?
        locals := locals.bind (·.child? 0)
        actions := parts.filter (·.kind == .namedAction)
        block
      }
      return steps [
        announce (.discoverRule header),
        visitAs .ruleBlock block,
        visit { production := .exceptionGroup, node := n, parts := handlers, element := n },
        announce (.finishRule n id block)
      ]
  ]

/-- Shape: `CATCH* FINALLY?` -/
def exceptionGroup (handlers : List Node) : Plan :=
  let (catches, tail) := takeRun [.catchClause] handlers
  steps [
    each (catches.map (visitAs .exceptionHandler)),
    match tail with
    | [] => done
    | [last] => visitAs .finallyClause last
    | _ :: extra :: _ => fail (wrongKind .exceptionGroup [.catchClause] extra)
  ]

/-- Shape: `(CATCH ARG_ACTION ACTION)` -/
def exceptionHandler (n : Node) : Plan := ofReading do
  requireKind .exceptionHandler [.catchClause] n
  let (arg, rest) ← expect .exceptionHandler [.argAction] n.children
  let (action, rest) ← expect .exceptionHandler [.action] rest
  finish .exceptionHandler rest
  return announce (.ruleCatch arg action)

/-- Shape: `(FINALLY ACTION)` -/
def finallyClause (n : Node) : Plan := ofReading do
  requireKind .finallyClause [.finallyClause] n
  let (action, rest) ← expect .finallyClause [.action] n.children
  finish .finallyClause rest
  return announce (.finallyAction action)

/-- A node of the kind with one child, an argument action. -/
def argActionOf (p : Production) (kind : NodeKind) (n : Node) : Plan := ofReading do
  requireKind p [kind] n
  let (_, rest) ← expect p [.argAction] n.children
  finish p rest
  return done

/-- Shape: `(LOCALS ARG_ACTION)` -/
def locals (n : Node) : Plan := argActionOf .locals .locals n

/-- Shape: `(RETURNS ARG_ACTION)` -/
def ruleReturns (n : Node) : Plan := argActionOf .ruleReturns .returns n

/-- Shape: `(THROWS ID+)` -/
def throwsSpec (n : Node) : Plan := ofReading do
  requireKind .throwsSpec [.throws] n
  match n.children, n.children.find? (·.kind != .id) with
  | [], _ => .error (missing .throwsSpec (alternatives [.id]))
  | _, some other => .error (wrongKind .throwsSpec [.id] other)
  | _, none => return done

/-- Shape: `(AT ID ACTION)` inside a rule -/
def ruleAction (n : Node) : Plan := ofReading do
  requireKind .ruleAction [.namedAction] n
  let (_, rest) ← expect .ruleAction [.id] n.children
  let (_, rest) ← expect .ruleAction [.action] rest
  finish .ruleAction rest
  return done

def ruleModifier (n : Node) : Plan := ofReading do
  requireKind .ruleModifier [.publicMark, .privateMark, .protectedMark, .fragmentMark] n
  return done

/-- The outer alternatives of a block; each one moves the rule on before it is visited. -/
def outerAlternatives (p outer : Production) (n : Node) : Plan := ofReading do
  requireKind p [.block] n
  return eachRequired p .alt
    (n.children.map (fun alt => steps [nextAlternative alt, visitAs outer alt]))

def lexerRuleBlock (n : Node) : Plan := outerAlternatives .lexerRuleBlock .lexerOuterAlternative n

def ruleBlock (n : Node) : Plan := outerAlternatives .ruleBlock .outerAlternative n

def lexerOuterAlternative (n : Node) : Plan :=
  steps [
    announce (.discoverOuterAlt n),
    visitAs .lexerAlternative n,
    announce (.finishOuterAlt n)
  ]

def outerAlternative (n : Node) : Plan :=
  steps [
    announce (.discoverOuterAlt n),
    visitAs .alternative n,
    announce (.finishOuterAlt n)
  ]

end GrammarFrontend.Plan
