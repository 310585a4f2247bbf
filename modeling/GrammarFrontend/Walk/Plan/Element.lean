import GrammarFrontend.Walk.Plan
import GrammarFrontend.Walk.Shape

/-! The plans of alternatives and of what they are made of. -/

namespace GrammarFrontend.Plan

open Shape

/-- The options of an element. -/
def optionsOf (element options : Node) : Plan :=
  visit { production := .elementOptions, node := options, parts := options.children, element }

/-- The options at the front of an element's children, if there are any, and the nodes after
them. -/
def leadingOptions (element : Node) (children : List Node) : Plan × List Node :=
  let (options, rest) := takeIf .elementOptions children
  (steps (options.toList.map (optionsOf element)), rest)

/-- Shape: `(ALT ELEMENT_OPTIONS? (element+ | EPSILON))` -/
def alternativeOf (p item : Production) (n : Node) : Plan := ofReading do
  requireKind p [.alt] n
  let (options, elements) := leadingOptions n n.children
  return inAlternative n <| steps [
    options,
    match elements.map Node.kind with
    | [] => fail (missing p "element or EPSILON")
    | [.epsilon] => done
    | _ => each (elements.map (visitAs item))
  ]

def lexerElements (n : Node) : Plan := alternativeOf .lexerElements .lexerElement n

def alternative (n : Node) : Plan := alternativeOf .alternative .element n

/-- Shape: `(LEXER_ALT_ACTION ALT command+)` or a plain `ALT` -/
def lexerAlternative (n : Node) : Plan :=
  match n.kind with
  | .lexerAltAction => ofReading do
      let (elements, commands) ← expect .lexerAlternative [.alt] n.children
      return steps [
        visitAs .lexerElements elements,
        eachRequired .lexerAlternative .id (commands.map (visitAs .lexerCommand))
      ]
  | .alt => visitAs .lexerElements n
  | _ => fail (wrongKind .lexerAlternative [.lexerAltAction, .alt] n)

/-- Shape: `(LEXER_ACTION_CALL ID argument)` or `ID` -/
def lexerCommand (n : Node) : Plan :=
  match n.kind with
  | .lexerActionCall => ofReading do
      let (id, rest) ← expect .lexerCommand [.id] n.children
      let (arg, rest) ← expect .lexerCommand [.id, .int] rest
      finish .lexerCommand rest
      return steps [visitAs .lexerCommandExpr arg, announceCommand id (some arg)]
  | .id => announceCommand n none
  | _ => fail (wrongKind .lexerCommand [.lexerActionCall, .id] n)

def lexerCommandExpr (n : Node) : Plan := ofReading do
  requireKind .lexerCommandExpr [.id, .int] n
  return done

def lexerElement (n : Node) : Plan :=
  match n.kind with
  | .action | .sempred => visitAs .actionElement n
  | .epsilon => done
  | .block | .optional | .closure | .positiveClosure => visitAs .lexerSubrule n
  | _ => visitAs .lexerAtom n

/-- Shape: `(NOT SET)`, or `(NOT BLOCK)` where a block is allowed -/
def complementOf (p : Production) (allowsBlock : Bool) (n : Node) : Plan := ofReading do
  let (target, rest) ← expect p (if allowsBlock then [.set, .block] else [.set]) n.children
  finish p rest
  return if target.kind == .block then visitAs .block target else visitAs .blockSet target

/-- Shape: `(WILDCARD ELEMENT_OPTIONS?)` -/
def wildcard (n : Node) : Plan :=
  let (options, rest) := leadingOptions n n.children
  steps [
    options,
    ofReading do
      finish .atom rest
      return announce (.wildcardRef n)
  ]

def lexerAtomKinds : List NodeKind :=
  [.stringLiteral, .tokenRef, .complement, .set, .wildcard, .charSet, .range, .ruleRef]

def lexerAtom (n : Node) : Plan :=
  match n.kind with
  | .stringLiteral | .tokenRef => visitAs .terminal n
  | .complement => complementOf .lexerAtom false n
  | .set => visitAs .blockSet n
  | .wildcard => wildcard n
  | .charSet => done
  | .range => visitAs .range n
  | .ruleRef => visitAs .ruleReference n
  | _ => fail (wrongKind .lexerAtom lexerAtomKinds n)

/-- A block, or `(suffix BLOCK)` -/
def suffixedBlock (p : Production) (n : Node) : Plan :=
  if n.kind.isEbnfSuffix then
    steps [
      visitAs .blockSuffix n,
      ofReading do
        let (inner, rest) ← expect .blockSuffix [.block] n.children
        finish .blockSuffix rest
        return inSuffix (visitAs p inner)
    ]
  else
    visitAs p n

def lexerSubrule (n : Node) : Plan := suffixedBlock .lexerBlock n

def subrule (n : Node) : Plan := suffixedBlock .block n

/-- Shape: `(BLOCK OPTIONS? lexerAlternative+)` -/
def lexerBlock (n : Node) : Plan := ofReading do
  requireKind .lexerBlock [.block] n
  let (options, rest) := takeIf .options n.children
  return steps [
    steps (options.toList.map (visitAs .optionsSpec)),
    eachRequired .lexerBlock .alt (rest.map (visitAs .lexerAlternative))
  ]

/-- Shape: `(BLOCK OPTIONS? AT* ACTION? alternative+)` -/
def block (n : Node) : Plan := ofReading do
  requireKind .block [.block] n
  let (options, rest) := takeIf .options n.children
  let (actions, rest) := takeRun [.namedAction] rest
  let (_, rest) := takeIf .action rest
  return steps [
    steps (options.toList.map (visitAs .optionsSpec)),
    steps (actions.map (visitAs .ruleAction)),
    eachRequired .block .alt (rest.map (visitAs .alternative))
  ]

def element (n : Node) : Plan :=
  match n.kind with
  | .assign | .plusAssign => visitAs .labeledElement n
  | .block | .optional | .closure | .positiveClosure => visitAs .subrule n
  | .action | .sempred => visitAs .actionElement n
  | .range => visitAs .range n
  | .complement => complementOf .element true n
  | _ => visitAs .atom n

/-- Shape: `(ACTION ELEMENT_OPTIONS?)` or `(SEMPRED ELEMENT_OPTIONS?)` -/
def actionElement (n : Node) : Plan := ofReading do
  requireKind .actionElement [.action, .sempred] n
  let (options, rest) := leadingOptions n n.children
  return steps [
    options,
    ofReading do
      finish .actionElement rest
      return announce (if n.kind == .action then .actionInAlt n else .sempredInAlt n)
  ]

/-- Shape: `(ASSIGN ID element)` or `(PLUS_ASSIGN ID element)` -/
def labeledElement (n : Node) : Plan := ofReading do
  requireKind .labeledElement [.assign, .plusAssign] n
  let (id, rest) ← expect .labeledElement [.id] n.children
  match rest with
  | [] => .error (missing .labeledElement "element")
  | element :: rest =>
      finish .labeledElement rest
      return steps [visitAs .element element, announce (.label n id element)]

def blockSuffix (n : Node) : Plan := visitAs .ebnfSuffix n

def ebnfSuffix (n : Node) : Plan := ofReading do
  requireKind .ebnfSuffix [.optional, .closure, .positiveClosure] n
  return done

def atomKinds : List NodeKind :=
  [.complement, .set, .wildcard, .dot, .stringLiteral, .tokenRef, .ruleRef]

/-- Shape: `(DOT ID target)`: a token, a literal or a rule of another grammar -/
def qualified (n : Node) : Plan := ofReading do
  let (_, rest) ← expect .atom [.id] n.children
  let (target, rest) ← expect .atom [.stringLiteral, .tokenRef, .ruleRef] rest
  finish .atom rest
  return if target.kind == .ruleRef then visitAs .ruleReference target
    else visitAs .terminal target

def atom (n : Node) : Plan :=
  match n.kind with
  | .complement => complementOf .atom false n
  | .set => visitAs .blockSet n
  | .wildcard => wildcard n
  | .dot => qualified n
  | .stringLiteral | .tokenRef => visitAs .terminal n
  | .ruleRef => visitAs .ruleReference n
  | _ => fail (wrongKind .atom atomKinds n)

/-- Shape: `(SET element+)` -/
def blockSet (n : Node) : Plan := ofReading do
  requireKind .blockSet [.set] n
  return eachRequired .blockSet .tokenRef (n.children.map (visitAs .setElement))

/-- A token or a literal, with options if there are any. -/
def terminalOf (p : Production) (n : Node) : Plan := ofReading do
  requireKind p [.stringLiteral, .tokenRef] n
  let (options, rest) := leadingOptions n n.children
  return steps [
    options,
    ofReading do
      finish p rest
      return announce (if n.kind == .stringLiteral then .stringRef n else .tokenRef n)
  ]

def terminal (n : Node) : Plan := terminalOf .terminal n

def setElement (n : Node) : Plan :=
  match n.kind with
  | .stringLiteral | .tokenRef => terminalOf .setElement n
  | .range => visitAs .range n
  | .charSet => done
  | _ => fail (wrongKind .setElement [.stringLiteral, .tokenRef, .range, .charSet] n)

/-- Shape: `(RULE_REF ARG_ACTION? ELEMENT_OPTIONS?)` -/
def ruleReference (n : Node) : Plan := ofReading do
  requireKind .ruleReference [.ruleRef] n
  let (arg, rest) := takeIf .argAction n.children
  let (options, rest) := leadingOptions n rest
  return steps [
    options,
    ofReading do
      finish .ruleReference rest
      return announce (.ruleRef n arg)
  ]

/-- Shape: `(RANGE STRING_LITERAL STRING_LITERAL)` -/
def range (n : Node) : Plan := ofReading do
  requireKind .range [.range] n
  let (_, rest) ← expect .range [.stringLiteral] n.children
  let (_, rest) ← expect .range [.stringLiteral] rest
  finish .range rest
  return done

/-- Shape: `(ELEMENT_OPTIONS option*)` -/
def elementOptions (element n : Node) : Plan := ofReading do
  requireKind .elementOptions [.elementOptions] n
  return each (n.children.map (fun option =>
    visit { production := .elementOption, node := option, parts := option.children, element }))

/-- Shape: `ID` or `(ASSIGN ID value)` -/
def elementOption (element n : Node) : Plan :=
  match n.kind with
  | .id => announce (.elementOption element n none)
  | .assign => ofReading do
      let (id, rest) ← expect .elementOption [.id] n.children
      let (value, rest) ← expect .elementOption [.id, .stringLiteral, .action, .int] rest
      finish .elementOption rest
      return announce (.elementOption element id (some value))
  | _ => fail (wrongKind .elementOption [.id, .assign] n)

end GrammarFrontend.Plan
