import GrammarFrontend.Walk.Plan
import GrammarFrontend.Walk.Shape

/-! The plans of the grammar level: the root, what stands before its rules, and options. -/

namespace GrammarFrontend.Plan

open Shape

/-- The kinds of the constructs that may stand before the rules. -/
def prequelKinds : List NodeKind := [.options, .imports, .tokensSpec, .channels, .namedAction]

/-- Shape: `(GRAMMAR ID prequel* RULES MODE*)` -/
def grammarSpec (n : Node) : Plan := ofReading do
  requireKind .grammarSpec [.grammar] n
  let (id, rest) ← expect .grammarSpec [.id] n.children
  let (prequels, rest) := takeRun prequelKinds rest
  return steps [
    setGrammar id.text,
    announce (.discoverGrammar n id),
    visit { production := .prequelConstructs, node := n, parts := prequels, element := n },
    announce (.finishPrequels prequels.head?),
    ofReading do
      let (rules, modes) ← expect .grammarSpec [.rules] rest
      return steps [
        attempt (visitAs .rules rules),
        each (modes.map (visitAs .modeSection)),
        announce (.finishGrammar n id)
      ]
  ]

def prequelConstructs (prequels : List Node) : Plan :=
  each (prequels.map (visitAs .prequelConstruct))

def prequelConstruct (n : Node) : Plan :=
  match n.kind with
  | .options => visitAs .optionsSpec n
  | .imports => visitAs .delegateGrammars n
  | .tokensSpec => visitAs .tokensSpec n
  | .channels => visitAs .channelsSpec n
  | .namedAction => visitAs .namedAction n
  | _ => fail (wrongKind .prequelConstruct prequelKinds n)

/-- Shape: `(OPTIONS option*)` -/
def optionsSpec (n : Node) : Plan := ofReading do
  requireKind .optionsSpec [.options] n
  return each (n.children.map (visitAs .optionDef))

def optionValueKinds : List NodeKind := [.id, .stringLiteral, .int]

/-- Shape: `(ASSIGN ID value)` -/
def optionDef (n : Node) : Plan := ofReading do
  requireKind .optionDef [.assign] n
  let (id, rest) ← expect .optionDef [.id] n.children
  let (value, rest) ← expect .optionDef optionValueKinds rest
  finish .optionDef rest
  return steps [visitAs .optionValue value, announceOption id value]

def optionValue (n : Node) : Plan := ofReading do
  requireKind .optionValue optionValueKinds n
  return done

/-- Shape: `(IMPORT delegate+)` -/
def delegateGrammars (n : Node) : Plan := ofReading do
  requireKind .delegateGrammars [.imports] n
  return eachRequired .delegateGrammars .id (n.children.map (visitAs .delegateGrammar))

/-- Shape: `(ASSIGN label ID)` or `ID` -/
def delegateGrammar (n : Node) : Plan :=
  match n.kind with
  | .assign => ofReading do
      let (label, rest) ← expect .delegateGrammar [.id] n.children
      let (id, rest) ← expect .delegateGrammar [.id] rest
      finish .delegateGrammar rest
      return announce (.importGrammar (some label) id)
  | .id => announce (.importGrammar none n)
  | _ => fail (wrongKind .delegateGrammar [.assign, .id] n)

/-- Shape: `(TOKENS_SPEC ID+)` -/
def tokensSpec (n : Node) : Plan := ofReading do
  requireKind .tokensSpec [.tokensSpec] n
  return eachRequired .tokensSpec .id (n.children.map (visitAs .tokenSpec))

def tokenSpec (n : Node) : Plan := ofReading do
  requireKind .tokenSpec [.id] n
  return announce (.defineToken n)

/-- Shape: `(CHANNELS ID*)` -/
def channelsSpec (n : Node) : Plan := ofReading do
  requireKind .channelsSpec [.channels] n
  return each (n.children.map (visitAs .channelSpec))

def channelSpec (n : Node) : Plan := ofReading do
  requireKind .channelSpec [.id] n
  return announce (.defineChannel n)

/-- Shape: `(AT scope? name ACTION)`; a second identifier makes the first one the scope. -/
def namedAction (n : Node) : Plan := ofReading do
  requireKind .namedAction [.namedAction] n
  let (first, rest) ← expect .namedAction [.id] n.children
  let (second, rest) := takeIf .id rest
  let (action, rest) ← expect .namedAction [.action] rest
  finish .namedAction rest
  return match second with
    | some name => announce (.globalNamedAction (some first) name action)
    | none => announce (.globalNamedAction none first action)

end GrammarFrontend.Plan
