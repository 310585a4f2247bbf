/-! The productions of the tree grammar. Each one has a name by which a walk can start with it. -/

namespace GrammarFrontend

inductive Production where
  | grammarSpec
  | prequelConstructs
  | prequelConstruct
  | optionsSpec
  | optionDef
  | optionValue
  | delegateGrammars
  | delegateGrammar
  | tokensSpec
  | tokenSpec
  | channelsSpec
  | channelSpec
  | namedAction
  | rules
  | modeSection
  | lexerRule
  | parserRule
  | exceptionGroup
  | exceptionHandler
  | finallyClause
  | locals
  | ruleReturns
  | throwsSpec
  | ruleAction
  | ruleModifier
  | lexerRuleBlock
  | ruleBlock
  | lexerOuterAlternative
  | outerAlternative
  | lexerAlternative
  | lexerElements
  | lexerElement
  | lexerBlock
  | lexerAtom
  | alternative
  | lexerCommand
  | lexerCommandExpr
  | element
  | labeledElement
  | subrule
  | lexerSubrule
  | blockSuffix
  | ebnfSuffix
  | atom
  | blockSet
  | setElement
  | block
  | ruleReference
  | range
  | terminal
  | elementOptions
  | elementOption
  | actionElement
deriving DecidableEq, Repr, Inhabited

namespace Production

def all : List Production :=
  [grammarSpec, prequelConstructs, prequelConstruct, optionsSpec, optionDef, optionValue,
    delegateGrammars, delegateGrammar, tokensSpec, tokenSpec, channelsSpec, channelSpec,
    namedAction, rules, modeSection, lexerRule, parserRule, exceptionGroup, exceptionHandler,
    finallyClause, locals, ruleReturns, throwsSpec, ruleAction, ruleModifier, lexerRuleBlock,
    ruleBlock, lexerOuterAlternative, outerAlternative, lexerAlternative, lexerElements,
    lexerElement, lexerBlock, lexerAtom, alternative, lexerCommand, lexerCommandExpr, element,
    labeledElement, subrule, lexerSubrule, blockSuffix, ebnfSuffix, atom, blockSet, setElement,
    block, ruleReference, range, terminal, elementOptions, elementOption, actionElement]

def name : Production → String
  | grammarSpec => "grammarSpec"
  | prequelConstructs => "prequelConstructs"
  | prequelConstruct => "prequelConstruct"
  | optionsSpec => "optionsSpec"
  | optionDef => "option"
  | optionValue => "optionValue"
  | delegateGrammars => "delegateGrammars"
  | delegateGrammar => "delegateGrammar"
  | tokensSpec => "tokensSpec"
  | tokenSpec => "tokenSpec"
  | channelsSpec => "channelsSpec"
  | channelSpec => "channelSpec"
  | namedAction => "action"
  | rules => "rules"
  | modeSection => "mode"
  | lexerRule => "lexerRule"
  | parserRule => "rule"
  | exceptionGroup => "exceptionGroup"
  | exceptionHandler => "exceptionHandler"
  | finallyClause => "finallyClause"
  | locals => "locals"
  | ruleReturns => "ruleReturns"
  | throwsSpec => "throwsSpec"
  | ruleAction => "ruleAction"
  | ruleModifier => "ruleModifier"
  | lexerRuleBlock => "lexerRuleBlock"
  | ruleBlock => "ruleBlock"
  | lexerOuterAlternative => "lexerOuterAlternative"
  | outerAlternative => "outerAlternative"
  | lexerAlternative => "lexerAlternative"
  | lexerElements => "lexerElements"
  | lexerElement => "lexerElement"
  | lexerBlock => "lexerBlock"
  | lexerAtom => "lexerAtom"
  | alternative => "alternative"
  | lexerCommand => "lexerCommand"
  | lexerCommandExpr => "lexerCommandExpr"
  | element => "element"
  | labeledElement => "labeledElement"
  | subrule => "subrule"
  | lexerSubrule => "lexerSubrule"
  | blockSuffix => "blockSuffix"
  | ebnfSuffix => "ebnfSuffix"
  | atom => "atom"
  | blockSet => "blockSet"
  | setElement => "setElement"
  | block => "block"
  | ruleReference => "ruleref"
  | range => "range"
  | terminal => "terminal"
  | elementOptions => "elementOptions"
  | elementOption => "elementOption"
  | actionElement => "actionElement"

def ofName? (name : String) : Option Production := all.find? (·.name == name)

end Production

end GrammarFrontend
