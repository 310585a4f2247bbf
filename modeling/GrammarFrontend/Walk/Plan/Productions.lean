import GrammarFrontend.Walk.Plan.Element
import GrammarFrontend.Walk.Plan.Grammar
import GrammarFrontend.Walk.Plan.Rule

/-! The plan of every production. -/

namespace GrammarFrontend

def Visit.plan (v : Visit) : Plan :=
  match v.production with
  | .grammarSpec => .grammarSpec v.node
  | .prequelConstructs => .prequelConstructs v.parts
  | .prequelConstruct => .prequelConstruct v.node
  | .optionsSpec => .optionsSpec v.node
  | .optionDef => .optionDef v.node
  | .optionValue => .optionValue v.node
  | .delegateGrammars => .delegateGrammars v.node
  | .delegateGrammar => .delegateGrammar v.node
  | .tokensSpec => .tokensSpec v.node
  | .tokenSpec => .tokenSpec v.node
  | .channelsSpec => .channelsSpec v.node
  | .channelSpec => .channelSpec v.node
  | .namedAction => .namedAction v.node
  | .rules => .rules v.node
  | .modeSection => .modeSection v.node
  | .lexerRule => .lexerRule v.node
  | .parserRule => .parserRule v.node
  | .exceptionGroup => .exceptionGroup v.parts
  | .exceptionHandler => .exceptionHandler v.node
  | .finallyClause => .finallyClause v.node
  | .locals => .locals v.node
  | .ruleReturns => .ruleReturns v.node
  | .throwsSpec => .throwsSpec v.node
  | .ruleAction => .ruleAction v.node
  | .ruleModifier => .ruleModifier v.node
  | .lexerRuleBlock => .lexerRuleBlock v.node
  | .ruleBlock => .ruleBlock v.node
  | .lexerOuterAlternative => .lexerOuterAlternative v.node
  | .outerAlternative => .outerAlternative v.node
  | .lexerAlternative => .lexerAlternative v.node
  | .lexerElements => .lexerElements v.node
  | .lexerElement => .lexerElement v.node
  | .lexerBlock => .lexerBlock v.node
  | .lexerAtom => .lexerAtom v.node
  | .alternative => .alternative v.node
  | .lexerCommand => .lexerCommand v.node
  | .lexerCommandExpr => .lexerCommandExpr v.node
  | .element => .element v.node
  | .labeledElement => .labeledElement v.node
  | .subrule => .subrule v.node
  | .lexerSubrule => .lexerSubrule v.node
  | .blockSuffix => .blockSuffix v.node
  | .ebnfSuffix => .ebnfSuffix v.node
  | .atom => .atom v.node
  | .blockSet => .blockSet v.node
  | .setElement => .setElement v.node
  | .block => .block v.node
  | .ruleReference => .ruleReference v.node
  | .range => .range v.node
  | .terminal => .terminal v.node
  | .elementOptions => .elementOptions v.element v.node
  | .elementOption => .elementOption v.element v.node
  | .actionElement => .actionElement v.node

end GrammarFrontend
