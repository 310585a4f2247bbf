import GrammarFrontend.Proofs.Walk.Brackets
import GrammarFrontend.Proofs.Walk.Readings

/-! Where a walk names the grammar, the mode and the rule that it is in, and where it outlines a
rule. Only the root, the sections of modes and the rules name something, each with the first child
of its node and once in its plan, and only rules and outer alternatives announce the outline of a
rule; all other productions are confined to other announcements, and they visit the outer levels of
a grammar in their order.
-/

namespace GrammarFrontend

-----------------------------------------------------------------------------------------
-- The outer levels of a grammar
-----------------------------------------------------------------------------------------

namespace Production

def isRule : Production → Bool
  | lexerRule | parserRule => true
  | _ => false

theorem isRule_iff {p : Production} : p.isRule = true ↔ p = lexerRule ∨ p = parserRule := by
  cases p <;> simp [isRule]

/-- Whether the production is the block of a rule, with the outer alternatives in it. -/
def isRuleBlock : Production → Bool
  | lexerRuleBlock | ruleBlock => true
  | _ => false

def isOuterAlternative : Production → Bool
  | lexerOuterAlternative | outerAlternative => true
  | _ => false

/-- Whether the production announces a part of the outline of a rule. -/
def isOutline (p : Production) : Bool := p.isRule || p.isOuterAlternative

/-- Whether a walk is never inside of a rule where it enters the production. -/
def isOutside : Production → Bool
  | grammarSpec | rules | modeSection | lexerRule | parserRule => true
  | _ => false

/-- Whether a production may visit another one. The outer levels of a grammar are visited only from
the level above, and everything else from anywhere.
-/
def admits (outer : Production) : Production → Bool
  | grammarSpec => false
  | rules | modeSection => outer == grammarSpec
  | lexerRule => outer == rules || outer == modeSection
  | parserRule => outer == rules
  | lexerRuleBlock => outer == lexerRule
  | ruleBlock => outer == parserRule
  | lexerOuterAlternative => outer == lexerRuleBlock
  | outerAlternative => outer == ruleBlock
  | _ => true

/-- What is outside of rules is visited only from what is outside of rules and is none itself. -/
theorem isOutside_of_admits {outer inner : Production} (h : outer.admits inner = true)
    (inside : inner.isOutside = true)
    : outer.isOutside = true ∧ outer.isRule = false := by
  cases inner <;> simp [admits, isOutside] at h inside
  case rules | modeSection | parserRule =>
    subst h
    exact ⟨rfl, rfl⟩
  case lexerRule => rcases h with rfl | rfl <;> exact ⟨rfl, rfl⟩

/-- Only a rule visits the block of a rule. -/
theorem isRule_of_admits {outer inner : Production} (h : outer.admits inner = true)
    (inside : inner.isRuleBlock = true)
    : outer.isRule = true := by
  cases inner <;> simp [admits, isRuleBlock] at h inside
  all_goals
    subst h
    rfl

end Production

namespace Callback

/-- The callbacks that name the grammar or the mode. -/
def isNaming : Callback → Bool
  | discoverGrammar .. | modeDef .. => true
  | _ => false

/-- The callbacks that outline a rule: its discovery, and its outer alternatives. -/
def isOutline : Callback → Bool
  | discoverRule _ | discoverLexerRule .. | discoverOuterAlt _ | finishOuterAlt _ => true
  | _ => false

/-- The number of the outer alternative that a command is for. -/
def commandNumber? : Callback → Option Nat
  | lexerCommand number _ | lexerCallCommand number _ _ => some number
  | _ => none

end Callback

-----------------------------------------------------------------------------------------
-- Plans that name nothing
-----------------------------------------------------------------------------------------

/-- A plan of a production names neither the grammar nor a mode nor a rule, opens no brackets of its
own, outlines no rule unless the production does, and gives no number to a command. It visits only
what the production admits, and moves on to the next outer alternative only in the block of a rule.
-/
@[simp]
def Plan.Confined (p : Production) : Plan → Prop
  | .done | .fail _ | .announceOption _ _ | .announceCommand _ _ => True
  | .seq first next => first.Confined p ∧ next.Confined p
  | .visit v => p.admits v.production = true
  | .attempt plan | .inAlternative _ plan | .inSuffix plan => plan.Confined p
  | .announce callback =>
      callback.isBracket = false
      ∧ callback.isNaming = false
      ∧ callback.commandNumber? = none
      ∧ (callback.isOutline = true → p.isOutline = true)
  | .nextAlternative _ => p.isRuleBlock = true
  | .setGrammar _ | .setMode _ | .inRule _ _ _ => False

namespace Plan

variable {p : Production}

@[simp]
theorem steps_confined {plans : List Plan}
    : (steps plans).Confined p ↔ ∀ plan ∈ plans, plan.Confined p := by
  induction plans with
  | nil => simp [steps]
  | cons plan plans ih => simp [steps, ih]

@[simp]
theorem ite_confined {c : Prop} [Decidable c] {first second : Plan}
    : (if c then first else second).Confined p
      ↔ (c → first.Confined p) ∧ (¬c → second.Confined p) := by
  split <;> simp [*]

@[simp]
theorem each_confined {plans : List Plan}
    : (each plans).Confined p ↔ ∀ plan ∈ plans, plan.Confined p := by
  simp [each]

@[simp]
theorem eachRequired_confined {q : Production} {expected : NodeKind} {plans : List Plan}
    : (eachRequired q expected plans).Confined p ↔ ∀ plan ∈ plans, plan.Confined p := by
  cases plans <;> simp [eachRequired]

@[simp]
theorem visitAs_confined {q : Production} {n : Node}
    : (visitAs q n).Confined p ↔ p.admits q = true := Iff.rfl

/-- A reading that goes on with a plan is confined if each such plan is. -/
@[simp]
theorem ofReading_bind_confined {α : Type} {reading : Except WalkError α}
    {next : α → Except WalkError Plan}
    : (ofReading (reading >>= next)).Confined p
      ↔ ∀ a, reading = .ok a → (ofReading (next a)).Confined p := by
  cases reading with
  | error e => exact ⟨by simp, fun _ => trivial⟩
  | ok a =>
      refine ⟨?_, fun h => h a rfl⟩
      intro h b hb
      obtain rfl := Except.ok.inj hb
      exact h

@[simp]
theorem ofReading_map_confined {α : Type} {reading : Except WalkError α} {plan : α → Plan}
    : (ofReading (plan <$> reading)).Confined p
      ↔ ∀ a, reading = .ok a → (plan a).Confined p := by
  cases reading with
  | error e => exact ⟨by simp, fun _ => trivial⟩
  | ok a =>
      refine ⟨?_, fun h => h a rfl⟩
      intro h b hb
      obtain rfl := Except.ok.inj hb
      exact h

/-- Options at the front of an element are confined in any production. -/
@[simp]
theorem leadingOptions_confined {element : Node} {children : List Node}
    : (leadingOptions element children).1.Confined p := by
  simp [leadingOptions, optionsOf, Production.admits]

/-- A terminal is confined in any production. -/
@[simp]
theorem terminalOf_confined {q : Production} {n : Node} : (terminalOf q n).Confined p := by
  simp [terminalOf, apply_ite announce, Callback.isBracket, Callback.isNaming,
    Callback.commandNumber?, Callback.isOutline]

end Plan

-----------------------------------------------------------------------------------------
-- The plans of all productions
-----------------------------------------------------------------------------------------

/-- How a plan of a production at a node names things: it fails at once, it is no rule and confined,
or it first names the grammar, the mode or the rule by the first child of the node and is confined
from there on.
-/
inductive Plan.Names (p : Production) (n : Node) : Plan → Prop
  | fail (e : WalkError) : Names p n (.fail e)
  | nothing {plan : Plan} (noRule : p.isRule = false) (confined : plan.Confined p)
    : Names p n plan
  | grammar {id : Node} {body : Plan} (isRoot : p = .grammarSpec)
    (first : n.children.head? = some id) (confined : body.Confined p)
    : Names p n (.seq (.setGrammar id.text) (.seq (.announce (.discoverGrammar n id)) body))
  | mode {id : Node} {body : Plan} (isMode : p = .modeSection) (confined : body.Confined p)
    : Names p n (.seq (.setMode id.text) (.seq (.announce (.modeDef n id)) body))
  | rule {id : Node} {body : Plan} (isRule : p.isRule = true)
    (first : n.children.head? = some id) (confined : body.Confined p)
    : Names p n (.inRule id.text n body)

namespace Plan

attribute [local simp] optionsOf Visit.of Production.admits Production.isRuleBlock
  Production.isOutline Production.isRule Callback.isBracket Callback.isNaming
  Callback.commandNumber? Callback.isOutline

/-- A reading fails or goes on. -/
theorem ofReading_bind_elim {α : Type} {motive : Plan → Prop} {reading : Except WalkError α}
    {next : α → Except WalkError Plan} (hfail : ∀ e, motive (.fail e))
    (hnext : ∀ a, reading = .ok a → motive (ofReading (next a)))
    : motive (ofReading (reading >>= next)) := by
  cases reading with
  | error e => exact hfail e
  | ok a => exact hnext a rfl

/-- The root names the grammar. -/
theorem grammarSpec_names (n : Node) : (grammarSpec n).Names .grammarSpec n := by
  refine ofReading_bind_elim (motive := Names .grammarSpec n) .fail (fun _ _ => ?_)
  refine ofReading_bind_elim (motive := Names .grammarSpec n) .fail ?_
  intro read hread
  obtain ⟨id, rest⟩ := read
  obtain ⟨children, -⟩ := Shape.expect_eq_ok.mp hread
  exact .grammar rfl (by simp [children]) (by simp [steps])

/-- A section names its mode. -/
theorem modeSection_names (n : Node) : (modeSection n).Names .modeSection n := by
  refine ofReading_bind_elim (motive := Names .modeSection n) .fail (fun _ _ => ?_)
  refine ofReading_bind_elim (motive := Names .modeSection n) .fail ?_
  intro read hread
  exact .mode rfl (by simp)

/-- A lexer rule names itself. -/
theorem lexerRule_names (n : Node) : (lexerRule n).Names .lexerRule n := by
  refine ofReading_bind_elim (motive := Names .lexerRule n) .fail (fun _ _ => ?_)
  refine ofReading_bind_elim (motive := Names .lexerRule n) .fail ?_
  intro read hread
  obtain ⟨id, rest⟩ := read
  obtain ⟨children, -⟩ := Shape.expect_eq_ok.mp hread
  exact .rule rfl (by simp [children]) (by simp)

/-- A parser rule names itself. -/
theorem parserRule_names (n : Node) : (parserRule n).Names .parserRule n := by
  have hpart (part : Node) : (ruleHeaderPart part).Confined .parserRule := by
    unfold ruleHeaderPart
    split <;> simp
  refine ofReading_bind_elim (motive := Names .parserRule n) .fail (fun _ _ => ?_)
  refine ofReading_bind_elim (motive := Names .parserRule n) .fail ?_
  intro read hread
  obtain ⟨id, rest⟩ := read
  obtain ⟨children, -⟩ := Shape.expect_eq_ok.mp hread
  exact .rule rfl (by simp [children]) (by simp [hpart])

end Plan

attribute [local simp] Visit.of Production.admits Production.isRuleBlock Production.isOutline
  Production.isOuterAlternative Callback.isBracket Callback.isNaming Callback.commandNumber?
  Callback.isOutline

/-- The plans of the productions outside and around rules are confined, rules and what else names
things apart.
-/
theorem Visit.plan_confined {v : Visit} (noRule : v.production.isRule = false)
    (noRoot : v.production ≠ .grammarSpec) (noMode : v.production ≠ .modeSection)
    : v.plan.Confined v.production := by
  obtain ⟨p, n, parts, element⟩ := v
  cases p <;> simp only [Visit.plan]
  case grammarSpec => exact absurd rfl noRoot
  case modeSection => exact absurd rfl noMode
  case lexerRule | parserRule => cases noRule
  case prequelConstructs | optionsSpec | optionDef | optionValue | delegateGrammars | tokensSpec
      | tokenSpec | channelsSpec | channelSpec =>
    simp [Plan.prequelConstructs, Plan.optionsSpec, Plan.optionDef, Plan.optionValue,
      Plan.delegateGrammars, Plan.tokensSpec, Plan.tokenSpec, Plan.channelsSpec, Plan.channelSpec]
  case prequelConstruct =>
    unfold Plan.prequelConstruct
    split <;> simp
  case delegateGrammar =>
    unfold Plan.delegateGrammar
    split <;> simp
  case namedAction =>
    simp only [Plan.namedAction, Plan.ofReading_bind_confined, Plan.ofReading_map_confined,
      bind_pure_comp]
    intros
    split <;> simp
  case rules =>
    have hsection (rule : Node) : (Plan.ruleOfSection rule).Confined .rules := by
      unfold Plan.ruleOfSection
      split
      · split <;> simp
      · simp
    simp [Plan.rules, hsection]
  case exceptionHandler | finallyClause | locals | ruleReturns | ruleAction | ruleModifier
      | lexerRuleBlock | ruleBlock | lexerOuterAlternative | outerAlternative =>
    simp [Plan.exceptionHandler, Plan.finallyClause, Plan.locals, Plan.ruleReturns,
      Plan.argActionOf, Plan.ruleAction, Plan.ruleModifier, Plan.lexerRuleBlock, Plan.ruleBlock,
      Plan.outerAlternatives, Plan.lexerOuterAlternative, Plan.outerAlternative]
  case exceptionGroup =>
    simp only [Plan.exceptionGroup, Plan.steps_confined, List.forall_mem_cons]
    refine ⟨by simp, ?_, by simp⟩
    split <;> simp
  case throwsSpec =>
    simp only [Plan.throwsSpec, Plan.ofReading_bind_confined]
    intros
    split <;> trivial
  case lexerCommandExpr | lexerBlock | actionElement | blockSuffix | ebnfSuffix | blockSet
      | block | ruleReference | range | terminal | elementOptions =>
    simp [Plan.lexerCommandExpr, Plan.lexerBlock, Plan.actionElement, Plan.blockSuffix,
      Plan.ebnfSuffix, Plan.blockSet, Plan.block, Plan.ruleReference, Plan.range, Plan.terminal,
      Plan.elementOptions, apply_ite Plan.announce]
  case lexerAlternative | lexerCommand | lexerElement | setElement | elementOption =>
    simp only [Plan.lexerAlternative, Plan.lexerCommand, Plan.lexerElement, Plan.setElement,
      Plan.elementOption]
    split <;> simp
  case lexerElements | alternative =>
    simp only [Plan.lexerElements, Plan.alternative, Plan.alternativeOf,
      Plan.ofReading_map_confined, Plan.Confined, Plan.steps_confined, List.forall_mem_cons,
      bind_pure_comp]
    intros
    refine ⟨by simp, ?_, by simp⟩
    split <;> simp
  case lexerAtom | atom =>
    simp only [Plan.lexerAtom, Plan.atom]
    split <;> simp [Plan.complementOf, Plan.wildcard, Plan.qualified]
  case element =>
    unfold Plan.element
    split <;> simp [Plan.complementOf]
  case labeledElement =>
    simp only [Plan.labeledElement, Plan.ofReading_bind_confined]
    intros
    split
    · trivial
    · simp
  case subrule | lexerSubrule =>
    simp only [Plan.subrule, Plan.lexerSubrule, Plan.suffixedBlock]
    split <;> simp

/-- The plan of every production names what the production names. -/
theorem Visit.plan_names (v : Visit) : v.plan.Names v.production v.node := by
  obtain ⟨p, n, parts, element⟩ := v
  by_cases noRoot : p = .grammarSpec
  · subst noRoot
    exact Plan.grammarSpec_names n
  by_cases noMode : p = .modeSection
  · subst noMode
    exact Plan.modeSection_names n
  cases hrule : p.isRule with
  | false => exact .nothing hrule (plan_confined hrule noRoot noMode)
  | true =>
      rcases Production.isRule_iff.mp hrule with rfl | rfl
      · exact Plan.lexerRule_names n
      · exact Plan.parserRule_names n

end GrammarFrontend
