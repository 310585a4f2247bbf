import GrammarFrontend.Proofs.Walk.Descent

/-! What the plan of a production can do, step by step. Its own mismatches are about its node and
the children there, what it attempts is one visit, only options are announced as options, and what
leads to an option is visited from few places.
-/

namespace GrammarFrontend

-----------------------------------------------------------------------------------------
-- Every step of a plan
-----------------------------------------------------------------------------------------

/-- The steps of a plan are all good: what is not put together from other plans, and the attempts
with what is attempted in them.
-/
@[simp]
def Plan.Every (good : Plan → Prop) : Plan → Prop
  | .done => good .done
  | .fail e => good (.fail e)
  | .seq first next => first.Every good ∧ next.Every good
  | .visit v => good (.visit v)
  | .attempt plan => good (.attempt plan) ∧ plan.Every good
  | .announce callback => good (.announce callback)
  | .announceOption id value => good (.announceOption id value)
  | .announceCommand id arg => good (.announceCommand id arg)
  | .setGrammar name => good (.setGrammar name)
  | .setMode name => good (.setMode name)
  | .nextAlternative alt => good (.nextAlternative alt)
  | .inRule _ _ body | .inAlternative _ body | .inSuffix body => body.Every good

/-- What a plan does when it visits one node, after it moved on to the node if that is an outer
alternative.
-/
inductive Plan.Attempts : Plan → Visit → Prop
  | visit (v : Visit) : Attempts (.visit v) v
  | alternative (alt : Node) (v : Visit)
    : Attempts (.seq (.nextAlternative alt) (.seq (.visit v) .done)) v

/-- The callbacks for options, with the kind of the node that the option belongs to, if that is not
the grammar.
-/
def Callback.optionOwner? : Callback → Option (Option NodeKind)
  | grammarOption .. => some none
  | ruleOption .. => some (some .rule)
  | blockOption .. => some (some .block)
  | _ => none

namespace Production

/-- The productions of blocks inside of alternatives. -/
def isBlock : Production → Bool
  | block | lexerBlock => true
  | _ => false

/-- The productions around the blocks inside of an alternative, and these blocks. -/
def isElement : Production → Bool
  | block | lexerBlock | subrule | lexerSubrule | element | lexerElement | labeledElement => true
  | _ => false

/-- The productions of the elements of one alternative. -/
def isAlternative : Production → Bool
  | alternative | lexerElements => true
  | _ => false

end Production

/-- What stands before the rules of a grammar. -/
def Node.prequels (n : Node) : List Node := (Shape.takeRun Plan.prequelKinds n.children.tail).1

namespace Visit

/-- The mismatches that a production itself can find, each with the node that it is about: its own
node or a child of it is another one than expected, or children are missing.
-/
inductive Raises (v : Visit) : Option Node → WalkError → Prop
  | found {p : Production} {expected : String} {offender : Node}
    (there : offender = v.node ∨ offender ∈ v.node.children)
    : Raises v (some offender) (.mismatch p expected offender.kind.name offender.span)
  | missing {p : Production} {expected : String}
    : Raises v none (.mismatch p expected "end of children" none)

/-- What a visit has to be that makes another one, if that is on the way to an option. -/
@[simp]
def Leads (v u : Visit) : Prop :=
  match u.production with
  | .grammarSpec => False
  | .prequelConstructs =>
      v.production = .grammarSpec
      ∧ v.node.kind = .grammar
      ∧ u.node = v.node
      ∧ u.parts = v.node.prequels
  | .prequelConstruct => v.production = .prequelConstructs ∧ u.node ∈ v.parts
  | .optionsSpec =>
      v.production = .prequelConstruct ∧ u.node = v.node
      ∨ v.production = .parserRule ∧ v.node.kind = .rule ∧ u.node ∈ v.node.children
      ∨ v.production.isBlock = true ∧ v.node.kind = .block ∧ u.node ∈ v.node.children
  | .optionDef =>
      v.production = .optionsSpec ∧ v.node.kind = .options ∧ u.node ∈ v.node.children
  | p =>
      p.isElement = true
      → v.production.isElement = true ∨ v.production.isAlternative = true ∧ v.node.kind = .alt

/-- What a step in the plan of a visit can be. -/
@[simp]
def Takes (v : Visit) : Plan → Prop
  | .fail e => ∃ offender, v.Raises offender e
  | .visit u => v.Leads u
  | .attempt plan => ∃ u, plan.Attempts u
  | .announce callback => callback.optionOwner? = none
  | .announceOption _ _ => v.production = .optionDef
  | _ => True

end Visit

-----------------------------------------------------------------------------------------
-- Readings
-----------------------------------------------------------------------------------------

namespace Shape

/-- A reading that ends with an error ends with one that the visit can find. -/
def RaisedBy {α : Type} (v : Visit) (reading : Except WalkError α) : Prop :=
  ∀ e, reading = .error e → ∃ offender, v.Raises offender e

variable {v : Visit} {p : Production} {kinds : List NodeKind}

theorem raises_wrongKind {n : Node} (there : n = v.node ∨ n ∈ v.node.children)
    : ∃ offender, v.Raises offender (wrongKind p kinds n) :=
  ⟨some n, .found there⟩

theorem raises_missing {expected : String} : ∃ offender, v.Raises offender (missing p expected) :=
  ⟨none, .missing⟩

theorem requireKind_raisedBy {n : Node} (there : n = v.node ∨ n ∈ v.node.children)
    : RaisedBy v (requireKind p kinds n) := by
  intro e h
  unfold requireKind at h
  split at h
  · cases h
  · obtain rfl := Except.error.inj h
    exact ⟨_, .found there⟩

theorem expect_raisedBy {nodes : List Node} (within : nodes ⊆ v.node.children)
    : RaisedBy v (expect p kinds nodes) := by
  intro e h
  unfold expect at h
  split at h
  · obtain rfl := Except.error.inj h
    exact ⟨_, .missing⟩
  · rename_i n rest
    split at h
    · cases h
    · obtain rfl := Except.error.inj h
      exact ⟨_, .found (.inr (within List.mem_cons_self))⟩

theorem finish_raisedBy {nodes : List Node} (within : nodes ⊆ v.node.children)
    : RaisedBy v (finish p nodes) := by
  intro e h
  unfold finish at h
  split at h
  · cases h
  · rename_i n rest
    obtain rfl := Except.error.inj h
    exact ⟨_, .found (.inr (within List.mem_cons_self))⟩

end Shape

-----------------------------------------------------------------------------------------
-- Plans put together
-----------------------------------------------------------------------------------------

namespace Plan

variable {v : Visit}

@[simp]
theorem steps_takes {plans : List Plan}
    : (steps plans).Every v.Takes ↔ ∀ plan ∈ plans, plan.Every v.Takes := by
  induction plans with
  | nil => simp [steps]
  | cons plan plans ih => simp [steps, ih]

@[simp]
theorem ite_takes {c : Prop} [Decidable c] {first second : Plan}
    : (if c then first else second).Every v.Takes
      ↔ (c → first.Every v.Takes) ∧ (¬c → second.Every v.Takes) := by
  split <;> simp [*]

@[simp]
theorem each_takes {plans : List Plan}
    : (each plans).Every v.Takes
      ↔ ∀ plan ∈ plans, (∃ u, plan.Attempts u) ∧ plan.Every v.Takes := by
  simp [each]

@[simp]
theorem eachRequired_takes {p : Production} {expected : NodeKind} {plans : List Plan}
    : (eachRequired p expected plans).Every v.Takes
      ↔ ∀ plan ∈ plans, (∃ u, plan.Attempts u) ∧ plan.Every v.Takes := by
  cases plans with
  | nil => exact iff_of_true ⟨_, .missing⟩ (by simp)
  | cons plan plans => simp [eachRequired]

@[simp]
theorem visitAs_takes {p : Production} {n : Node}
    : (visitAs p n).Every v.Takes ↔ v.Leads (.of p n) := Iff.rfl

@[simp]
theorem visit_attempts {u : Visit} : ∃ w, (visit u).Attempts w := ⟨u, .visit u⟩

@[simp]
theorem visitAs_attempts {p : Production} {n : Node} : ∃ u, (visitAs p n).Attempts u :=
  ⟨_, .visit _⟩

/-- The steps of a reading that goes on with a plan are those of each such plan, and its failure. -/
@[simp]
theorem ofReading_bind_takes {α : Type} {reading : Except WalkError α}
    {next : α → Except WalkError Plan}
    : (ofReading (reading >>= next)).Every v.Takes
      ↔ Shape.RaisedBy v reading
        ∧ ∀ a, reading = .ok a → (ofReading (next a)).Every v.Takes := by
  cases reading with
  | error e =>
      refine ⟨fun h => ⟨?_, by simp⟩, fun h => h.1 e rfl⟩
      intro other hother
      obtain rfl := Except.error.inj hother
      exact h
  | ok a =>
      refine ⟨fun h => ⟨by simp [Shape.RaisedBy], ?_⟩, fun h => h.2 a rfl⟩
      intro b hb
      obtain rfl := Except.ok.inj hb
      exact h

@[simp]
theorem ofReading_map_takes {α : Type} {reading : Except WalkError α} {plan : α → Plan}
    : (ofReading (plan <$> reading)).Every v.Takes
      ↔ Shape.RaisedBy v reading ∧ ∀ a, reading = .ok a → (plan a).Every v.Takes := by
  simp only [map_eq_pure_bind, ofReading_bind_takes]
  rfl

end Plan

-----------------------------------------------------------------------------------------
-- The plans of all productions
-----------------------------------------------------------------------------------------

attribute [local simp] Shape.raises_wrongKind Shape.raises_missing Shape.requireKind_raisedBy
  Shape.expect_raisedBy Shape.finish_raisedBy Callback.optionOwner? Production.isElement
  Production.isAlternative Production.isBlock Visit.of List.subset_cons_self

namespace Plan

variable {v : Visit}

@[simp]
theorem alternative_attempts {p : Production} {alt : Node}
    : ∃ u, (steps [nextAlternative alt, visitAs p alt]).Attempts u :=
  ⟨_, .alternative alt _⟩

/-- Options of an element are on no way to an option. -/
@[simp]
theorem leadingOptions_takes {element : Node} {nodes : List Node}
    : (leadingOptions element nodes).1.Every v.Takes := by
  simp [leadingOptions, optionsOf]

@[simp]
theorem finish_leadingOptions {p : Production} {element : Node} {nodes : List Node}
    (within : nodes ⊆ v.node.children)
    : Shape.RaisedBy v (Shape.finish p (leadingOptions element nodes).2) :=
  Shape.finish_raisedBy (leadingOptions_within within)

theorem terminalOf_takes {p : Production} {n : Node} (h : n = v.node)
    : (terminalOf p n).Every v.Takes := by
  simp [terminalOf, apply_ite announce, h]

end Plan

namespace Plan

variable {n element : Node} {parts : List Node}

theorem grammarSpec_takes
    : (grammarSpec n).Every (Visit.Takes ⟨.grammarSpec, n, parts, element⟩) := by
  rw [grammarSpec, ofReading_bind_takes]
  refine ⟨by simp, ?_⟩
  intro _ hkind
  rw [ofReading_bind_takes]
  refine ⟨by simp, ?_⟩
  intro read hread
  obtain ⟨id, rest⟩ := read
  obtain ⟨children, -⟩ := Shape.expect_eq_ok.mp hread
  have hrest : rest ⊆ n.children := by simp [children]
  obtain ⟨-, hrest⟩ := Shape.takeRun_within prequelKinds hrest
  have hkind : n.kind = .grammar := by simpa using hkind
  have hprequels : (Shape.takeRun prequelKinds rest).1 = n.prequels := by
    rw [Node.prequels, children, List.tail_cons]
  simp [ofReading_pure, hrest, hkind, hprequels]

theorem lexerRule_takes : (lexerRule n).Every (Visit.Takes ⟨.lexerRule, n, parts, element⟩) := by
  rw [lexerRule, ofReading_bind_takes]
  refine ⟨by simp, ?_⟩
  intro _ hkind
  rw [ofReading_bind_takes]
  refine ⟨by simp, ?_⟩
  intro read hread
  obtain ⟨id, rest⟩ := read
  obtain ⟨children, -⟩ := Shape.expect_eq_ok.mp hread
  have hrest : rest ⊆ n.children := by simp [children]
  obtain ⟨-, hrest⟩ := Shape.takeIf_within .docComment hrest
  obtain ⟨-, hrest⟩ := Shape.takeIf_within .ruleModifiers hrest
  simp only [ofReading_pure, Every, steps_takes, List.forall_mem_cons, ofReading_bind_takes]
  refine ⟨by simp, ⟨Shape.expect_raisedBy hrest, ?_⟩, by simp⟩
  intro read hread
  obtain ⟨block, rest⟩ := read
  obtain ⟨tail, -⟩ := Shape.expect_eq_ok.mp hread
  rw [tail] at hrest
  obtain ⟨-, hrest⟩ := List.cons_subset.mp hrest
  simp [hrest]

theorem parserRule_takes : (parserRule n).Every (Visit.Takes ⟨.parserRule, n, parts, element⟩) := by
  rw [parserRule, ofReading_bind_takes]
  refine ⟨by simp, ?_⟩
  intro _ hkind
  rw [ofReading_bind_takes]
  refine ⟨by simp, ?_⟩
  intro read hread
  obtain ⟨id, rest⟩ := read
  obtain ⟨children, -⟩ := Shape.expect_eq_ok.mp hread
  have hrest : rest ⊆ n.children := by simp [children]
  obtain ⟨-, hrest⟩ := Shape.takeIf_within .docComment hrest
  obtain ⟨-, hrest⟩ := Shape.takeIf_within .ruleModifiers hrest
  obtain ⟨-, hrest⟩ := Shape.takeIf_within .argAction hrest
  obtain ⟨-, hrest⟩ := Shape.takeIf_within .returns hrest
  obtain ⟨-, hrest⟩ := Shape.takeIf_within .throws hrest
  obtain ⟨-, hrest⟩ := Shape.takeIf_within .locals hrest
  obtain ⟨hparts, hrest⟩ := Shape.takeRun_within [.options, .namedAction] hrest
  have hkind : n.kind = .rule := by simpa using hkind
  have hpart (part : Node) (h : part ∈ n.children)
      : (ruleHeaderPart part).Every (Visit.Takes ⟨.parserRule, n, parts, element⟩) := by
    unfold ruleHeaderPart
    split <;> simp [hkind, h]
  simp only [ofReading_pure, Every, steps_takes, List.forall_mem_cons, bind_pure_comp,
    ofReading_map_takes]
  refine ⟨by simp, by simp, by simp, by simp, ?_, ⟨Shape.expect_raisedBy hrest, by simp⟩, by simp⟩
  simpa using fun part h => hpart part (hparts h)

theorem exceptionGroup_takes (within : parts ⊆ n.children)
    : (exceptionGroup parts).Every (Visit.Takes ⟨.exceptionGroup, n, parts, element⟩) := by
  obtain ⟨-, htail⟩ := Shape.takeRun_within [.catchClause] within
  simp only [exceptionGroup, steps_takes, List.forall_mem_cons]
  refine ⟨by simp, ?_, by simp⟩
  split
  · trivial
  · simp
  · rename_i extra more tail
    rw [tail] at htail
    exact ⟨_, .found (.inr (htail (by simp)))⟩

theorem labeledElement_takes
    : (labeledElement n).Every (Visit.Takes ⟨.labeledElement, n, parts, element⟩) := by
  rw [labeledElement, ofReading_bind_takes]
  refine ⟨by simp, ?_⟩
  intro _ hkind
  rw [ofReading_bind_takes]
  refine ⟨by simp, ?_⟩
  intro read hread
  obtain ⟨id, rest⟩ := read
  obtain ⟨children, -⟩ := Shape.expect_eq_ok.mp hread
  cases rest with
  | nil => simp [ofReading]
  | cons inner rest => simp [children]

end Plan

/-- The plan of every production, by cases on the productions. -/
theorem Visit.plan_takes {v : Visit} (proper : v.Proper) : v.plan.Every v.Takes := by
  obtain ⟨p, n, parts, element⟩ := v
  cases p <;> simp only [Visit.plan]
  case prequelConstructs =>
    simp [Plan.prequelConstructs]
  case prequelConstruct =>
    unfold Plan.prequelConstruct
    split <;> simp
  case optionsSpec | optionDef | delegateGrammars | tokensSpec | channelsSpec | modeSection
      | lexerRuleBlock | ruleBlock | blockSet =>
    simp +contextual [Plan.optionsSpec, Plan.optionDef, Plan.delegateGrammars, Plan.tokensSpec,
      Plan.channelsSpec, Plan.modeSection, Plan.lexerRuleBlock, Plan.ruleBlock,
      Plan.outerAlternatives, Plan.blockSet]
  case optionValue | tokenSpec | channelSpec | exceptionHandler | finallyClause | locals
      | ruleReturns | ruleAction | ruleModifier | lexerOuterAlternative | outerAlternative
      | lexerCommandExpr | blockSuffix | ebnfSuffix | range =>
    simp +contextual [Plan.optionValue, Plan.tokenSpec, Plan.channelSpec, Plan.exceptionHandler,
      Plan.finallyClause, Plan.locals, Plan.ruleReturns, Plan.argActionOf, Plan.ruleAction,
      Plan.ruleModifier, Plan.lexerOuterAlternative, Plan.outerAlternative, Plan.lexerCommandExpr,
      Plan.blockSuffix, Plan.ebnfSuffix, Plan.range]
  case delegateGrammar =>
    unfold Plan.delegateGrammar
    split <;> simp +contextual
  case rules =>
    have hsection (rule : Node) (h : rule ∈ n.children)
        : (∃ u, (Plan.ruleOfSection rule).Attempts u)
          ∧ (Plan.ruleOfSection rule).Every (Visit.Takes ⟨.rules, n, parts, element⟩) := by
      unfold Plan.ruleOfSection
      split
      · split <;> simp
      · simp
    simpa [Plan.rules] using fun _ => hsection
  case throwsSpec =>
    simp only [Plan.throwsSpec, Plan.ofReading_bind_takes]
    refine ⟨by simp, ?_⟩
    intros
    split
    · simp [Plan.ofReading]
    · rename_i other found _
      exact ⟨_, .found (.inr (List.mem_of_find?_eq_some found))⟩
    · trivial
  case lexerBlock =>
    obtain ⟨hoptions, hrest⟩ := Shape.takeIf_within .options (List.Subset.refl n.children)
    simpa +contextual [Plan.lexerBlock] using fun _ => hoptions
  case block =>
    obtain ⟨hoptions, hrest⟩ := Shape.takeIf_within .options (List.Subset.refl n.children)
    simpa +contextual [Plan.block] using fun _ => hoptions
  case lexerAlternative | lexerCommand | lexerElement | setElement | elementOption =>
    simp only [Plan.lexerAlternative, Plan.lexerCommand, Plan.lexerElement, Plan.setElement,
      Plan.elementOption]
    split <;> simp +contextual [Plan.terminalOf_takes]
  case lexerAtom | atom =>
    simp only [Plan.lexerAtom, Plan.atom]
    split <;>
      simp +contextual [Plan.complementOf, Plan.wildcard, Plan.qualified]
  case element =>
    unfold Plan.element
    split <;> simp +contextual [Plan.complementOf]
  case subrule | lexerSubrule =>
    simp only [Plan.subrule, Plan.lexerSubrule, Plan.suffixedBlock]
    split <;> simp +contextual
  case grammarSpec => exact Plan.grammarSpec_takes
  case lexerRule => exact Plan.lexerRule_takes
  case parserRule => exact Plan.parserRule_takes
  case exceptionGroup => exact Plan.exceptionGroup_takes proper
  case labeledElement => exact Plan.labeledElement_takes
  case ruleReference =>
    obtain ⟨-, hrest⟩ := Shape.takeIf_within .argAction (List.Subset.refl n.children)
    simp [Plan.ruleReference, hrest]
  case elementOptions =>
    simp [Plan.elementOptions]
  case terminal => exact Plan.terminalOf_takes rfl
  case actionElement =>
    simp [Plan.actionElement, apply_ite Plan.announce]
  case namedAction =>
    simp only [Plan.namedAction, Plan.ofReading_bind_takes, Plan.ofReading_map_takes,
      bind_pure_comp]
    refine ⟨by simp, ?_⟩
    intro _ _
    refine ⟨by simp, ?_⟩
    intro read hread
    obtain ⟨id, rest⟩ := read
    obtain ⟨children, -⟩ := Shape.expect_eq_ok.mp hread
    have hrest : rest ⊆ n.children := by simp [children]
    obtain ⟨-, hrest⟩ := Shape.takeIf_within .id hrest
    refine ⟨Shape.expect_raisedBy hrest, ?_⟩
    intro read hread
    obtain ⟨action, after⟩ := read
    obtain ⟨tail, -⟩ := Shape.expect_eq_ok.mp hread
    rw [tail] at hrest
    obtain ⟨-, hafter⟩ := List.cons_subset.mp hrest
    refine ⟨Shape.finish_raisedBy hafter, ?_⟩
    intros
    split <;> simp
  case lexerElements | alternative =>
    have hrest : (Plan.leadingOptions n n.children).2 ⊆ n.children :=
      Plan.leadingOptions_within (List.Subset.refl _)
    simp only [Plan.lexerElements, Plan.alternative, Plan.alternativeOf,
      Plan.ofReading_map_takes, Plan.Every,
      Plan.steps_takes, List.forall_mem_cons, bind_pure_comp]
    refine ⟨by simp, ?_⟩
    intro _ hkind
    have hkind : n.kind = .alt := by simpa using hkind
    refine ⟨by simp, ?_, by simp⟩
    split
    · simp
    · trivial
    · simp [hkind]

end GrammarFrontend
