import GrammarFrontend.Proofs.Walk.Readings

/-! Every plan descends. A visit that a plan makes is at a lower node of the tree, or it is at the
same node with a production of smaller rank. The rank of a production is the length of the longest
chain of productions that it may open at one node, and no chain is longer than four.
-/

namespace GrammarFrontend

-----------------------------------------------------------------------------------------
-- The measure of a visit
-----------------------------------------------------------------------------------------

/-- How many productions a production may open at its own node one inside of another, itself
included. The longest chains are those of an element that is a block with a suffix.
-/
def Production.rank : Production → Nat
  | element | lexerElement => 4
  | subrule | lexerSubrule | lexerOuterAlternative => 3
  | grammarSpec | prequelConstruct | parserRule | outerAlternative | lexerAlternative | lexerAtom
  | atom | setElement | blockSuffix => 2
  | _ => 1

theorem Production.rank_pos (p : Production) : 0 < p.rank := by
  cases p <;> decide

theorem Production.rank_le (p : Production) : p.rank ≤ 4 := by
  cases p <;> decide

namespace Node

theorem height_eq (n : Node) : n.height = heightAll n.children + 1 := by
  cases n
  rw [height]

theorem height_pos (n : Node) : 0 < n.height := by
  rw [n.height_eq]
  exact Nat.succ_pos _

theorem height_le_heightAll {n : Node} {nodes : List Node} (h : n ∈ nodes)
    : n.height ≤ heightAll nodes := by
  induction nodes with
  | nil => cases h
  | cons m nodes ih =>
      rw [heightAll]
      rcases List.mem_cons.mp h with rfl | h
      · exact Nat.le_max_left _ _
      · exact Nat.le_trans (ih h) (Nat.le_max_right _ _)

/-- A node that has less below it than another one. -/
def Below (m n : Node) : Prop := m.height < n.height

theorem below_of_mem {n child : Node} (h : child ∈ n.children) : child.Below n := by
  rw [Below, n.height_eq]
  exact Nat.lt_succ_of_le (height_le_heightAll h)

end Node

namespace Visit

/-- The parts of a visit are children of its node. -/
def Proper (v : Visit) : Prop := v.parts ⊆ v.node.children

/-- A visit is below another one: at a lower node, or at the same node with a smaller rank. -/
def Below (u v : Visit) : Prop :=
  u.node.Below v.node ∨ u.node = v.node ∧ u.production.rank < v.production.rank

/-- As many productions as a visit may have open at once, itself included. -/
def need (v : Visit) : Nat := v.production.rank + 4 * (v.node.height - 1)

theorem proper_of (p : Production) (n : Node) : (Visit.of p n).Proper := List.Subset.refl _

theorem need_pos (v : Visit) : 0 < v.need :=
  Nat.lt_of_lt_of_le v.production.rank_pos (Nat.le_add_right _ _)

theorem need_le (v : Visit) : v.need ≤ 4 * v.node.height := by
  have hrank := v.production.rank_le
  have hheight := v.node.height_pos
  rw [need]
  omega

theorem Below.need_lt {u v : Visit} (h : u.Below v) : u.need < v.need := by
  have hrank := u.production.rank_le
  have hpos := v.production.rank_pos
  have hheight := u.node.height_pos
  rw [need, need]
  rcases h with lower | ⟨same, smaller⟩
  · rw [Node.Below] at lower
    omega
  · rw [same]
    omega

end Visit

-----------------------------------------------------------------------------------------
-- Readings
-----------------------------------------------------------------------------------------

namespace Shape

/-- A reading ends with a mismatch, if it ends with an error. -/
def Mismatches {α : Type} (reading : Except WalkError α) : Prop :=
  ∀ e, reading = .error e → e.kind = .structuralMismatch

variable {p : Production} {kinds : List NodeKind}

@[simp]
theorem requireKind_mismatches {n : Node} : Mismatches (requireKind p kinds n) := by
  intro e h
  unfold requireKind at h
  split at h
  · cases h
  · obtain rfl := Except.error.inj h
    rfl

@[simp]
theorem expect_mismatches {nodes : List Node} : Mismatches (expect p kinds nodes) := by
  intro e h
  unfold expect at h
  split at h
  · obtain rfl := Except.error.inj h
    rfl
  · split at h
    · cases h
    · obtain rfl := Except.error.inj h
      rfl

@[simp]
theorem finish_mismatches {nodes : List Node} : Mismatches (finish p nodes) := by
  intro e h
  unfold finish at h
  split at h
  · cases h
  · obtain rfl := Except.error.inj h
    rfl

/-- What is read of nodes and what is left are among them. -/
theorem takeIf_within {nodes children : List Node} (kind : NodeKind) (h : nodes ⊆ children)
    : (∀ n, (takeIf kind nodes).1 = some n → n ∈ children)
      ∧ (takeIf kind nodes).2 ⊆ children := by
  cases nodes with
  | nil => simp [takeIf]
  | cons m rest =>
      rw [takeIf]
      split
      · simpa using h
      · simpa using h

theorem takeRun_within {nodes children : List Node} (kinds : List NodeKind) (h : nodes ⊆ children)
    : (takeRun kinds nodes).1 ⊆ children ∧ (takeRun kinds nodes).2 ⊆ children :=
  ⟨List.Subset.trans (List.takeWhile_subset _) h,
    List.Subset.trans (takeRun_suffix kinds nodes).subset h⟩

end Shape

-----------------------------------------------------------------------------------------
-- Plans that descend
-----------------------------------------------------------------------------------------

/-- Every visit of a plan of a production at a node is proper and below it. If the plan itself
fails, then with a mismatch.
-/
@[simp]
def Plan.Descends (v : Visit) : Plan → Prop
  | .done | .announce _ | .announceOption _ _ | .announceCommand _ _ | .setGrammar _ | .setMode _
  | .nextAlternative _ => True
  | .fail e => e.kind = .structuralMismatch
  | .seq first next => first.Descends v ∧ next.Descends v
  | .visit u => u.Proper ∧ u.Below v
  | .attempt plan | .inRule _ _ plan | .inAlternative _ plan | .inSuffix plan => plan.Descends v

namespace Plan

variable {v : Visit}

@[simp]
theorem steps_descends {plans : List Plan}
    : (steps plans).Descends v ↔ ∀ plan ∈ plans, plan.Descends v := by
  induction plans with
  | nil => simp [steps]
  | cons plan plans ih => simp [steps, ih]

@[simp]
theorem ite_descends {c : Prop} [Decidable c] {first second : Plan}
    : (if c then first else second).Descends v
      ↔ (c → first.Descends v) ∧ (¬c → second.Descends v) := by
  split <;> simp [*]

@[simp]
theorem each_descends {plans : List Plan}
    : (each plans).Descends v ↔ ∀ plan ∈ plans, plan.Descends v := by
  simp [each]

@[simp]
theorem eachRequired_descends {p : Production} {expected : NodeKind} {plans : List Plan}
    : (eachRequired p expected plans).Descends v ↔ ∀ plan ∈ plans, plan.Descends v := by
  cases plans with
  | nil => simp [eachRequired, WalkError.unexpected, WalkError.kind]
  | cons plan plans => simp [eachRequired]

@[simp]
theorem visitAs_descends {p : Production} {n : Node}
    : (visitAs p n).Descends v ↔ n.Below v.node ∨ n = v.node ∧ p.rank < v.production.rank :=
  and_iff_right (Visit.proper_of p n)

/-- A reading that goes on with a plan descends if each such plan does. -/
@[simp]
theorem ofReading_bind_descends {α : Type} {reading : Except WalkError α}
    {next : α → Except WalkError Plan}
    : (ofReading (reading >>= next)).Descends v
      ↔ Shape.Mismatches reading
        ∧ ∀ a, reading = .ok a → (ofReading (next a)).Descends v := by
  cases reading with
  | error e =>
      refine ⟨fun h => ⟨?_, by simp⟩, fun h => h.1 e rfl⟩
      intro other hother
      obtain rfl := Except.error.inj hother
      exact h
  | ok a =>
      refine ⟨fun h => ⟨by simp [Shape.Mismatches], ?_⟩, fun h => h.2 a rfl⟩
      intro b hb
      obtain rfl := Except.ok.inj hb
      exact h

@[simp]
theorem ofReading_map_descends {α : Type} {reading : Except WalkError α} {plan : α → Plan}
    : (ofReading (plan <$> reading)).Descends v
      ↔ Shape.Mismatches reading ∧ ∀ a, reading = .ok a → (plan a).Descends v := by
  simp only [map_eq_pure_bind, ofReading_bind_descends]
  rfl

theorem ofReading_pure (plan : Plan) : ofReading (pure plan) = plan := rfl

theorem requireKind_bind_descends {p : Production} {kinds : List NodeKind} {n : Node}
    {next : Unit → Except WalkError Plan}
    : (ofReading (Shape.requireKind p kinds n >>= next)).Descends v
      ↔ (n.kind ∈ kinds → (ofReading (next ())).Descends v) := by
  simp only [ofReading_bind_descends, Shape.requireKind_mismatches, Shape.requireKind_eq_ok,
    true_and]
  exact ⟨fun h => h (), fun h _ => h⟩

theorem expect_bind_descends {p : Production} {kinds : List NodeKind} {nodes : List Node}
    {next : Node × List Node → Except WalkError Plan}
    : (ofReading (Shape.expect p kinds nodes >>= next)).Descends v
      ↔ ∀ first rest,
          nodes = first :: rest
          → first.kind ∈ kinds
          → (ofReading (next (first, rest))).Descends v := by
  simp

/-- Options at the front of an element are a child of the node. -/
theorem leadingOptions_descends {element : Node} {nodes : List Node}
    (h : nodes ⊆ v.node.children)
    : (leadingOptions element nodes).1.Descends v := by
  simp only [leadingOptions, steps_descends, List.mem_map, Option.mem_toList]
  intro plan hplan
  obtain ⟨options, hoptions, rfl⟩ := hplan
  exact ⟨List.Subset.refl _, .inl (Node.below_of_mem ((Shape.takeIf_within _ h).1 _ hoptions))⟩

/-- The nodes after the options are among the nodes. -/
theorem leadingOptions_within {element : Node} {nodes children : List Node} (h : nodes ⊆ children)
    : (leadingOptions element nodes).2 ⊆ children :=
  (Shape.takeIf_within _ h).2

theorem terminalOf_descends {p : Production} {n : Node} (h : n = v.node)
    : (terminalOf p n).Descends v := by
  simp [terminalOf, apply_ite announce, leadingOptions_descends, h]

/-- The children of a child are below the node. -/
theorem below_of_mem_childrenOf {n m : Node} {list : Option Node} (h : m ∈ childrenOf list)
    (hlist : ∀ inner, list = some inner → inner ∈ n.children)
    : m.Below n := by
  cases list with
  | none => cases h
  | some inner => exact Nat.lt_trans (Node.below_of_mem h) (Node.below_of_mem (hlist inner rfl))

end Plan

-----------------------------------------------------------------------------------------
-- The plans of all productions
-----------------------------------------------------------------------------------------

attribute [local simp] Production.rank Plan.leadingOptions_descends Plan.terminalOf_descends
  Shape.wrongKind Shape.missing WalkError.unexpected WalkError.kind

namespace Plan

variable {n element : Node} {parts : List Node}

theorem grammarSpec_descends : (grammarSpec n).Descends ⟨.grammarSpec, n, parts, element⟩ := by
  rw [grammarSpec, requireKind_bind_descends]
  intro _
  rw [expect_bind_descends]
  intro id rest children _
  have hrest : rest ⊆ n.children := by simp [children]
  obtain ⟨hprequels, hrest⟩ := Shape.takeRun_within prequelKinds hrest
  simp only [ofReading_pure, steps_descends, List.forall_mem_cons, expect_bind_descends]
  refine ⟨trivial, trivial, ⟨hprequels, .inr ⟨rfl, Nat.one_lt_two⟩⟩, trivial, ?_, by simp⟩
  intro rules modes tail _
  rw [tail] at hrest
  obtain ⟨hrules, hmodes⟩ := List.cons_subset.mp hrest
  simpa [Node.below_of_mem hrules] using fun m hm => .inl (Node.below_of_mem (hmodes hm))

theorem lexerRule_descends : (lexerRule n).Descends ⟨.lexerRule, n, parts, element⟩ := by
  rw [lexerRule, requireKind_bind_descends]
  intro _
  rw [expect_bind_descends]
  intro id rest children _
  have hrest : rest ⊆ n.children := by simp [children]
  obtain ⟨-, hrest⟩ := Shape.takeIf_within .docComment hrest
  obtain ⟨hmodifiers, hrest⟩ := Shape.takeIf_within .ruleModifiers hrest
  simp only [ofReading_pure, Descends, steps_descends, List.forall_mem_cons, expect_bind_descends]
  refine ⟨?_, ?_, by simp⟩
  · simpa using fun m hm => below_of_mem_childrenOf hm hmodifiers
  · intro block rest tail _
    rw [tail] at hrest
    have hblock : block.Below n := Node.below_of_mem (hrest List.mem_cons_self)
    simp [hblock]

theorem parserRule_descends : (parserRule n).Descends ⟨.parserRule, n, parts, element⟩ := by
  rw [parserRule, requireKind_bind_descends]
  intro _
  rw [expect_bind_descends]
  intro id rest children _
  have hrest : rest ⊆ n.children := by simp [children]
  obtain ⟨-, hrest⟩ := Shape.takeIf_within .docComment hrest
  obtain ⟨hmodifiers, hrest⟩ := Shape.takeIf_within .ruleModifiers hrest
  obtain ⟨-, hrest⟩ := Shape.takeIf_within .argAction hrest
  obtain ⟨hreturns, hrest⟩ := Shape.takeIf_within .returns hrest
  obtain ⟨hthrows, hrest⟩ := Shape.takeIf_within .throws hrest
  obtain ⟨hlocals, hrest⟩ := Shape.takeIf_within .locals hrest
  obtain ⟨hparts, hrest⟩ := Shape.takeRun_within [.options, .namedAction] hrest
  simp only [ofReading_pure, Descends, steps_descends, List.forall_mem_cons, expect_bind_descends]
  refine ⟨?modifiers, ?returns, ?throws, ?locals, ?parts, ?body, by simp⟩
  case modifiers => simpa using fun m hm => .inl (below_of_mem_childrenOf hm hmodifiers)
  case returns => simpa using fun m hm => .inl (Node.below_of_mem (hreturns m hm))
  case throws => simpa using fun m hm => .inl (Node.below_of_mem (hthrows m hm))
  case locals => simpa using fun m hm => .inl (Node.below_of_mem (hlocals m hm))
  case parts => simpa [ruleHeaderPart] using fun m hm => .inl (Node.below_of_mem (hparts hm))
  case body =>
    intro block handlers tail _
    rw [tail] at hrest
    obtain ⟨hblock, hhandlers⟩ := List.cons_subset.mp hrest
    refine ⟨trivial, ?_, ⟨hhandlers, .inr ⟨rfl, Nat.one_lt_two⟩⟩, trivial, by simp⟩
    exact visitAs_descends.mpr (.inl (Node.below_of_mem hblock))

theorem exceptionGroup_descends (within : parts ⊆ n.children)
    : (exceptionGroup parts).Descends ⟨.exceptionGroup, n, parts, element⟩ := by
  obtain ⟨hcatches, htail⟩ := Shape.takeRun_within [.catchClause] within
  simp only [exceptionGroup, steps_descends, List.forall_mem_cons]
  refine ⟨?_, ?_, by simp⟩
  · simpa using fun m hm => Node.below_of_mem (hcatches hm)
  · split
    · trivial
    · rename_i last tail
      rw [tail] at htail
      have below : last.Below n := Node.below_of_mem (htail (List.mem_singleton_self last))
      simp [below]
    · simp

theorem labeledElement_descends
    : (labeledElement n).Descends ⟨.labeledElement, n, parts, element⟩ := by
  rw [labeledElement, requireKind_bind_descends]
  intro _
  rw [expect_bind_descends]
  intro id rest children _
  cases rest with
  | nil => simp [ofReading]
  | cons inner rest =>
      have below : inner.Below n := Node.below_of_mem (by simp [children])
      simp [below]

end Plan

/-- The plan of every production descends, by cases on the productions. -/
theorem Visit.plan_descends {v : Visit} (proper : v.Proper) : v.plan.Descends v := by
  obtain ⟨p, n, parts, element⟩ := v
  cases p <;> simp only [Visit.plan]
  case grammarSpec => exact Plan.grammarSpec_descends
  case prequelConstructs =>
    simpa [Plan.prequelConstructs] using fun part hpart => Node.below_of_mem (proper hpart)
  case prequelConstruct =>
    unfold Plan.prequelConstruct
    split <;> simp
  case optionsSpec | optionDef | delegateGrammars | tokensSpec | channelsSpec | modeSection
      | lexerRuleBlock | ruleBlock | blockSet =>
    simp +contextual [Plan.optionsSpec, Plan.optionDef, Plan.delegateGrammars, Plan.tokensSpec,
      Plan.channelsSpec, Plan.modeSection, Plan.lexerRuleBlock, Plan.ruleBlock,
      Plan.outerAlternatives, Plan.blockSet, Node.below_of_mem]
  case optionValue | tokenSpec | channelSpec | exceptionHandler | finallyClause | locals
      | ruleReturns | ruleAction | ruleModifier | lexerOuterAlternative | outerAlternative
      | lexerCommandExpr | actionElement | blockSuffix | ebnfSuffix | range | terminal =>
    simp [Plan.optionValue, Plan.tokenSpec, Plan.channelSpec, Plan.exceptionHandler,
      Plan.finallyClause, Plan.locals, Plan.ruleReturns, Plan.argActionOf, Plan.ruleAction,
      Plan.ruleModifier, Plan.lexerOuterAlternative, Plan.outerAlternative, Plan.lexerCommandExpr,
      Plan.actionElement, Plan.blockSuffix, Plan.ebnfSuffix, Plan.range, Plan.terminal,
      apply_ite Plan.announce]
  case delegateGrammar =>
    unfold Plan.delegateGrammar
    split <;> simp
  case namedAction =>
    simp only [Plan.namedAction, bind_pure_comp, Plan.ofReading_bind_descends,
      Shape.requireKind_mismatches, Shape.expect_mismatches, Plan.ofReading_map_descends,
      Shape.finish_mismatches, true_and]
    intros
    split <;> simp
  case rules =>
    have hsection (rule : Node) (h : rule ∈ n.children)
        : (Plan.ruleOfSection rule).Descends ⟨.rules, n, parts, element⟩ := by
      have below := Node.below_of_mem h
      unfold Plan.ruleOfSection
      split
      · split <;> simp [below]
      · simp [below]
    simpa [Plan.rules] using fun _ => hsection
  case lexerRule => exact Plan.lexerRule_descends
  case parserRule => exact Plan.parserRule_descends
  case exceptionGroup => exact Plan.exceptionGroup_descends proper
  case throwsSpec =>
    simp only [Plan.throwsSpec, Plan.ofReading_bind_descends]
    refine ⟨by simp, ?_⟩
    intros
    split <;> first | rfl | trivial
  case lexerBlock =>
    obtain ⟨hoptions, hrest⟩ := Shape.takeIf_within .options (List.Subset.refl n.children)
    simpa [Plan.lexerBlock] using fun _ =>
      ⟨fun m hm => Node.below_of_mem (hoptions m hm), fun m hm => Node.below_of_mem (hrest hm)⟩
  case block =>
    obtain ⟨hoptions, hrest⟩ := Shape.takeIf_within .options (List.Subset.refl n.children)
    obtain ⟨hactions, hrest⟩ := Shape.takeRun_within [.namedAction] hrest
    obtain ⟨-, hrest⟩ := Shape.takeIf_within .action hrest
    simpa [Plan.block] using fun _ =>
      ⟨fun m hm => Node.below_of_mem (hoptions m hm), fun m hm => Node.below_of_mem (hactions hm),
        fun m hm => Node.below_of_mem (hrest hm)⟩
  case lexerAlternative | lexerCommand | lexerElement | setElement | elementOption =>
    simp only [Plan.lexerAlternative, Plan.lexerCommand, Plan.lexerElement, Plan.setElement,
      Plan.elementOption]
    split <;> simp +contextual [Node.below_of_mem]
  case lexerElements | alternative =>
    have hrest : (Plan.leadingOptions n n.children).2 ⊆ n.children :=
      Plan.leadingOptions_within (List.Subset.refl _)
    simp only [Plan.lexerElements, Plan.alternative, Plan.alternativeOf,
      Shape.requireKind_mismatches, true_and, Plan.ofReading_map_descends, Plan.Descends,
      Plan.steps_descends, List.forall_mem_cons, bind_pure_comp]
    intros
    refine ⟨by simp, ?_, by simp⟩
    split
    · simp
    · trivial
    · simpa using fun m hm => Node.below_of_mem (hrest hm)
  case lexerAtom | atom =>
    simp only [Plan.lexerAtom, Plan.atom]
    split <;>
      simp +contextual [Plan.complementOf, Plan.wildcard, Plan.qualified, Node.below_of_mem]
  case element =>
    unfold Plan.element
    split <;> simp +contextual [Plan.complementOf, Node.below_of_mem]
  case labeledElement => exact Plan.labeledElement_descends
  case ruleReference =>
    obtain ⟨-, hrest⟩ := Shape.takeIf_within .argAction (List.Subset.refl n.children)
    simp [Plan.ruleReference, hrest]
  case elementOptions =>
    have hoption (option : Node) (h : option ∈ n.children)
        : Visit.Proper ⟨.elementOption, option, option.children, element⟩
          ∧ Visit.Below ⟨.elementOption, option, option.children, element⟩
              ⟨.elementOptions, n, parts, element⟩ :=
      ⟨List.Subset.refl _, .inl (Node.below_of_mem h)⟩
    simpa [Plan.elementOptions] using fun _ => hoption
  case subrule | lexerSubrule =>
    simp only [Plan.subrule, Plan.lexerSubrule, Plan.suffixedBlock]
    split <;> simp +contextual [Node.below_of_mem]

end GrammarFrontend
