import GrammarFrontend.Proofs.Walk.Echo
import GrammarFrontend.Proofs.Walk.Readings

/-! What visits of nodes that conform say of the constructs of a grammar, and how to show that a
plan echoes it. That takes one step into the tree only, because what the nodes below say is given.
-/

namespace GrammarFrontend

-----------------------------------------------------------------------------------------
-- What is said in visits
-----------------------------------------------------------------------------------------

/-- What is said of constructs in a visit of a node that conforms: those of a grammar, of a section
of rules, of a rule, or in the block of a rule, and nothing anywhere else.
-/
def Visit.word (v : Visit) : List Notice :=
  match v.production with
  | .grammarSpec => v.node.wordOfGrammar
  | .rules | .modeSection => v.node.rulesOfSection.flatMap Node.wordOfRule
  | .lexerRule | .parserRule => v.node.wordOfRule
  | .lexerRuleBlock | .ruleBlock | .lexerOuterAlternative | .outerAlternative | .lexerAlternative
  | .lexerElements | .lexerElement | .lexerBlock | .lexerAtom | .alternative | .element
  | .labeledElement | .subrule | .lexerSubrule | .atom | .blockSet | .setElement | .block
  | .ruleReference | .terminal => v.node.word
  | _ => []

/-- A plan says this of constructs if it conforms. -/
def Plan.Gives (plan : Plan) (word : List Notice) : Prop :=
  plan.Conforms Visit.Conforms → plan.echo Visit.word = word

attribute [local simp] Visit.word Visit.of Callback.notice?

/-- Options at the front of an element say nothing. -/
@[simp]
theorem Plan.echo_leadingOptions {element : Node} {children : List Node}
    : (leadingOptions element children).1.echo Visit.word = [] := by
  simp [leadingOptions, optionsOf]

/-- What is visited around rules and beside their constructs says nothing, whether it conforms or
not.
-/
theorem Visit.echo_beside {v : Visit}
    (beside
      : v.production ∈
          [.prequelConstructs, .prequelConstruct, .optionsSpec, .optionDef, .optionValue,
            .delegateGrammars, .delegateGrammar, .tokensSpec, .tokenSpec, .channelsSpec,
            .channelSpec, .namedAction, .exceptionGroup, .exceptionHandler, .finallyClause, .locals,
            .ruleReturns, .throwsSpec, .ruleAction, .ruleModifier, .lexerCommand, .lexerCommandExpr,
            .blockSuffix, .ebnfSuffix, .range, .elementOptions, .elementOption, .actionElement])
    : v.plan.echo Visit.word = [] := by
  obtain ⟨p, n, parts, element⟩ := v
  cases p <;> simp at beside <;> simp only [Visit.plan]
  case prequelConstructs | optionsSpec | optionDef | optionValue | delegateGrammars | tokensSpec
      | tokenSpec | channelsSpec | channelSpec =>
    simp [Plan.prequelConstructs, Plan.optionsSpec, Plan.optionDef, Plan.optionValue,
      Plan.delegateGrammars, Plan.tokensSpec, Plan.tokenSpec, Plan.channelsSpec, Plan.channelSpec]
  case prequelConstruct =>
    unfold Plan.prequelConstruct
    split <;> simp
  case delegateGrammar =>
    unfold Plan.delegateGrammar
    split <;> simp
  case namedAction =>
    simp only [Plan.namedAction, Plan.echo_ofReading_bind, Plan.echo_ofReading_map, bind_pure_comp]
    intros
    split <;> simp
  case exceptionHandler | finallyClause | locals | ruleReturns | ruleAction | ruleModifier =>
    simp [Plan.exceptionHandler, Plan.finallyClause, Plan.locals, Plan.ruleReturns,
      Plan.argActionOf, Plan.ruleAction, Plan.ruleModifier]
  case exceptionGroup =>
    simp only [Plan.exceptionGroup, Plan.echo_steps, List.flatMap_eq_nil_iff, List.forall_mem_cons]
    refine ⟨by simp, ?_, by simp⟩
    split <;> simp
  case throwsSpec =>
    simp only [Plan.throwsSpec, Plan.echo_ofReading_bind]
    intros
    split <;> rfl
  case lexerCommandExpr | actionElement | blockSuffix | ebnfSuffix | range | elementOptions =>
    simp [Plan.lexerCommandExpr, Plan.actionElement, Plan.blockSuffix, Plan.ebnfSuffix, Plan.range,
      Plan.elementOptions, apply_ite Plan.announce]
  case lexerCommand | elementOption =>
    simp only [Plan.lexerCommand, Plan.elementOption]
    split <;> simp

-----------------------------------------------------------------------------------------
-- Nodes that say nothing
-----------------------------------------------------------------------------------------

namespace Shape

variable {α : Type} {f : Node → List α}

/-- Nodes before the rest that say nothing can be left out. -/
theorem flatMap_takeIf (kind : NodeKind) (h : ∀ n : Node, n.kind = kind → f n = [])
    (nodes : List Node)
    : nodes.flatMap f = (takeIf kind nodes).2.flatMap f := by
  cases nodes with
  | nil => rfl
  | cons n rest =>
      rw [takeIf]
      split
      · rename_i hk
        rw [List.flatMap_cons, h n (by simpa using hk)]
        rfl
      · rfl

theorem flatMap_takeRun (kinds : List NodeKind) (h : ∀ n : Node, n.kind ∈ kinds → f n = [])
    (nodes : List Node)
    : nodes.flatMap f = (takeRun kinds nodes).2.flatMap f := by
  have hrun : (takeRun kinds nodes).1.flatMap f = [] := by
    rw [List.flatMap_eq_nil_iff]
    intro n hn
    exact h n (takeRun_kind hn)
  calc nodes.flatMap f
    _ = ((takeRun kinds nodes).1 ++ (takeRun kinds nodes).2).flatMap f :=
        congrArg (·.flatMap f) List.takeWhile_append_dropWhile.symm
    _ = (takeRun kinds nodes).2.flatMap f := by rw [List.flatMap_append, hrun, List.nil_append]

end Shape

/-- A node that conforms is of a kind of one of the forms that are accepted. -/
theorem TreeGrammar.Accepts.kind_mem {p : Production} {forms : List TreeGrammar.Form} {n : Node}
    (h : TreeGrammar.Accepts p forms n) (conforms : (Visit.of p n).Conforms)
    : n.kind ∈ forms.map (·.kind) :=
  ((h _ _).mp conforms).kind_mem

-----------------------------------------------------------------------------------------
-- Plans
-----------------------------------------------------------------------------------------

namespace Plan

section

variable {p : Production} {kind : NodeKind} {kinds : List NodeKind} {word : List Notice}

/-- A reading that conforms goes on with what it reads. -/
theorem gives_requireKind {n : Node} {next : Unit → Except WalkError Plan}
    (h : n.kind ∈ kinds → (ofReading (next ())).Gives word)
    : (ofReading (Shape.requireKind p kinds n >>= next)).Gives word := by
  intro conforms
  obtain ⟨_, hread, rest⟩ := ofReading_bind_conforms.mp conforms
  rw [hread]
  exact h (Shape.requireKind_eq_ok.mp hread) rest

theorem gives_requireKind_one {n : Node} {next : Unit → Except WalkError Plan}
    (h : n.kind = kind → (ofReading (next ())).Gives word)
    : (ofReading (Shape.requireKind p [kind] n >>= next)).Gives word :=
  gives_requireKind (fun hkind => h (List.mem_singleton.mp hkind))

theorem gives_expect {nodes : List Node} {next : Node × List Node → Except WalkError Plan}
    (h
      : ∀ n rest,
          nodes = n :: rest → n.kind ∈ kinds → (ofReading (next (n, rest))).Gives word)
    : (ofReading (Shape.expect p kinds nodes >>= next)).Gives word := by
  intro conforms
  obtain ⟨⟨n, rest⟩, hread, more⟩ := ofReading_bind_conforms.mp conforms
  obtain ⟨hnodes, hkind⟩ := Shape.expect_eq_ok.mp hread
  rw [hread]
  exact h n rest hnodes hkind more

theorem gives_expect_one {nodes : List Node} {next : Node × List Node → Except WalkError Plan}
    (h : ∀ n rest, nodes = n :: rest → n.kind = kind → (ofReading (next (n, rest))).Gives word)
    : (ofReading (Shape.expect p [kind] nodes >>= next)).Gives word :=
  gives_expect (fun n rest hnodes hkind => h n rest hnodes (List.mem_singleton.mp hkind))

theorem gives_finish {nodes : List Node} {next : Unit → Except WalkError Plan}
    (h : nodes = [] → (ofReading (next ())).Gives word)
    : (ofReading (Shape.finish p nodes >>= next)).Gives word := by
  intro conforms
  obtain ⟨_, hread, rest⟩ := ofReading_bind_conforms.mp conforms
  rw [hread]
  exact h (Shape.finish_eq_ok.mp hread) rest

end

/-- What says nothing can be left out before the rest. -/
theorem Gives.beside {first : Plan} {plans : List Plan} {word : List Notice}
    (nothing : first.echo Visit.word = []) (h : (steps plans).Gives word)
    : (steps (first :: plans)).Gives word := by
  intro conforms
  rw [steps, echo, nothing, List.nil_append, h conforms.2]

theorem Gives.last {plan : Plan} {word : List Notice} (h : plan.Gives word)
    : (steps [plan]).Gives word := by
  intro conforms
  rw [steps, steps, echo, h conforms.1]
  exact List.append_nil word

/-- Siblings say one after another what each says. -/
theorem echo_siblings {plan : Node → Plan} {word : Node → List Notice} {nodes : List Node}
    (h : ∀ n ∈ nodes, (plan n).echo Visit.word = word n)
    : (each (nodes.map plan)).echo Visit.word = nodes.flatMap word := by
  rw [echo_each, List.flatMap_map, List.flatMap_def, List.flatMap_def, List.map_congr_left h]

theorem eachRequired_gives {p : Production} {expected : NodeKind} {plan : Node → Plan}
    {word : Node → List Notice} (h : ∀ n, (plan n).echo Visit.word = word n) (nodes : List Node)
    : (eachRequired p expected (nodes.map plan)).Gives (nodes.flatMap word) := by
  intro _
  rw [echo_eachRequired, ← echo_each]
  exact echo_siblings (fun n _ => h n)

/-- After options, which say nothing, an announcement is all. -/
theorem gives_optionsThen {element : Node} {children : List Node} {p : Production}
    {callback : Callback}
    : (steps [
        (leadingOptions element children).1,
        ofReading do
          Shape.finish p (leadingOptions element children).2
          return announce callback
      ]).Gives callback.notice?.toList :=
  .beside echo_leadingOptions (.last (gives_finish (fun _ _ => rfl)))

end Plan

end GrammarFrontend
