import GrammarFrontend.Proofs.Walk.Brackets
import GrammarFrontend.Proofs.Walk.Entries

/-! Every walk logs a well-nested word. What a plan has to keep to is a condition on the plan alone:
it opens no brackets by itself, and it goes into a suffix only to visit the block of a subrule
there. All productions keep to it, and a run of such a plan restores the stack, the path and the
number of suffixed blocks whichever way it ends.
-/

namespace GrammarFrontend

-----------------------------------------------------------------------------------------
-- Plans that keep to their brackets
-----------------------------------------------------------------------------------------

/-- A plan of a production at a node announces no brackets of its own, and it visits the block of a
suffix exactly where `inside` says that the suffix is counted.
-/
@[simp]
def Plan.Keeps (outer : Production × Node) (inside : Bool) : Plan → Prop
  | .done | .fail _ | .setGrammar _ | .setMode _ | .nextAlternative _ => True
  | .seq first next => first.Keeps outer inside ∧ next.Keeps outer inside
  | .visit v => suffixesBlock outer v.production = inside
  | .attempt plan => plan.Keeps outer inside
  | .announce callback => inside = false ∧ callback.isBracket = false
  | .announceOption _ _ | .announceCommand _ _ => inside = false
  | .inRule _ _ body => body.Keeps outer inside
  | .inAlternative _ body => inside = false ∧ body.Keeps outer inside
  | .inSuffix body => inside = false ∧ body.Keeps outer true

namespace Plan

variable {outer : Production × Node} {inside : Bool}

@[simp]
theorem steps_keeps {plans : List Plan}
    : (steps plans).Keeps outer inside ↔ ∀ plan ∈ plans, plan.Keeps outer inside := by
  induction plans with
  | nil => simp [steps, Keeps]
  | cons plan plans ih => simp [steps, Keeps, ih]

@[simp]
theorem ite_keeps {c : Prop} [Decidable c] {first second : Plan}
    : (if c then first else second).Keeps outer inside
      ↔ (c → first.Keeps outer inside) ∧ (¬c → second.Keeps outer inside) := by
  split <;> simp [*]

@[simp]
theorem each_keeps {plans : List Plan}
    : (each plans).Keeps outer inside ↔ ∀ plan ∈ plans, plan.Keeps outer inside := by
  simp [each, Keeps]

@[simp]
theorem eachRequired_keeps {p : Production} {expected : NodeKind} {plans : List Plan}
    : (eachRequired p expected plans).Keeps outer inside
      ↔ ∀ plan ∈ plans, plan.Keeps outer inside := by
  cases plans <;> simp [eachRequired]

/-- A reading that goes on with a plan keeps to its brackets if each such plan does. -/
@[simp]
theorem ofReading_bind_keeps {α : Type} {reading : Except WalkError α}
    {next : α → Except WalkError Plan}
    : (ofReading (reading >>= next)).Keeps outer inside
      ↔ ∀ a, reading = .ok a → (ofReading (next a)).Keeps outer inside := by
  cases reading with
  | error e => exact ⟨by simp, fun _ => trivial⟩
  | ok a =>
      refine ⟨?_, fun h => h a rfl⟩
      intro h b hb
      obtain rfl := Except.ok.inj hb
      exact h

@[simp]
theorem ofReading_map_keeps {α : Type} {reading : Except WalkError α} {plan : α → Plan}
    : (ofReading (plan <$> reading)).Keeps outer inside
      ↔ ∀ a, reading = .ok a → (plan a).Keeps outer inside := by
  cases reading with
  | error e => exact ⟨by simp, fun _ => trivial⟩
  | ok a =>
      refine ⟨?_, fun h => h a rfl⟩
      intro h b hb
      obtain rfl := Except.ok.inj hb
      exact h

end Plan

/-- Options at the front of an element keep to their brackets in any production, because they are
no block.
-/
@[simp]
theorem Plan.leadingOptions_keeps {outer : Production × Node} {element : Node}
    {children : List Node}
    : (leadingOptions element children).1.Keeps outer false := by
  have hoptions : suffixesBlock outer .elementOptions = false := by
    obtain ⟨p, n⟩ := outer
    cases p <;> simp [suffixesBlock, Production.blockOf?]
  simp [leadingOptions, optionsOf, hoptions]

/-- A terminal keeps to its brackets in any production. -/
@[simp]
theorem Plan.terminalOf_keeps {outer : Production × Node} {p : Production} {n : Node}
    : (terminalOf p n).Keeps outer false := by
  simp [terminalOf, apply_ite announce, Callback.isBracket]

attribute [local simp] Plan.visitAs Visit.of suffixesBlock Production.blockOf? Callback.isBracket

/-- The plan of every production keeps to its brackets, by cases on the productions. Only the two
subrules count a suffix, and they do so exactly around their block.
-/
theorem Visit.plan_keeps (v : Visit) : v.plan.Keeps (v.production, v.node) false := by
  obtain ⟨p, n, parts, element⟩ := v
  cases p <;> simp only [Visit.plan]
  case grammarSpec | prequelConstructs | optionsSpec | optionDef | optionValue | delegateGrammars
      | tokensSpec | tokenSpec | channelsSpec | channelSpec =>
    simp [Plan.grammarSpec, Plan.prequelConstructs, Plan.optionsSpec, Plan.optionDef,
      Plan.optionValue, Plan.delegateGrammars, Plan.tokensSpec, Plan.tokenSpec, Plan.channelsSpec,
      Plan.channelSpec]
  case prequelConstruct =>
    unfold Plan.prequelConstruct
    split <;> simp
  case delegateGrammar =>
    unfold Plan.delegateGrammar
    split <;> simp
  case namedAction =>
    simp only [Plan.namedAction, Plan.ofReading_bind_keeps, Plan.ofReading_map_keeps,
      bind_pure_comp]
    intros
    split <;> simp
  case modeSection | lexerRule | exceptionHandler | finallyClause | locals | ruleReturns
      | ruleAction | ruleModifier | lexerRuleBlock | ruleBlock | lexerOuterAlternative
      | outerAlternative =>
    simp [Plan.modeSection, Plan.lexerRule, Plan.exceptionHandler, Plan.finallyClause,
      Plan.locals, Plan.ruleReturns, Plan.argActionOf, Plan.ruleAction, Plan.ruleModifier,
      Plan.lexerRuleBlock, Plan.ruleBlock, Plan.outerAlternatives, Plan.lexerOuterAlternative,
      Plan.outerAlternative]
  case rules =>
    have hsection (rule : Node) : (Plan.ruleOfSection rule).Keeps (.rules, n) false := by
      unfold Plan.ruleOfSection
      split
      · split <;> simp
      · simp
    simp [Plan.rules, hsection]
  case parserRule =>
    have hpart (part : Node) : (Plan.ruleHeaderPart part).Keeps (.parserRule, n) false := by
      unfold Plan.ruleHeaderPart
      split <;> simp
    simp [Plan.parserRule, hpart]
  case exceptionGroup =>
    simp only [Plan.exceptionGroup, Plan.steps_keeps, List.forall_mem_cons]
    refine ⟨by simp, ?_, by simp⟩
    split <;> simp
  case throwsSpec =>
    simp only [Plan.throwsSpec, Plan.ofReading_bind_keeps]
    intros
    split <;> trivial
  case lexerCommandExpr | lexerBlock | actionElement | blockSuffix | ebnfSuffix | blockSet
      | block | ruleReference | range | terminal | elementOptions =>
    simp [Plan.lexerCommandExpr, Plan.lexerBlock, Plan.actionElement, Plan.blockSuffix,
      Plan.ebnfSuffix, Plan.blockSet, Plan.block, Plan.ruleReference, Plan.range, Plan.terminal,
      Plan.elementOptions, apply_ite Plan.announce]
  case lexerAlternative | lexerCommand | lexerElement | setElement | elementOption =>
    simp only [Plan.lexerAlternative, Plan.lexerCommand, Plan.lexerElement, Plan.setElement,
      Plan.elementOption]
    split <;> simp
  case lexerElements | alternative =>
    simp only [Plan.lexerElements, Plan.alternative, Plan.alternativeOf,
      Plan.ofReading_map_keeps, Plan.Keeps, Plan.steps_keeps, List.forall_mem_cons, bind_pure_comp]
    intros
    refine ⟨trivial, by simp, ?_, by simp⟩
    split <;> simp
  case lexerAtom | atom =>
    simp only [Plan.lexerAtom, Plan.atom]
    split <;> simp [Plan.complementOf, Plan.wildcard, Plan.qualified]
  case element =>
    unfold Plan.element
    split <;> simp [Plan.complementOf]
  case labeledElement =>
    simp only [Plan.labeledElement, Plan.ofReading_bind_keeps]
    intros
    split
    · trivial
    · simp
  case subrule =>
    simp only [Plan.subrule, Plan.suffixedBlock]
    split <;> simp_all
  case lexerSubrule =>
    simp only [Plan.lexerSubrule, Plan.suffixedBlock]
    split <;> simp_all

-----------------------------------------------------------------------------------------
-- Runs of plans
-----------------------------------------------------------------------------------------

/-- The state of a walk inside of what is open, where the suffix of a block may be counted before
the block is opened.
-/
structure WalkState.Stands (s : WalkState) (opened : List Scope) (inside : Bool) : Prop where
  path : s.context.path = openKinds opened
  ebnfDepth : s.context.ebnfDepth = inside.toNat + suffixedBlocks (openVisits opened)

namespace WalkState

theorem Stands.shows {s : WalkState} {opened : List Scope} (h : s.Stands opened false)
    : s.context.Shows opened := by
  refine ⟨?_, ?_⟩
  · rw [Context.trail, h.path]
  · rw [h.ebnfDepth]
    exact Nat.zero_add _

/-- After a part of a walk the state stands where it stood before. -/
theorem Stands.after {s after : WalkState} {opened : List Scope} {inside : Bool}
    (h : s.Stands opened inside) (nests : s.Nests opened after)
    : after.Stands opened inside :=
  ⟨nests.path.trans h.path, nests.ebnfDepth.trans h.ebnfDepth⟩

theorem optionCallback_isBracket (s : WalkState) (id value : Node)
    : (s.optionCallback id value).isBracket = false := by
  unfold optionCallback
  split
  · split <;> rfl
  · rfl

theorem commandCallback_isBracket (s : WalkState) (id : Node) (arg : Option Node)
    : (s.commandCallback id arg).isBracket = false := by
  cases arg <;> rfl

end WalkState

/-- What carries out visits nests each of them inside of what is open. -/
def Nesting (go : Visit → WalkState → Outcome × WalkState) : Prop :=
  ∀ (opened : List Scope) (v : Visit) (s : WalkState),
    s.Stands opened ((openVisits opened).head?.any (suffixesBlock · v.production))
    → s.Nests opened (go v s).2

/-- A plan that keeps to its brackets nests whatever it does, and however it ends. The induction is
on the plan; an alternative opens a bracket around its body, and a suffix is counted only while its
body is carried out.
-/
theorem Plan.run_nests {resumes : Bool} {go : Visit → WalkState → Outcome × WalkState}
    (hgo : Nesting go) {outer : Production × Node} {plan : Plan} {inside : Bool}
    {opened : List Scope} {s : WalkState} (keeps : plan.Keeps outer inside)
    (innermost : (openVisits opened).head? = some outer) (stands : s.Stands opened inside)
    : s.Nests opened (plan.run resumes go s).2 := by
  induction plan generalizing inside opened s with
  | done | fail | setGrammar | setMode | nextAlternative => exact .silent rfl rfl rfl rfl
  | seq first next ihFirst ihNext =>
      have hf := ihFirst keeps.1 innermost stands
      rw [run]
      split
      · rename_i after h
        rw [h] at hf
        exact hf.trans (ihNext keeps.2 innermost (stands.after hf))
      · exact hf
  | visit v =>
      refine hgo opened v s ?_
      rw [innermost, Option.any_some, show suffixesBlock outer v.production = inside from keeps]
      exact stands
  | attempt plan ih =>
      have hp := ih keeps innermost stands
      rw [run]
      split
      · rename_i e after h
        rw [h] at hp
        cases resumes with
        | true => exact hp.trans (.silent (after.report_events e) rfl rfl rfl)
        | false => exact hp
      · exact hp
  | announce callback =>
      obtain ⟨rfl, plain⟩ := keeps
      exact .announce plain stands.shows
  | announceOption id value =>
      obtain rfl : inside = false := keeps
      exact .announce (s.optionCallback_isBracket id value) stands.shows
  | announceCommand id arg =>
      obtain rfl : inside = false := keeps
      exact .announce (s.commandCallback_isBracket id arg) stands.shows
  | inRule name node body ih =>
      have hb
          : (s.setRule (.opening name node)).Nests opened
              (body.run resumes go (s.setRule (.opening name node))).2 :=
        ih keeps innermost ⟨stands.path, stands.ebnfDepth⟩
      exact ⟨hb.word, hb.stack, hb.path, hb.ebnfDepth⟩
  | inAlternative alt body ih =>
      obtain ⟨rfl, keeps⟩ := keeps
      let entered := s.announce (.enterAlternative alt)
      have standsInside : entered.Stands (.alternative alt :: opened) false :=
        ⟨stands.path, stands.ebnfDepth⟩
      have innermostInside : (openVisits (.alternative alt :: opened)).head? = some outer :=
        innermost
      have hb := ih keeps innermostInside standsInside
      obtain ⟨events, hevents, nested⟩ := hb.word
      refine ⟨⟨_, ?_, .alternative standsInside.shows nested (standsInside.after hb).shows .nil⟩,
        hb.stack, hb.path, hb.ebnfDepth⟩
      rw [run, WalkState.announce_events, hevents, WalkState.announce_events, List.append_assoc,
        List.append_assoc]
      rfl
  | inSuffix body ih =>
      obtain ⟨rfl, keeps⟩ := keeps
      let counted := s.setEbnfDepth (s.context.ebnfDepth + 1)
      have standsInside : counted.Stands opened true := by
        refine ⟨stands.path, ?_⟩
        show s.context.ebnfDepth + 1 = 1 + _
        rw [stands.ebnfDepth, Nat.add_comm]
        exact congrArg (1 + ·) (Nat.zero_add _)
      have hb := ih keeps innermost standsInside
      refine ⟨hb.word, hb.stack, hb.path, ?_⟩
      show _ - 1 = _
      rw [hb.ebnfDepth]
      rfl

/-- Visits nest, whatever room they have, by induction on the room. The brackets of a production
stand around the word of its plan, also where the plan fails.
-/
theorem Visit.run_nesting (config : WalkerConfig) (room : Nat) : Nesting (run config room) := by
  induction room with
  | zero =>
      intro opened v s _
      exact .silent rfl rfl rfl rfl
  | succ room ih =>
      intro opened v s stands
      have standsInside : (s.enter v).Stands (.production v.production v.node :: opened) false := by
        refine ⟨congrArg (v.node.kind :: ·) stands.path, ?_⟩
        show s.context.ebnfDepth = 0 + _
        rw [stands.ebnfDepth, Nat.zero_add]
        rfl
      have hb
          : (s.enter v).Nests (.production v.production v.node :: opened)
              (v.plan.run config.resumesOnMismatch (run config room) (s.enter v)).2 :=
        Plan.run_nests ih v.plan_keeps rfl standsInside
      obtain ⟨events, hevents, nested⟩ := hb.word
      refine ⟨⟨_, ?_, .production standsInside.shows nested (standsInside.after hb).shows .nil⟩,
        ?_, ?_, hb.ebnfDepth⟩
      · exact run_events hevents
      · exact congrArg List.tail hb.stack
      · exact congrArg List.tail hb.path

-----------------------------------------------------------------------------------------
-- Walks of a walker
-----------------------------------------------------------------------------------------

namespace Walker

/-- What a caller asks of a walker. -/
inductive Call where
  | visit (node : Node) (name : String)
  | visitGrammar (root : Node)

/-- Serves a call. Every entry of the walker is a production, so visits do not nest. -/
def serve (w : Walker) : Call → Option (Outcome × Walker)
  | .visit node name => w.visit 1 node name
  | .visitGrammar root => w.visitGrammar 1 root

/-- The state in which a walk of a whole grammar begins: nothing is left of walks before. -/
def beginning (w : Walker) : WalkState :=
  { w.state with context := .initial w.config.defaultMode, stack := [] }

/-- A walk of a whole grammar by a production carries it out and then reports its error. -/
theorem serve_visitGrammar_of_production {w : Walker} {p : Production}
    (entry : w.registry.get? w.config.startProduction = some (.production p)) (tree : Node)
    : w.serve (.visitGrammar tree)
      = some
          (conclude { w with state := ((Visit.of p tree).start w.config w.beginning).2 }
            ((Visit.of p tree).start w.config w.beginning).1) :=
  visit_of_production (w := { w with state := w.beginning }) entry 0 tree

/-- The walker after calls one after another. -/
def serveAll (w : Walker) : List Call → Option Walker
  | [] => some w
  | call :: calls => (w.serve call).bind (fun served => served.2.serveAll calls)

/-- Between calls nothing is open, and only productions can be visited. -/
structure Idle (w : Walker) : Prop where
  registry : w.registry = .full
  visits : w.visits = 0
  stack : w.state.stack = []
  path : w.state.context.path = []
  ebnfDepth : w.state.context.ebnfDepth = 0

theorem idle_create (config : WalkerConfig) : (create config).Idle := ⟨rfl, rfl, rfl, rfl, rfl⟩

/-- The walker is idle again after its state went through a part of a walk. -/
theorem Idle.after {w : Walker} (idle : w.Idle) {state : WalkState}
    (nests : w.state.Nests [] state)
    : Idle { w with state } where
  registry := idle.registry
  visits := idle.visits
  stack := nests.stack.trans idle.stack
  path := nests.path.trans idle.path
  ebnfDepth := nests.ebnfDepth.trans idle.ebnfDepth

/-- Reporting the error of a call or not, the walker stays idle and the log as it is. -/
theorem conclude_nests {w : Walker} (idle : w.Idle) (outcome : Outcome)
    : (w.conclude outcome).2.Idle ∧ w.state.Nests [] (w.conclude outcome).2.state := by
  cases outcome with
  | ok => exact ⟨idle, .silent rfl rfl rfl rfl⟩
  | error e =>
      have nests : w.state.Nests [] (w.state.report e) :=
        .silent (w.state.report_events e) rfl rfl rfl
      rw [conclude, if_pos idle.visits]
      exact ⟨idle.after nests, nests⟩

/-- A visit by name, of a production or of nothing that has the name, adds a well-nested word. -/
theorem visit_nests {w : Walker} (idle : w.Idle) (node : Node) (name : String)
    : ∃ outcome after,
        w.visit 1 node name = some (outcome, after)
        ∧ after.Idle
        ∧ w.state.Nests [] after.state := by
  cases h : w.registry.get? name with
  | none => exact ⟨_, _, visit_of_none h 0 node, conclude_nests idle (.error _)⟩
  | some handler =>
      obtain ⟨p, rfl⟩ := Registry.full_get?_eq_production (idle.registry ▸ h)
      have nests : w.state.Nests [] ((Visit.of p node).start w.config w.state).2 :=
        Visit.run_nesting w.config _ [] (.of p node) w.state ⟨idle.path, idle.ebnfDepth⟩
      obtain ⟨idleAfter, more⟩ := conclude_nests (idle.after nests) _
      exact ⟨_, _, visit_of_production h 0 node, idleAfter, nests.trans more⟩

/-- An idle walker serves every call with a well-nested word, and is idle again. A walk of a whole
grammar forgets where earlier walks stood, but they left nothing open.
-/
theorem serve_nests {w : Walker} (idle : w.Idle) (call : Call)
    : ∃ outcome after,
        w.serve call = some (outcome, after)
        ∧ after.Idle
        ∧ w.state.Nests [] after.state := by
  cases call with
  | visit node name => exact visit_nests idle node name
  | visitGrammar root =>
      have nests : w.state.Nests [] w.beginning :=
        .silent rfl idle.stack.symm idle.path.symm idle.ebnfDepth.symm
      obtain ⟨outcome, after, served, idleAfter, more⟩ :=
        visit_nests (idle.after nests) root w.config.startProduction
      exact ⟨outcome, after, served, idleAfter, nests.trans more⟩

/-- Calls leave the walker idle, by induction on them. -/
theorem serveAll_idle {w : Walker} (idle : w.Idle) (calls : List Call)
    : ∃ after, w.serveAll calls = some after ∧ after.Idle := by
  induction calls generalizing w with
  | nil => exact ⟨w, rfl, idle⟩
  | cons call calls ih =>
      obtain ⟨outcome, after, served, idleAfter, -⟩ := serve_nests idle call
      obtain ⟨last, hlast, idleLast⟩ := ih idleAfter
      refine ⟨last, ?_, idleLast⟩
      rw [serveAll, served]
      exact hlast

/-- Whatever a walker was called for before, each call adds a well-nested word to the log and
leaves nothing open: no node on the stack or the path, and no suffixed block counted.
-/
theorem serve_wellNested (config : WalkerConfig) (earlier : List Call) (call : Call)
    : ∃ w outcome after,
        (create config).serveAll earlier = some w
        ∧ w.serve call = some (outcome, after)
        ∧ (∃ events, after.state.events = w.state.events ++ events ∧ WellNested [] events)
        ∧ after.state.stack = []
        ∧ after.state.context.path = []
        ∧ after.state.context.ebnfDepth = 0 := by
  obtain ⟨w, hserved, idle⟩ := serveAll_idle (idle_create config) earlier
  obtain ⟨outcome, after, served, idleAfter, nests⟩ := serve_nests idle call
  exact ⟨w, outcome, after, hserved, served, nests.word, idleAfter.stack, idleAfter.path,
    idleAfter.ebnfDepth⟩

end Walker

end GrammarFrontend
