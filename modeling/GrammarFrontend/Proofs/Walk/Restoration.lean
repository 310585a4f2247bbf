import GrammarFrontend.Proofs.Walk.Confinement
import GrammarFrontend.Proofs.Walk.Nesting

/-! Every production restores the context. Whichever way it ends, the nodes on the stack, the path,
the number of suffixed blocks and the rule are as they were before it, and only the block of a rule
moves on to another outer alternative. This holds from any state, whether a rule is around or not.
-/

namespace GrammarFrontend

-----------------------------------------------------------------------------------------
-- What is restored
-----------------------------------------------------------------------------------------

/-- What a part of a walk leaves as it is: the stack, and of the context the path, the number of
suffixed blocks and the rule. The outer alternative may be another one where the part `moves`.
-/
structure WalkState.Restores (moves : Bool) (s after : WalkState) : Prop where
  stack : after.stack = s.stack
  path : after.context.path = s.context.path
  ebnfDepth : after.context.ebnfDepth = s.context.ebnfDepth
  ruleName : after.context.rule.name = s.context.rule.name
  ruleNode : after.context.rule.node = s.context.rule.node
  rule : moves = false → after.context.rule = s.context.rule

namespace WalkState

/-- A part that leaves the stack and the context as they are. -/
theorem Restores.silent {moves : Bool} {s after : WalkState} (hstack : after.stack = s.stack)
    (hpath : after.context.path = s.context.path)
    (hdepth : after.context.ebnfDepth = s.context.ebnfDepth)
    (hrule : after.context.rule = s.context.rule)
    : s.Restores moves after where
  stack := hstack
  path := hpath
  ebnfDepth := hdepth
  ruleName := congrArg RuleScope.name hrule
  ruleNode := congrArg RuleScope.node hrule
  rule := fun _ => hrule

/-- Parts one after another restore what each of them does. -/
theorem Restores.trans {first second : Bool} {s middle after : WalkState}
    (hf : s.Restores first middle) (hs : middle.Restores second after)
    : s.Restores (first || second) after where
  stack := hs.stack.trans hf.stack
  path := hs.path.trans hf.path
  ebnfDepth := hs.ebnfDepth.trans hf.ebnfDepth
  ruleName := hs.ruleName.trans hf.ruleName
  ruleNode := hs.ruleNode.trans hf.ruleNode
  rule := by
    intro h
    obtain ⟨hfirst, hsecond⟩ := Bool.or_eq_false_iff.mp h
    exact (hs.rule hsecond).trans (hf.rule hfirst)

/-- What may move counts as moving. -/
theorem Restores.mono {moves more : Bool} {s after : WalkState} (h : s.Restores moves after)
    (hmore : more = false → moves = false)
    : s.Restores more after where
  stack := h.stack
  path := h.path
  ebnfDepth := h.ebnfDepth
  ruleName := h.ruleName
  ruleNode := h.ruleNode
  rule := fun hfalse => h.rule (hmore hfalse)

end WalkState

-----------------------------------------------------------------------------------------
-- Plans
-----------------------------------------------------------------------------------------

/-- Whether a plan may move on to another outer alternative of the rule around it. -/
def Plan.moves : Plan → Bool
  | .seq first next => first.moves || next.moves
  | .visit v => v.production.isRuleBlock
  | .attempt plan | .inAlternative _ plan | .inSuffix plan => plan.moves
  | .nextAlternative _ => true
  | .done | .fail _ | .announce _ | .announceOption _ _ | .announceCommand _ _ | .setGrammar _
  | .setMode _ | .inRule _ _ _ => false

/-- A plan restores what its visits do, by induction on the plan. -/
theorem Plan.run_restores (resumes : Bool) {go : Visit → WalkState → Outcome × WalkState}
    (hgo : ∀ (v : Visit) (s : WalkState), s.Restores v.production.isRuleBlock (go v s).2)
    (plan : Plan) (s : WalkState)
    : s.Restores plan.moves (plan.run resumes go s).2 := by
  induction plan generalizing s with
  | done | fail | announce | announceOption | announceCommand | setGrammar | setMode =>
      exact .silent rfl rfl rfl rfl
  | seq first next ihFirst ihNext =>
      have hf := ihFirst s
      rw [run]
      split
      · rename_i after h
        rw [h] at hf
        exact hf.trans (ihNext after)
      · exact hf.mono (fun h => (Bool.or_eq_false_iff.mp h).1)
  | visit v => exact hgo v s
  | attempt plan ih =>
      have hp := ih s
      rw [run]
      split
      · rename_i e after h
        rw [h] at hp
        cases resumes with
        | true => exact ⟨hp.stack, hp.path, hp.ebnfDepth, hp.ruleName, hp.ruleNode, hp.rule⟩
        | false => exact hp
      · exact hp
  | nextAlternative alt => exact ⟨rfl, rfl, rfl, rfl, rfl, fun h => (by cases h)⟩
  | inRule name node body ih =>
      have hb := ih (s.setRule (.opening name node))
      exact .silent hb.stack hb.path hb.ebnfDepth rfl
  | inAlternative alt body ih =>
      have hb := ih (s.announce (.enterAlternative alt))
      exact ⟨hb.stack, hb.path, hb.ebnfDepth, hb.ruleName, hb.ruleNode, hb.rule⟩
  | inSuffix body ih =>
      have hb := ih (s.setEbnfDepth (s.context.ebnfDepth + 1))
      refine ⟨hb.stack, hb.path, ?_, hb.ruleName, hb.ruleNode, hb.rule⟩
      show _ - 1 = _
      rw [hb.ebnfDepth]
      rfl

/-- A confined plan moves on only in a rule or its block, by induction on the plan. -/
theorem Plan.Confined.moves {p : Production} (noRule : p.isRule = false)
    (noBlock : p.isRuleBlock = false) {plan : Plan} (confined : plan.Confined p)
    : plan.moves = false := by
  induction plan with
  | done | fail | announce | announceOption | announceCommand | setGrammar | setMode | inRule => rfl
  | seq first next ihFirst ihNext =>
      exact Bool.or_eq_false_iff.mpr ⟨ihFirst confined.1, ihNext confined.2⟩
  | visit v =>
      cases hblock : v.production.isRuleBlock with
      | false => exact hblock
      | true =>
          have hrule := Production.isRule_of_admits confined hblock
          rw [noRule] at hrule
          cases hrule
  | attempt plan ih => exact ih confined
  | nextAlternative alt =>
      rw [Plan.Confined, noBlock] at confined
      cases confined
  | inAlternative alt body ih => exact ih confined
  | inSuffix body ih => exact ih confined

/-- Only the block of a rule moves on where the rule around it sees it, by what its plan names. A
rule itself does so inside of it only.
-/
theorem Visit.plan_moves {v : Visit} (noBlock : v.production.isRuleBlock = false)
    : v.plan.moves = false := by
  generalize hplan : v.plan = plan
  cases hplan ▸ v.plan_names with
  | fail => rfl
  | nothing noRule confined => exact confined.moves noRule noBlock
  | grammar isRoot first confined => exact confined.moves (by rw [isRoot]; rfl) noBlock
  | mode isMode confined => exact confined.moves (by rw [isMode]; rfl) noBlock
  | rule isRule first confined => rfl

-----------------------------------------------------------------------------------------
-- Productions and walkers
-----------------------------------------------------------------------------------------

/-- Every production restores the context, whatever room it has, by induction on the room. -/
theorem Visit.run_restores (config : WalkerConfig) (room : Nat) (v : Visit) (s : WalkState)
    : s.Restores v.production.isRuleBlock (v.run config room s).2 := by
  induction room generalizing v s with
  | zero => exact .silent rfl rfl rfl rfl
  | succ room ih =>
      have hb := v.plan.run_restores config.resumesOnMismatch ih (s.enter v)
      have restores := hb.mono v.plan_moves
      exact {
        stack := congrArg List.tail restores.stack
        path := congrArg List.tail restores.path
        ebnfDepth := restores.ebnfDepth
        ruleName := restores.ruleName
        ruleNode := restores.ruleNode
        rule := restores.rule
      }

namespace Walker

theorem conclude_context (w : Walker) (outcome : Outcome)
    : (w.conclude outcome).2.state.context = w.state.context := by
  cases outcome with
  | ok => rfl
  | error e =>
      rw [conclude]
      split <;> rfl

/-- A visit by name leaves the rule where it was: none, if none is around. -/
theorem visit_outside {w after : Walker} {node : Node} {name : String} {outcome : Outcome}
    (registry : w.registry = .full) (outside : w.state.context.inRule = false)
    (served : w.visit 1 node name = some (outcome, after))
    : after.state.context.inRule = false := by
  cases h : w.registry.get? name with
  | none =>
      rw [visit_of_none h 0 node] at served
      have hafter : (w.conclude _).2 = after := congrArg Prod.snd (Option.some.inj served)
      rw [← hafter, Context.inRule, conclude_context]
      exact outside
  | some handler =>
      obtain ⟨p, rfl⟩ := Registry.full_get?_eq_production (registry ▸ h)
      have restores
          : w.state.Restores p.isRuleBlock ((Visit.of p node).start w.config w.state).2 :=
        Visit.run_restores w.config _ (.of p node) w.state
      rw [visit_of_production h 0 node] at served
      have hafter : (conclude _ _).2 = after := congrArg Prod.snd (Option.some.inj served)
      rw [← hafter, Context.inRule, conclude_context]
      exact (congrArg Option.isSome restores.ruleName).trans outside

/-- No call leaves a rule open; a walk of a whole grammar begins outside of every rule. -/
theorem serve_outside {w after : Walker} {call : Call} {outcome : Outcome}
    (registry : w.registry = .full) (outside : w.state.context.inRule = false)
    (served : w.serve call = some (outcome, after))
    : after.state.context.inRule = false := by
  cases call with
  | visit node name => exact visit_outside registry outside served
  | visitGrammar root =>
      exact visit_outside (w := { w with state := w.beginning }) registry rfl served

/-- Calls leave the walker idle and outside of every rule, by induction on them. -/
theorem serveAll_outside {w : Walker} (idle : w.Idle) (outside : w.state.context.inRule = false)
    (calls : List Call)
    : ∃ after,
        w.serveAll calls = some after ∧ after.Idle ∧ after.state.context.inRule = false := by
  induction calls generalizing w with
  | nil => exact ⟨w, rfl, idle, outside⟩
  | cons call calls ih =>
      obtain ⟨outcome, after, served, idleAfter, -⟩ := serve_nests idle call
      obtain ⟨last, hlast, idleLast, outsideLast⟩ :=
        ih idleAfter (serve_outside idle.registry outside served)
      refine ⟨last, ?_, idleLast, outsideLast⟩
      rw [serveAll, served]
      exact hlast

/-- Every production restores the stack and the context from whatever state it is carried out in and
however it ends, and only the block of a rule may leave another outer alternative; so between calls
of a walker nothing is open and no rule is around.
-/
theorem context_restored (config : WalkerConfig)
    : (∀ (v : Visit) (s : WalkState), s.Restores v.production.isRuleBlock (v.start config s).2)
      ∧ ∀ calls,
          ∃ after,
            (create config).serveAll calls = some after
            ∧ after.state.stack = []
            ∧ after.state.context.path = []
            ∧ after.state.context.ebnfDepth = 0
            ∧ after.state.context.inRule = false := by
  constructor
  · intro v s
    exact v.run_restores config _ s
  · intro calls
    obtain ⟨after, served, idle, outside⟩ := serveAll_outside (idle_create config) rfl calls
    exact ⟨after, served, idle.stack, idle.path, idle.ebnfDepth, outside⟩

end Walker

end GrammarFrontend
