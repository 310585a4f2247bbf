import GrammarFrontend.Proofs.Walk.Reporting

/-! What earlier walks leave to later ones. No part of a walk looks at the journal or at the count of
errors, so it does the same whatever stands there from before. A walk of a whole grammar puts back
everything else first, and so it is the walk of a walker that was just made.
-/

namespace GrammarFrontend

-----------------------------------------------------------------------------------------
-- States with a past
-----------------------------------------------------------------------------------------

namespace WalkState

/-- The state with the journal and the errors of an earlier one behind it. -/
def following (s earlier : WalkState) : WalkState :=
  {
    s with
    journal := s.journal ++ earlier.journal
    errorCount := earlier.errorCount + s.errorCount
  }

variable (s earlier : WalkState)

theorem announce_following (callback : Callback)
    : (s.following earlier).announce callback = (s.announce callback).following earlier := rfl

theorem setRule_following (rule : RuleScope)
    : (s.following earlier).setRule rule = (s.setRule rule).following earlier := rfl

theorem setEbnfDepth_following (depth : Nat)
    : (s.following earlier).setEbnfDepth depth = (s.setEbnfDepth depth).following earlier := rfl

theorem enter_following (v : Visit)
    : (s.following earlier).enter v = (s.enter v).following earlier := rfl

theorem following_events : (s.following earlier).events = earlier.events ++ s.events := by
  simp [events, following]

theorem following_diagnostics
    : (s.following earlier).diagnostics = earlier.diagnostics ++ s.diagnostics := by
  simp [diagnostics, following]

end WalkState

/-- The end of a part of a walk with an earlier state behind it. -/
def laterEnd (earlier : WalkState) (result : Outcome × WalkState) : Outcome × WalkState :=
  (result.1, result.2.following earlier)

-----------------------------------------------------------------------------------------
-- Runs from states with a past
-----------------------------------------------------------------------------------------

/-- Carrying out visits takes no notice of what is behind the state. -/
def Unmindful (go : Visit → WalkState → Outcome × WalkState) : Prop :=
  ∀ (v : Visit) (s earlier : WalkState), go v (s.following earlier) = laterEnd earlier (go v s)

/-- A plan takes no notice of what is behind the state if its visits do not, by induction on the
plan.
-/
theorem Plan.run_following (resumes : Bool) {go : Visit → WalkState → Outcome × WalkState}
    (hgo : Unmindful go) (plan : Plan) (s earlier : WalkState)
    : plan.run resumes go (s.following earlier) = laterEnd earlier (plan.run resumes go s) := by
  induction plan generalizing s with
  | done | fail | announce | announceOption | announceCommand | setGrammar | setMode
      | nextAlternative => rfl
  | visit v => exact hgo v s earlier
  | seq first next ihFirst ihNext =>
      rw [run, run, ihFirst]
      generalize first.run resumes go s = result
      obtain ⟨outcome, after⟩ := result
      cases outcome with
      | ok => exact ihNext after
      | error e => rfl
  | attempt plan ih =>
      rw [run, run, ih]
      generalize plan.run resumes go s = result
      obtain ⟨outcome, after⟩ := result
      cases outcome with
      | ok => rfl
      | error e => cases resumes <;> rfl
  | inRule name node body ih =>
      rw [run, run, s.setRule_following, ih]
      rfl
  | inAlternative alt body ih =>
      rw [run, run, s.announce_following, ih]
      rfl
  | inSuffix body ih =>
      have hdepth : (s.following earlier).context.ebnfDepth = s.context.ebnfDepth := rfl
      rw [run, run, hdepth, s.setEbnfDepth_following, ih]
      rfl

/-- A visit takes no notice of what is behind the state, whatever room it has, by induction on the
room.
-/
theorem Visit.run_following (config : WalkerConfig) (room : Nat)
    : Unmindful (run config room) := by
  induction room with
  | zero =>
      intro v s earlier
      rfl
  | succ room ih =>
      intro v s earlier
      rw [run, run, s.enter_following, Plan.run_following config.resumesOnMismatch ih]
      rfl

-----------------------------------------------------------------------------------------
-- Walkers with a past
-----------------------------------------------------------------------------------------

namespace Walker

/-- The walker with an earlier state behind its own. -/
def following (w : Walker) (earlier : WalkState) : Walker :=
  { w with state := w.state.following earlier }

/-- What a visit by name comes to, with an earlier state behind it. -/
def laterVisit (earlier : WalkState) (result : Outcome × Walker) : Outcome × Walker :=
  (result.1, result.2.following earlier)

theorem conclude_following (w : Walker) (earlier : WalkState) (outcome : Outcome)
    : (w.following earlier).conclude outcome = laterVisit earlier (w.conclude outcome) := by
  cases outcome with
  | ok => rfl
  | error e =>
      have hvisits : (w.following earlier).visits = w.visits := rfl
      rw [conclude, conclude, hvisits]
      split <;> rfl

/-- A script takes no notice of what is behind the walker if its visits do not, by induction on the
script.
-/
theorem runScript_following {go : Node → String → Walker → Option (Outcome × Walker)}
    {earlier : WalkState}
    (hgo
      : ∀ (node : Node) (name : String) (w : Walker),
          go node name (w.following earlier) = (go node name w).map (laterVisit earlier))
    (script : Script) (w : Walker)
    : runScript go script (w.following earlier)
      = (runScript go script w).map (laterVisit earlier) := by
  induction script generalizing w with
  | finish => rfl
  | visit node name next ih =>
      rw [runScript, runScript, hgo]
      cases go node name w with
      | none => rfl
      | some result => exact ih result.1 result.2

namespace NamedVisit

/-- The visit by the walker with an earlier state behind it. -/
def following (v : NamedVisit) (earlier : WalkState) : NamedVisit :=
  { v with walker := v.walker.following earlier }

/-- A handler takes no notice of what is behind the walker if the visits of scripts do not. -/
theorem handled_following {nesting : Nat} {earlier : WalkState}
    (inner
      : ∀ (node : Node) (name : String) (w : Walker),
          visit nesting node name (w.following earlier)
          = (visit nesting node name w).map (laterVisit earlier))
    (v : NamedVisit)
    : (v.following earlier).handled (nesting + 1)
      = (v.handled (nesting + 1)).map (laterVisit earlier) := by
  have hregistry : (v.following earlier).walker.registry = v.walker.registry := rfl
  have hname : (v.following earlier).name = v.name := rfl
  rw [handled, handled, hregistry, hname]
  cases v.walker.registry.get? v.name with
  | none => rfl
  | some handler =>
      cases handler with
      | production p =>
          have hstart
              : (Visit.of p v.node).start v.walker.config (v.walker.state.following earlier)
                = laterEnd earlier ((Visit.of p v.node).start v.walker.config v.walker.state) :=
            Visit.run_following v.walker.config _ (.of p v.node) v.walker.state earlier
          exact congrArg
            (fun result => some (result.1, { v.walker.following earlier with state := result.2 }))
            hstart
      | script start =>
          have hscript := runScript_following inner (start v.node) v.walker.deeper
          have hdeeper
              : (v.following earlier).walker.deeper = v.walker.deeper.following earlier := rfl
          have hnode : (v.following earlier).node = v.node := rfl
          simp only [hdeeper, hnode, hscript, Option.map_map]
          rfl

/-- A visit by name takes no notice of what is behind the walker, by induction on how deep visits
nest.
-/
theorem run_following (v : NamedVisit) (nesting : Nat) (earlier : WalkState)
    : (v.following earlier).run nesting = (v.run nesting).map (laterVisit earlier) := by
  induction nesting generalizing v with
  | zero => rfl
  | succ nesting ih =>
      rw [run_eq, run_eq, handled_following (fun node name w => ih { walker := w, node, name }) v,
        Option.map_map, Option.map_map]
      refine congrArg (Option.map · _) (funext ?_)
      intro result
      exact result.2.conclude_following earlier result.1

end NamedVisit

/-- A walker just made, with the settings and the entries of another one. -/
def remade (w : Walker) : Walker := { create w.config with registry := w.registry }

/-- Two walks of a whole grammar, of which the first has an earlier state behind it: they end the
same, announce and report the same, and leave the same context with nothing open that was not. They
differ in the errors counted before.
-/
structure SameWalk (earlier : WalkState) (later first : Outcome × Walker) : Prop where
  outcome : later.1 = first.1
  journal : later.2.state.journal = first.2.state.journal ++ earlier.journal
  events : later.2.state.events = earlier.events ++ first.2.state.events
  diagnostics : later.2.state.diagnostics = earlier.diagnostics ++ first.2.state.diagnostics
  context : later.2.state.context = first.2.state.context
  stack : later.2.state.stack = first.2.state.stack
  errorCount : later.2.state.errorCount = earlier.errorCount + first.2.state.errorCount
  config : later.2.config = first.2.config
  registry : later.2.registry = first.2.registry
  visits : later.2.visits = first.2.visits

theorem sameWalk_laterVisit (earlier : WalkState) (result : Outcome × Walker)
    : SameWalk earlier (laterVisit earlier result) result where
  outcome := rfl
  journal := rfl
  events := result.2.state.following_events earlier
  diagnostics := result.2.state.following_diagnostics earlier
  context := rfl
  stack := rfl
  errorCount := rfl
  config := rfl
  registry := rfl
  visits := rfl

/-- Where no visit is under way, a walk of a whole grammar is that of the walker made anew, with the
state before it behind.
-/
theorem visitGrammar_eq {w : Walker} (outermost : w.visits = 0) (nesting : Nat) (root : Node)
    : w.visitGrammar nesting root
      = (w.remade.visitGrammar nesting root).map (laterVisit w.state) := by
  let first : NamedVisit :=
    { walker := w.remade, node := root, name := w.config.startProduction }
  have hstart
      : { w with state := { w.state with context := .initial w.config.defaultMode, stack := [] } }
        = w.remade.following w.state := by
    rw [following, remade, create, ← outermost]
    rfl
  have hsame := first.run_following nesting w.state
  rw [visitGrammar, hstart]
  exact hsame

/-- Where every entry is a production, a visit by name comes to an end. -/
theorem visit_isSome {w : Walker} (full : w.registry = .full) (node : Node) (name : String)
    : (w.visit 1 node name).isSome = true := by
  cases h : w.registry.get? name with
  | none => rw [visit_of_none h, Option.isSome_some]
  | some handler =>
      obtain ⟨p, rfl⟩ := Registry.full_get?_eq_production (full ▸ h)
      rw [visit_of_production h, Option.isSome_some]

/-- Whatever a walker has served, a walk of a whole grammar is the same as that of a walker just
made with the same settings and entries, but for the errors counted before; and it comes to an end
if all entries are productions.
-/
theorem visitGrammar_forgets {config : WalkerConfig} {w : Walker} (reachable : Reachable config w)
    (nesting : Nat) (root : Node)
    : Option.Rel (SameWalk w.state) (w.visitGrammar nesting root)
        (visitGrammar nesting root { create config with registry := w.registry })
      ∧ (w.registry = .full → (w.visitGrammar 1 root).isSome = true) := by
  have settled := reachable.settled
  constructor
  · rw [visitGrammar_eq settled.visits, remade, settled.config]
    cases visitGrammar nesting root { create config with registry := w.registry } with
    | none => exact .none
    | some result => exact .some (sameWalk_laterVisit w.state result)
  · intro full
    have hregistry : ({ w with state := w.beginning } : Walker).registry = .full := full
    exact visit_isSome hregistry root w.config.startProduction

/-- A walker that has walked a broken grammar, and then was asked for a production that there is
not.
-/
def worn : Option Walker :=
  (create {}).serveAll [
    .visit namelessRuleGrammar "grammarSpec",
    .visit namelessRuleGrammar "nowhere"
  ]

/-- The walker still knows the grammar and has counted two errors, and its next walk of a grammar is
as if it were the first.
-/
theorem visitGrammar_forgets_worn
    : ∃ w : Walker,
        worn = some w
        ∧ Reachable {} w
        ∧ w.state.context.grammarName = some "G"
        ∧ w.state.errorCount = 2
        ∧ Option.Rel (SameWalk w.state) (w.visitGrammar 1 namelessRuleGrammar)
            (visitGrammar 1 namelessRuleGrammar { create {} with registry := w.registry }) := by
  have first : Reachable {} _ :=
    @Reachable.serve {} _ _ 1 (.visit namelessRuleGrammar "grammarSpec") _ .create rfl
  have second : Reachable {} _ :=
    @Reachable.serve {} _ _ 1 (.visit namelessRuleGrammar "nowhere") _ first rfl
  exact ⟨_, rfl, second, rfl, rfl, (visitGrammar_forgets second 1 namelessRuleGrammar).1⟩

end Walker

end GrammarFrontend
