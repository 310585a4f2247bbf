import GrammarFrontend.Proofs.Walk.Conformance
import GrammarFrontend.Proofs.Walk.Recovery

/-! What walkers report. Walks count their reports, and only walks that go on after errors report
any on their way. A visit that is made in the course of another one reports nothing at its end, and
an outermost one reports the error that it ends with.
-/

namespace GrammarFrontend

-----------------------------------------------------------------------------------------
-- Reports of walks
-----------------------------------------------------------------------------------------

namespace WalkState

/-- The count of errors is the number of diagnostics reported. -/
def Counts (s : WalkState) : Prop := s.errorCount = s.diagnostics.length

/-- A part of a walk counts what it reports, and reports only if the walk goes on after errors. -/
def Sends (resumes : Bool) (s after : WalkState) : Prop :=
  ∃ sent,
    after.diagnostics = s.diagnostics ++ sent
    ∧ after.errorCount = s.errorCount + sent.length
    ∧ (resumes = false → sent = [])

variable {resumes : Bool} {s middle after : WalkState}

theorem Sends.nothing (hdiagnostics : after.diagnostics = s.diagnostics)
    (hcount : after.errorCount = s.errorCount)
    : s.Sends resumes after :=
  ⟨[], by rw [hdiagnostics, List.append_nil], hcount, fun _ => rfl⟩

theorem Sends.trans (hf : s.Sends resumes middle) (hs : middle.Sends resumes after)
    : s.Sends resumes after := by
  obtain ⟨first, hfirst, hfirstCount, hfirstOnly⟩ := hf
  obtain ⟨second, hsecond, hsecondCount, hsecondOnly⟩ := hs
  refine ⟨first ++ second, ?_, ?_, ?_⟩
  · rw [hsecond, hfirst, List.append_assoc]
  · rw [hsecondCount, hfirstCount, List.length_append, Nat.add_assoc]
  · intro aborts
    rw [hfirstOnly aborts, hsecondOnly aborts, List.append_nil]

theorem Sends.counts (h : s.Sends resumes after) (counts : s.Counts) : after.Counts := by
  obtain ⟨sent, hdiagnostics, hcount, -⟩ := h
  rw [Counts, hcount, counts, hdiagnostics, List.length_append]

theorem Sends.diagnostics_eq (h : s.Sends false after) : after.diagnostics = s.diagnostics := by
  obtain ⟨sent, hdiagnostics, -, only⟩ := h
  rw [hdiagnostics, only rfl, List.append_nil]

theorem sends_announce (s : WalkState) (callback : Callback)
    : s.Sends resumes (s.announce callback) :=
  .nothing (s.announce_diagnostics callback) rfl

/-- Where the walk goes on after errors, it counts the one that it reports there. -/
theorem sends_report (s : WalkState) (e : WalkError) : s.Sends true (s.report e) :=
  ⟨[e.diagnostic], s.report_diagnostics e, rfl, fun h => by cases h⟩

end WalkState

/-- A plan counts what it reports if its visits do, by induction on the plan. -/
theorem Plan.run_sends {resumes : Bool} {go : Visit → WalkState → Outcome × WalkState}
    (hgo : ∀ (v : Visit) (s : WalkState), s.Sends resumes (go v s).2) (plan : Plan) (s : WalkState)
    : s.Sends resumes (plan.run resumes go s).2 := by
  induction plan generalizing s with
  | done | fail | setGrammar | setMode | nextAlternative => exact .nothing rfl rfl
  | visit v => exact hgo v s
  | announce | announceOption | announceCommand => exact s.sends_announce _
  | seq first next ihFirst ihNext =>
      have hf := ihFirst s
      rw [run]
      generalize first.run resumes go s = result at hf ⊢
      obtain ⟨outcome, middle⟩ := result
      cases outcome with
      | ok => exact hf.trans (ihNext middle)
      | error e => exact hf
  | attempt plan ih =>
      have hp := ih s
      rw [run]
      generalize plan.run resumes go s = result at hp ⊢
      obtain ⟨outcome, after⟩ := result
      cases outcome with
      | ok => exact hp
      | error e =>
          cases resumes with
          | true => exact hp.trans (after.sends_report e)
          | false => exact hp
  | inRule name node body ih => exact ih (s.setRule (.opening name node))
  | inSuffix body ih => exact ih (s.setEbnfDepth (s.context.ebnfDepth + 1))
  | inAlternative alt body ih =>
      have hb := (s.sends_announce (.enterAlternative alt)).trans (ih _)
      exact hb.trans (WalkState.sends_announce _ _)

/-- A visit counts what it reports, whatever room it has, by induction on the room. -/
theorem Visit.run_sends (config : WalkerConfig) (room : Nat) (v : Visit) (s : WalkState)
    : s.Sends config.resumesOnMismatch (v.run config room s).2 := by
  induction room generalizing v s with
  | zero => exact .nothing rfl rfl
  | succ room ih =>
      have entered : s.Sends config.resumesOnMismatch (s.enter v) :=
        .nothing (s.enter_diagnostics v) rfl
      have hp := entered.trans (Plan.run_sends ih v.plan (s.enter v))
      exact hp.trans (.nothing (WalkState.exit_diagnostics _ v) rfl)

-----------------------------------------------------------------------------------------
-- Visits by name
-----------------------------------------------------------------------------------------

/-- What an outermost visit sends at its end. -/
def escaped : Outcome → List Diagnostic
  | .ok () => []
  | .error e => [e.diagnostic]

theorem WalkState.conclude_diagnostics (s : WalkState) (outcome : Outcome)
    : (s.conclude outcome).diagnostics = s.diagnostics ++ escaped outcome := by
  cases outcome with
  | ok => exact (List.append_nil _).symm
  | error e => exact s.report_diagnostics e

theorem WalkState.Counts.conclude {s : WalkState} (h : s.Counts) (outcome : Outcome)
    : (s.conclude outcome).Counts := by
  cases outcome with
  | ok => exact h
  | error e => exact (s.sends_report e).counts h

namespace Walker

theorem conclude_of_nested {w : Walker} (nested : 0 < w.visits) (outcome : Outcome)
    : w.conclude outcome = (outcome, w) := by
  cases outcome with
  | ok => rfl
  | error e => rw [conclude, if_neg (Nat.ne_of_gt nested)]

/-- The walker inside one more visit. -/
def deeper (w : Walker) : Walker := { w with visits := w.visits + 1 }

namespace NamedVisit

/-- Carries out a visit by name, in which visits nest no deeper than `nesting`. -/
def run (v : NamedVisit) (nesting : Nat) : Option (Outcome × Walker) :=
  v.walker.visit nesting v.node v.name

/-- Carries out a visit by name up to where its handler has returned, if the name has one. -/
def handled (v : NamedVisit) : (nesting : Nat) → Option (Outcome × Walker)
  | 0 => none
  | nesting + 1 =>
      match v.walker.registry.get? v.name with
      | none => some (.error (.unknownProduction v.name), v.walker)
      | some (.production p) =>
          let (outcome, state) := (Visit.of p v.node).start v.walker.config v.walker.state
          some (outcome, { v.walker with state })
      | some (.script start) =>
          (runScript (visit nesting) (start v.node) v.walker.deeper).map
            (fun (outcome, after) => (outcome, { after with visits := after.visits - 1 }))

/-- What is left of a visit when its handler has returned is to report the error. -/
theorem run_eq (v : NamedVisit) (nesting : Nat)
    : v.run nesting = (v.handled nesting).map (fun result => result.2.conclude result.1) := by
  cases nesting with
  | zero => rfl
  | succ nesting =>
      cases h : v.walker.registry.get? v.name with
      | none => simp [run, visit, handled, h]
      | some handler =>
          cases handler with
          | production p => simp [run, visit, handled, h]
          | script start =>
              simp only [run, visit, handled, h, deeper, Option.map_map]
              cases runScript (visit nesting) (start v.node) _ <;> rfl

end NamedVisit

/-- A part of a visit leaves the settings and the number of visits under way as they are, and it
counts what it reports.
-/
structure Passes (w after : Walker) : Prop where
  config : after.config = w.config
  visits : after.visits = w.visits
  sends : w.state.Sends w.config.resumesOnMismatch after.state

theorem Passes.refl (w : Walker) : w.Passes w := ⟨rfl, rfl, .nothing rfl rfl⟩

theorem Passes.trans {w middle after : Walker} (hf : w.Passes middle) (hs : middle.Passes after)
    : w.Passes after where
  config := hs.config.trans hf.config
  visits := hs.visits.trans hf.visits
  sends := hf.sends.trans (hf.config ▸ hs.sends)

/-- A script passes if the visits that it makes in the course of another one do, by induction on the
script.
-/
theorem runScript_passes {go : Node → String → Walker → Option (Outcome × Walker)}
    (hgo
      : ∀ (node : Node) (name : String) (w : Walker) (outcome : Outcome) (after : Walker),
          0 < w.visits → go node name w = some (outcome, after) → w.Passes after)
    {script : Script} {w after : Walker} {outcome : Outcome} (nested : 0 < w.visits)
    (ran : runScript go script w = some (outcome, after))
    : w.Passes after := by
  induction script generalizing w with
  | finish =>
      cases ran
      exact .refl _
  | visit node name next ih =>
      obtain ⟨⟨first, middle⟩, went, rest⟩ := Option.bind_eq_some_iff.mp ran
      have passes := hgo node name w first middle nested went
      exact passes.trans (ih first (passes.visits ▸ nested) rest)

namespace NamedVisit

/-- In the course of another visit, nothing is left to do when the handler has returned. -/
theorem run_of_passes {v : NamedVisit} {nesting : Nat}
    (passes
      : ∀ (outcome : Outcome) (after : Walker),
          v.handled nesting = some (outcome, after) → v.walker.Passes after)
    (nested : 0 < v.walker.visits)
    : v.run nesting = v.handled nesting := by
  rw [run_eq]
  cases h : v.handled nesting with
  | none => rfl
  | some result =>
      obtain ⟨outcome, after⟩ := result
      have insideAfter : 0 < after.visits := (passes outcome after h).visits ▸ nested
      exact congrArg some (conclude_of_nested insideAfter outcome)

/-- Every handler passes, by induction on how deep visits nest. -/
theorem handled_passes (v : NamedVisit) (nesting : Nat) {outcome : Outcome} {after : Walker}
    (ran : v.handled nesting = some (outcome, after))
    : v.walker.Passes after := by
  induction nesting generalizing v outcome after with
  | zero => cases ran
  | succ nesting ih =>
      rw [handled] at ran
      split at ran
      case h_1 =>
        cases ran
        exact .refl v.walker
      case h_2 p _ =>
        cases ran
        exact ⟨rfl, rfl, Visit.run_sends _ _ _ _⟩
      case h_3 start _ =>
        obtain ⟨⟨result, last⟩, scripted, returned⟩ := Option.map_eq_some_iff.mp ran
        cases returned
        -- The script runs inside this visit, so its own visits report nothing at their end.
        have passes : v.walker.deeper.Passes last := by
          refine runScript_passes ?_ v.walker.visits.succ_pos scripted
          intro node name w outcome after nested went
          let inner : NamedVisit := { walker := w, node, name }
          have ran : inner.run nesting = some (outcome, after) := went
          rw [run_of_passes (fun _ _ => ih inner) nested] at ran
          exact ih inner ran
        exact ⟨passes.config, congrArg (· - 1) passes.visits, passes.sends⟩

theorem run_of_nested (v : NamedVisit) (nested : 0 < v.walker.visits) (nesting : Nat)
    : v.run nesting = v.handled nesting :=
  run_of_passes (fun _ _ => v.handled_passes nesting) nested

/-- An outermost visit reports the error that its handler has returned. -/
theorem run_of_outermost {v : NamedVisit} (outermost : v.walker.visits = 0) {nesting : Nat}
    {outcome : Outcome} {after : Walker} (ran : v.run nesting = some (outcome, after))
    : ∃ returned,
        v.handled nesting = some (outcome, returned)
        ∧ after = { returned with state := returned.state.conclude outcome } := by
  rw [run_eq] at ran
  obtain ⟨⟨result, returned⟩, handled, concluded⟩ := Option.map_eq_some_iff.mp ran
  have idle : returned.visits = 0 := (v.handled_passes nesting handled).visits.trans outermost
  rw [conclude_of_outermost idle] at concluded
  cases concluded
  exact ⟨returned, handled, rfl⟩

end NamedVisit

-----------------------------------------------------------------------------------------
-- Visits in the course of visits
-----------------------------------------------------------------------------------------

/-- The visits that a script makes, given what carries them out. -/
inductive Makes (go : Node → String → Walker → Option (Outcome × Walker))
    : Script → Walker → NamedVisit → Prop
  | next {node : Node} {name : String} {rest : Outcome → Script} {w : Walker}
    : Makes go (.visit node name rest) w { walker := w, node, name }
  | later {node : Node} {name : String} {rest : Outcome → Script} {w middle : Walker}
    {outcome : Outcome} {v : NamedVisit}
    (ran : go node name w = some (outcome, middle))
    (made : Makes go (rest outcome) middle v)
    : Makes go (.visit node name rest) w v

/-- The visits made in the course of a visit, by its handler or deeper inside, with how deep visits
may nest in them.
-/
inductive Nested : (nesting : Nat) → NamedVisit → (left : Nat) → NamedVisit → Prop
  | direct {nesting : Nat} {v inner : NamedVisit} {start : Node → Script}
    (entry : v.walker.registry.get? v.name = some (.script start))
    (made : Makes (visit nesting) (start v.node) v.walker.deeper inner)
    : Nested (nesting + 1) v nesting inner
  | inside {nesting left : Nat} {v middle inner : NamedVisit} {start : Node → Script}
    (entry : v.walker.registry.get? v.name = some (.script start))
    (made : Makes (visit nesting) (start v.node) v.walker.deeper middle)
    (nested : Nested nesting middle left inner)
    : Nested (nesting + 1) v left inner

/-- A visit that a script makes starts after a part of the script that passes. -/
theorem Makes.passes {nesting : Nat} {script : Script} {w : Walker} {v : NamedVisit}
    (made : Makes (visit nesting) script w v) (nested : 0 < w.visits)
    : w.Passes v.walker := by
  induction made with
  | next => exact .refl _
  | @later node name _ w middle outcome _ ran _ ih =>
      let first : NamedVisit := { walker := w, node, name }
      have handled : first.run nesting = some (outcome, middle) := ran
      rw [first.run_of_nested nested] at handled
      have passes := first.handled_passes nesting handled
      exact passes.trans (ih (passes.visits ▸ nested))

/-- How a visit in the course of another one reports. Nothing is sent after its handler has
returned, or at all if its name has no handler.
-/
structure NamedVisit.Quiet (v : NamedVisit) (nesting : Nat) : Prop where
  visits : 0 < v.walker.visits
  counts : v.walker.state.Counts
  silent : v.run nesting = v.handled nesting
  returns
    : ∀ outcome after,
        v.run nesting = some (outcome, after)
        → after.visits = v.walker.visits ∧ after.state.Counts
  unknown
    : v.walker.registry.get? v.name = none
      → ∀ outcome after, v.run nesting = some (outcome, after) → after = v.walker

/-- A visit is quiet if another one is under way, and the errors have been counted so far. -/
theorem NamedVisit.quiet {v : NamedVisit} (nested : 0 < v.walker.visits)
    (counts : v.walker.state.Counts) (nesting : Nat)
    : v.Quiet nesting where
  visits := nested
  counts := counts
  silent := v.run_of_nested nested nesting
  returns := by
    intro outcome after ran
    rw [v.run_of_nested nested] at ran
    have passes := v.handled_passes nesting ran
    exact ⟨passes.visits, passes.sends.counts counts⟩
  unknown := by
    intro unknown outcome after ran
    rw [v.run_of_nested nested] at ran
    cases nesting with
    | zero => cases ran
    | succ nesting =>
        simp only [handled, unknown] at ran
        cases ran
        rfl

/-- Every visit in the course of another one is quiet, by induction on how it is nested. -/
theorem Nested.quiet {nesting left : Nat} {v inner : NamedVisit}
    (nested : Nested nesting v left inner) (counts : v.walker.state.Counts)
    : inner.Quiet left := by
  have starts {nesting : Nat} {v middle : NamedVisit} {script : Script}
      (made : Makes (visit nesting) script v.walker.deeper middle) (counts : v.walker.state.Counts)
      : 0 < middle.walker.visits ∧ middle.walker.state.Counts := by
    have passes := made.passes v.walker.visits.succ_pos
    exact ⟨passes.visits ▸ v.walker.visits.succ_pos, passes.sends.counts counts⟩
  induction nested with
  | direct entry made =>
      obtain ⟨visits, counts⟩ := starts made counts
      exact NamedVisit.quiet visits counts _
  | inside entry made nested ih => exact ih (starts made counts).2

-----------------------------------------------------------------------------------------
-- Calls one after another
-----------------------------------------------------------------------------------------

/-- Serves a call, with visits nesting no deeper than `nesting`. -/
def serveWithin (nesting : Nat) (w : Walker) : Call → Option (Outcome × Walker)
  | .visit node name => w.visit nesting node name
  | .visitGrammar root => w.visitGrammar nesting root

/-- The walkers that there can be between calls: one made for the settings, one with other entries,
and one that has served a call.
-/
inductive Reachable (config : WalkerConfig) : Walker → Prop
  | create : Reachable config (create config)
  | enter {w : Walker} (registry : Registry) (earlier : Reachable config w)
    : Reachable config { w with registry }
  | serve {w after : Walker} {nesting : Nat} {call : Call} {outcome : Outcome}
    (earlier : Reachable config w)
    (served : w.serveWithin nesting call = some (outcome, after))
    : Reachable config after

/-- What a walker keeps to between calls. -/
structure Settled (config : WalkerConfig) (w : Walker) : Prop where
  config : w.config = config
  visits : w.visits = 0
  counts : w.state.Counts

/-- How a call reports. The error that it ends with is sent after the handler has returned and as
the last diagnostic. It is the only one if the walk does not go on after errors. Visits in the
course of the call are quiet.
-/
structure ReportsOnce (nesting : Nat) (w : Walker) (call : Call) (outcome : Outcome)
    (after : Walker)
    : Prop where
  last
    : ∃ returned,
        (call.named w).handled nesting = some (outcome, returned)
        ∧ returned.state.Counts
        ∧ after.state.diagnostics = returned.state.diagnostics ++ escaped outcome
  only
    : w.config.resumesOnMismatch = false
      → after.state.diagnostics = w.state.diagnostics ++ escaped outcome
  nested : ∀ left inner, Nested nesting (call.named w) left inner → inner.Quiet left

theorem serveWithin_eq (nesting : Nat) (w : Walker) (call : Call)
    : w.serveWithin nesting call = (call.named w).run nesting := by
  cases call <;> rfl

/-- The visit that serves a call starts as the walker is, but for where it stands. -/
theorem named_passes (w : Walker) (call : Call) : w.Passes (call.named w).walker := by
  cases call with
  | visit => exact .refl w
  | visitGrammar => exact ⟨rfl, rfl, .nothing rfl rfl⟩

/-- One call of a settled walker reports once, and the walker is settled again. -/
theorem Settled.serve {config : WalkerConfig} {w after : Walker} (settled : w.Settled config)
    {nesting : Nat} {call : Call} {outcome : Outcome}
    (served : w.serveWithin nesting call = some (outcome, after))
    : after.Settled config ∧ ReportsOnce nesting w call outcome after := by
  have starts := w.named_passes call
  rw [serveWithin_eq] at served
  obtain ⟨returned, handled, rfl⟩ :=
    NamedVisit.run_of_outermost (starts.visits.trans settled.visits) served
  have passes := starts.trans ((call.named w).handled_passes nesting handled)
  have counts := passes.sends.counts settled.counts
  have sent := returned.state.conclude_diagnostics outcome
  refine ⟨?_, ⟨returned, handled, counts, sent⟩, ?_, ?_⟩
  · exact {
      config := passes.config.trans settled.config
      visits := passes.visits.trans settled.visits
      counts := counts.conclude outcome
    }
  · intro aborts
    have unsent : w.state.Sends false returned.state := aborts ▸ passes.sends
    rw [sent, unsent.diagnostics_eq]
  · intro left inner nested
    exact nested.quiet (starts.sends.counts settled.counts)

theorem Reachable.settled {config : WalkerConfig} {w : Walker} (reachable : Reachable config w)
    : w.Settled config := by
  induction reachable with
  | create => exact ⟨rfl, rfl, rfl⟩
  | enter registry earlier settled => exact ⟨settled.config, settled.visits, settled.counts⟩
  | serve earlier served settled => exact (settled.serve served).1

end Walker

/-- A walk that an error escapes from has a diagnostic. -/
theorem walk_diagnostics_ne_nil {tree : Node} {config : Config}
    (h : (walk tree config).completed = false)
    : (walk tree config).diagnostics ≠ [] := by
  have settled : (Walker.create config.walker).Settled config.walker := ⟨rfl, rfl, rfl⟩
  obtain ⟨outcome, after, served, -⟩ :=
    Walker.serve_nests (Walker.idle_create config.walker) (.visitGrammar tree)
  have served
      : (Walker.create config.walker).serveWithin 1 (.visitGrammar tree)
        = some (outcome, after) :=
    served
  obtain ⟨returned, -, -, sent⟩ := (settled.serve served).2.last
  have hwalk
      : walk tree config
        = {
            events := after.state.events
            diagnostics := after.state.diagnostics
            completed := outcome.isOk
          } := by
    unfold walk
    rw [show Walker.visitGrammar 1 tree (.create config.walker) = _ from served]
  rw [hwalk] at h ⊢
  cases outcome with
  | ok => cases h
  | error e =>
      rw [sent]
      exact List.append_ne_nil_of_right_ne_nil _ (List.cons_ne_nil _ _)

namespace Walker

/-- Whatever a walker has served and whatever its entries do, between calls no visit is under way
and every diagnostic is counted. Each call then reports once, and a walk that is not completed has
a diagnostic.
-/
theorem errors_reported_once {config : Config} {w : Walker} (reachable : Reachable config.walker w)
    : w.Settled config.walker
      ∧ (∀ nesting call outcome after,
          w.serveWithin nesting call = some (outcome, after)
          → after.Settled config.walker ∧ ReportsOnce nesting w call outcome after)
      ∧ ∀ tree,
          (walk tree config).completed = false → (walk tree config).diagnostics ≠ [] := by
  refine ⟨reachable.settled, ?_, fun _ => walk_diagnostics_ne_nil⟩
  intro nesting call outcome after served
  exact reachable.settled.serve served

/-- An entry that ignores what comes of one visit and ends as another one does. -/
def tolerant (node : Node) : Script :=
  .visit node "nowhere" (fun _ => .visit node "ruleBlock" .finish)

def abortingConfig : Config := { walker := { resumesOnMismatch := false } }

def tolerantWalker : Walker :=
  {
    create abortingConfig.walker with
    registry := Registry.full.register "tolerant" (.script tolerant)
  }

/-- The first visit of the entry fails as well, but only the error of the second one is reported. -/
theorem errors_reported_once_tolerant
    : let call : Call := .visit (.leaf .id "G") "tolerant"
      let unknown : NamedVisit :=
        { walker := tolerantWalker.deeper, node := .leaf .id "G", name := "nowhere" }
      let e : WalkError := .mismatch .ruleBlock "BLOCK" "ID" none
      Reachable abortingConfig.walker tolerantWalker
      ∧ unknown.Quiet 1
      ∧ ∃ after,
          tolerantWalker.serveWithin 2 call = some (.error e, after)
          ∧ after.state.diagnostics = [e.diagnostic]
          ∧ after.state.errorCount = 1 := by
  intro call unknown e
  have reachable : Reachable abortingConfig.walker tolerantWalker := .enter _ .create
  obtain ⟨-, reports, -⟩ := errors_reported_once reachable
  obtain ⟨settled, once⟩ := reports 2 call (.error e) _ rfl
  have nested : Nested 2 (call.named tolerantWalker) 1 unknown := .direct rfl .next
  have sent := once.only rfl
  refine ⟨reachable, once.nested 1 unknown nested, _, rfl, sent, ?_⟩
  rw [settled.counts, sent]
  rfl

end Walker

end GrammarFrontend
