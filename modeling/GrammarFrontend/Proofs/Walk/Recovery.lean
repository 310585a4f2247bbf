import GrammarFrontend.Proofs.Walk.Nesting

/-! Walks that go on after an error and walks that stop at it. From the same state, the two do the
same up to the first report. What a stopped walk does after that is to close what is still open, and
then it reports the same error.
-/

namespace GrammarFrontend

-----------------------------------------------------------------------------------------
-- What events leave open
-----------------------------------------------------------------------------------------

/-- What is open after a callback: what it opens is the innermost, and what it closes is removed
where it was opened last.
-/
def Callback.leavesOpen (opened : List Scope) : Callback → List Scope
  | enter p n => .production p n :: opened
  | exit p n => opened.erase (.production p n)
  | enterAlternative alt => .alternative alt :: opened
  | exitAlternative alt => opened.erase (.alternative alt)
  | _ => opened

/-- The callback that opens a scope. -/
def Scope.opening : Scope → Callback
  | production p n => .enter p n
  | alternative alt => .enterAlternative alt

/-- The callback that closes a scope. -/
def Scope.closing : Scope → Callback
  | production p n => .exit p n
  | alternative alt => .exitAlternative alt

/-- What is open after events, the innermost first. -/
def stillOpen (opened : List Scope) (events : List Event) : List Scope :=
  events.foldl (fun opened e => e.callback.leavesOpen opened) opened

theorem Callback.leavesOpen_of_not_isBracket {callback : Callback} (h : callback.isBracket = false)
    (opened : List Scope)
    : callback.leavesOpen opened = opened := by
  cases callback <;> first | rfl | cases h

theorem Scope.leavesOpen_opening (scope : Scope) (opened : List Scope)
    : scope.opening.leavesOpen opened = scope :: opened := by
  cases scope <;> rfl

theorem Scope.leavesOpen_closing (scope : Scope) (opened : List Scope)
    : scope.closing.leavesOpen (scope :: opened) = opened := by
  cases scope <;> exact List.erase_cons_head _ _

theorem stillOpen_append (opened : List Scope) (first second : List Event)
    : stillOpen opened (first ++ second) = stillOpen (stillOpen opened first) second :=
  List.foldl_append

-----------------------------------------------------------------------------------------
-- The journal of a part of a walk
-----------------------------------------------------------------------------------------

/-- A part of a walk adds these entries to the journal, in this order. -/
def WalkState.Adds (s after : WalkState) (entries : List Entry) : Prop :=
  after.journal = entries.reverse ++ s.journal

namespace WalkState

theorem Adds.trans {s middle after : WalkState} {first second : List Entry}
    (hf : s.Adds middle first) (hs : middle.Adds after second)
    : s.Adds after (first ++ second) := by
  rw [Adds, hs, hf, List.reverse_append, List.append_assoc]

theorem adds_announce (s : WalkState) (callback : Callback)
    : s.Adds (s.announce callback) [.event { callback, context := s.context }] :=
  rfl

theorem adds_enter (s : WalkState) (v : Visit)
    : s.Adds (s.enter v)
        [.event { callback := .enter v.production v.node, context := (s.enter v).context }] :=
  rfl

theorem adds_exit (s : WalkState) (v : Visit)
    : s.Adds (s.exit v) [.event { callback := .exit v.production v.node, context := s.context }] :=
  rfl

theorem adds_report (s : WalkState) (e : WalkError) : s.Adds (s.report e) [.report e.diagnostic] :=
  rfl

end WalkState

-----------------------------------------------------------------------------------------
-- One error with and without its place
-----------------------------------------------------------------------------------------

/-- An error has the kind and the arguments of a diagnostic, and its place if it has one. -/
structure WalkError.Describes (e : WalkError) (d : Diagnostic) : Prop where
  kind : e.diagnostic.kind = d.kind
  args : e.diagnostic.args = d.args
  span : ∀ span, d.span = some span → e.diagnostic.span = some span

namespace WalkError

theorem describes_diagnostic (e : WalkError) : e.Describes e.diagnostic := ⟨rfl, rfl, fun _ h => h⟩

/-- An error that is given a place has the place that it had before, if it had one. -/
theorem Describes.locate {e : WalkError} {d : Diagnostic} (h : e.Describes d) (span : Option Span)
    : (e.locate span).Describes d := by
  unfold WalkError.locate
  split
  · rename_i production expected found
    refine ⟨h.kind, h.args, ?_⟩
    intro place hplace
    cases h.span place hplace
  · exact h

end WalkError

-----------------------------------------------------------------------------------------
-- Parts of two walks
-----------------------------------------------------------------------------------------

/-- A part of a walk that goes on after errors and the same part of one that stops at the first of
them, both from one state. If nothing is reported, then both end the same and leave open what was
open. Otherwise the second ends with the first error that is reported, and after the events before
that report it only closes, from the innermost, what they leave open.
-/
inductive WalkState.Agrees (s : WalkState) : Outcome × WalkState → Outcome × WalkState → Prop
  | clean {outcome : Outcome} {after : WalkState} {events : List Event}
    (adds : s.Adds after (events.map .event))
    (balanced : ∀ opened, stillOpen opened events = opened)
    : s.Agrees (outcome, after) (outcome, after)
  | broken {outcome : Outcome} {e : WalkError} {resumed aborted : WalkState}
    {events closings : List Event} {d : Diagnostic} {later : List Entry} {scopes : List Scope}
    (resumedAdds : s.Adds resumed (events.map .event ++ .report d :: later))
    (abortedAdds : s.Adds aborted (events.map .event ++ closings.map .event))
    (opens : ∀ opened, stillOpen opened events = scopes ++ opened)
    (closes : closings.map (·.callback) = scopes.map Scope.closing)
    (describes : e.Describes d)
    : s.Agrees (outcome, resumed) (.error e, aborted)

namespace WalkState

/-- A part that leaves the journal as it is agrees with itself. -/
theorem Agrees.silent {s after : WalkState} (outcome : Outcome) (h : after.journal = s.journal)
    : s.Agrees (outcome, after) (outcome, after) :=
  .clean (show s.Adds after ([].map .event) from h) (fun _ => rfl)

/-- An announcement that is no bracket agrees with itself. -/
theorem Agrees.announce {s : WalkState} {callback : Callback} (plain : callback.isBracket = false)
    : s.Agrees (.ok (), s.announce callback) (.ok (), s.announce callback) := by
  have adds : s.Adds (s.announce callback) ([{ callback, context := s.context }].map .event) :=
    s.adds_announce callback
  exact .clean adds (callback.leavesOpen_of_not_isBracket plain)

/-- A part that goes on after errors only adds to the journal. -/
theorem Agrees.adds {s : WalkState} {resumed aborted : Outcome × WalkState}
    (h : s.Agrees resumed aborted)
    : ∃ entries, s.Adds resumed.2 entries := by
  cases h with
  | clean adds => exact ⟨_, adds⟩
  | broken resumedAdds => exact ⟨_, resumedAdds⟩

/-- Changes around a part that leave the journal as it is do not matter. -/
theorem Agrees.congr {s : WalkState} {resumed aborted : Outcome × WalkState}
    (h : s.Agrees resumed aborted) (t : WalkState) (hs : t.journal = s.journal)
    (change : WalkState → WalkState) (hchange : ∀ after, (change after).journal = after.journal)
    : t.Agrees (resumed.1, change resumed.2) (aborted.1, change aborted.2) := by
  have hadds {after : WalkState} {entries : List Entry} (adds : s.Adds after entries)
      : t.Adds (change after) entries := by
    rw [Adds, hchange, hs]
    exact adds
  cases h with
  | clean adds balanced => exact .clean (hadds adds) balanced
  | broken resumedAdds abortedAdds opens closes describes =>
      exact .broken (hadds resumedAdds) (hadds abortedAdds) opens closes describes

/-- Giving an error its place does not matter. -/
theorem Agrees.locate {s : WalkState} {resumed aborted : Outcome × WalkState}
    (h : s.Agrees resumed aborted) (span : Option Span)
    : s.Agrees (resumed.1.mapError (WalkError.locate span), resumed.2)
        (aborted.1.mapError (WalkError.locate span), aborted.2) := by
  cases h with
  | clean adds balanced => exact .clean adds balanced
  | broken resumedAdds abortedAdds opens closes describes =>
      exact .broken resumedAdds abortedAdds opens closes (describes.locate span)

/-- After a part that reports nothing and leaves open what was open, the next part decides. -/
theorem Agrees.after {s middle : WalkState} {events : List Event}
    {resumed aborted : Outcome × WalkState} (h : middle.Agrees resumed aborted)
    (adds : s.Adds middle (events.map .event))
    (balanced : ∀ opened, stillOpen opened events = opened)
    : s.Agrees resumed aborted := by
  cases h with
  | @clean _ _ more moreAdds moreBalanced =>
      have allAdds := adds.trans moreAdds
      rw [← List.map_append] at allAdds
      refine .clean allAdds ?_
      intro opened
      rw [stillOpen_append, balanced, moreBalanced]
  | @broken _ _ _ _ more closings d later scopes resumedAdds abortedAdds opens closes describes =>
      have allResumed := adds.trans resumedAdds
      have allAborted := adds.trans abortedAdds
      rw [← List.append_assoc, ← List.map_append] at allResumed allAborted
      refine .broken allResumed allAborted ?_ closes describes
      intro opened
      rw [stillOpen_append, balanced, opens]

/-- A scope around a part is opened before it and closed after it, whichever way the part ends. If
the part is broken, then the scope is the outermost that is still open at the report.
-/
theorem Agrees.scoped {s entered : WalkState} {resumed aborted : Outcome × WalkState}
    (scope : Scope) (leave : WalkState → WalkState)
    (enters : ∃ context, s.Adds entered [.event { callback := scope.opening, context }])
    (leaves
      : ∀ after : WalkState,
          ∃ context, after.Adds (leave after) [.event { callback := scope.closing, context }])
    (h : entered.Agrees resumed aborted)
    : s.Agrees (resumed.1, leave resumed.2) (aborted.1, leave aborted.2) := by
  obtain ⟨enterContext, enters⟩ := enters
  let enter : Event := { callback := scope.opening, context := enterContext }
  have hopen (opened : List Scope) (events : List Event)
      : stillOpen opened (enter :: events) = stillOpen (scope :: opened) events := by
    rw [stillOpen, List.foldl_cons, scope.leavesOpen_opening]
    rfl
  cases h with
  | @clean _ after events adds balanced =>
      obtain ⟨leaveContext, leaves⟩ := leaves after
      let leaveEvent : Event := { callback := scope.closing, context := leaveContext }
      have allAdds : s.Adds (leave after) ((enter :: events ++ [leaveEvent]).map .event) := by
        simpa using (enters.trans adds).trans leaves
      refine .clean allAdds ?_
      intro opened
      rw [stillOpen_append, hopen, balanced]
      exact scope.leavesOpen_closing opened
  | @broken _ _ resumed aborted events closings d later scopes
      resumedAdds abortedAdds opens closes describes =>
      obtain ⟨resumedContext, leavesResumed⟩ := leaves resumed
      obtain ⟨abortedContext, leavesAborted⟩ := leaves aborted
      let leaveEvent : Event := { callback := scope.closing, context := abortedContext }
      have allResumed
          : s.Adds (leave resumed)
              ((enter :: events).map .event
                ++ .report d :: (later
                  ++ [.event { callback := scope.closing, context := resumedContext }])) := by
        simpa using (enters.trans resumedAdds).trans leavesResumed
      have allAborted
          : s.Adds (leave aborted)
              ((enter :: events).map .event ++ (closings ++ [leaveEvent]).map .event) := by
        simpa using (enters.trans abortedAdds).trans leavesAborted
      have allOpens (opened : List Scope)
          : stillOpen opened (enter :: events) = (scopes ++ [scope]) ++ opened := by
        rw [hopen, opens, List.append_assoc]
        rfl
      refine .broken allResumed allAborted allOpens ?_ describes
      rw [List.map_append, closes, List.map_append]
      rfl

end WalkState

/-- A plan carried out in both ways agrees if its visits do, by induction on the plan. Only where
the walk can go on after an error do the two ways differ.
-/
theorem Plan.run_agrees {goResumed goAborted : Visit → WalkState → Outcome × WalkState}
    (hgo : ∀ (v : Visit) (s : WalkState), s.Agrees (goResumed v s) (goAborted v s))
    {outer : Production × Node} {plan : Plan} {inside : Bool} (keeps : plan.Keeps outer inside)
    (s : WalkState)
    : s.Agrees (plan.run true goResumed s) (plan.run false goAborted s) := by
  induction plan generalizing inside s with
  | done | fail | setGrammar | setMode | nextAlternative => exact .silent _ rfl
  | visit v => exact hgo v s
  | announce callback => exact .announce keeps.2
  | announceOption id value => exact .announce (s.optionCallback_isBracket id value)
  | announceCommand id arg => exact .announce (s.commandCallback_isBracket id arg)
  | seq first next ihFirst ihNext =>
      have hf := ihFirst keeps.1 s
      rw [run, run]
      generalize first.run true goResumed s = resumed at hf ⊢
      generalize first.run false goAborted s = aborted at hf ⊢
      cases hf with
      | @clean outcome after events adds balanced =>
          cases outcome with
          | ok => exact (ihNext keeps.2 after).after adds balanced
          | error e => exact .clean adds balanced
      | @broken outcome e resumed aborted events closings d later scopes
          resumedAdds abortedAdds opens closes describes =>
          cases outcome with
          | error _ => exact .broken resumedAdds abortedAdds opens closes describes
          | ok =>
              obtain ⟨entries, more⟩ := (ihNext keeps.2 resumed).adds
              have allAdds := resumedAdds.trans more
              rw [List.append_assoc, List.cons_append] at allAdds
              exact .broken allAdds abortedAdds opens closes describes
  | attempt plan ih =>
      have hp := ih keeps s
      rw [run, run]
      generalize plan.run true goResumed s = resumed at hp ⊢
      generalize plan.run false goAborted s = aborted at hp ⊢
      cases hp with
      | @clean outcome after events adds balanced =>
          cases outcome with
          | ok => exact .clean adds balanced
          | error e =>
              -- Here the two part: one reports the error and goes on, the other goes up with it.
              have abortedAdds : s.Adds after (events.map .event ++ [].map .event) := by
                simpa using adds
              have opens (opened : List Scope) : stillOpen opened events = [] ++ opened :=
                balanced opened
              exact .broken (adds.trans (after.adds_report e)) abortedAdds opens rfl
                e.describes_diagnostic
      | @broken outcome e resumed aborted events closings d later scopes
          resumedAdds abortedAdds opens closes describes =>
          cases outcome with
          | ok => exact .broken resumedAdds abortedAdds opens closes describes
          | error other =>
              have reported := resumedAdds.trans (resumed.adds_report other)
              rw [List.append_assoc, List.cons_append] at reported
              exact .broken reported abortedAdds opens closes describes
  | inRule name node body ih =>
      exact (ih keeps (s.setRule (.opening name node))).congr s rfl
        (·.setRule s.context.rule) (fun _ => rfl)
  | inSuffix body ih =>
      exact (ih keeps.2 (s.setEbnfDepth (s.context.ebnfDepth + 1))).congr s rfl
        (fun after => after.setEbnfDepth (after.context.ebnfDepth - 1)) (fun _ => rfl)
  | inAlternative alt body ih =>
      have hb := ih keeps.2 (s.announce (.enterAlternative alt))
      exact hb.scoped (.alternative alt) (·.announce (.exitAlternative alt))
        ⟨_, s.adds_announce _⟩ (fun after => ⟨_, after.adds_announce _⟩)

/-- The settings with or without going on after errors. -/
def WalkerConfig.resuming (c : WalkerConfig) (resumes : Bool) : WalkerConfig :=
  { c with resumesOnMismatch := resumes }

/-- A visit carried out in both ways agrees, whatever room it has, by induction on the room. -/
theorem Visit.run_agrees (config : WalkerConfig) (room : Nat) (v : Visit) (s : WalkState)
    : s.Agrees (v.run (config.resuming true) room s) (v.run (config.resuming false) room s) := by
  induction room generalizing v s with
  | zero => exact .silent _ rfl
  | succ room ih =>
      have hp := Plan.run_agrees ih v.plan_keeps (s.enter v)
      have hscoped : s.Agrees _ _ :=
        hp.scoped (.production v.production v.node) (·.exit v) ⟨_, s.adds_enter v⟩
          (fun after => ⟨_, after.adds_exit v⟩)
      exact hscoped.locate v.node.span

-----------------------------------------------------------------------------------------
-- Walks of walkers
-----------------------------------------------------------------------------------------

namespace WalkState

/-- The end of an outermost visit, which reports the error that it ends with. -/
def conclude (s : WalkState) : Outcome → WalkState
  | .ok () => s
  | .error e => s.report e

/-- Two walks from one state, of which the first goes on after errors. If it reports nothing, then
both succeed and log the same events. Otherwise the second fails. Its log is that of the first one
before the first report, and then it closes what is still open there, from the innermost. It reports
one diagnostic, of the error that the first one reports first.
-/
inductive AgreesUntilReport (s : WalkState) : Outcome × WalkState → Outcome × WalkState → Prop
  | silent {resumed aborted : WalkState} {events : List Event}
    (resumedAdds : s.Adds resumed (events.map .event))
    (abortedAdds : s.Adds aborted (events.map .event))
    : s.AgreesUntilReport (.ok (), resumed) (.ok (), aborted)
  | reported {outcome : Outcome} {e : WalkError} {resumed aborted : WalkState}
    {events closings : List Event} {d : Diagnostic} {later : List Entry}
    (resumedAdds : s.Adds resumed (events.map .event ++ .report d :: later))
    (abortedAdds
      : s.Adds aborted (events.map .event ++ closings.map .event ++ [.report e.diagnostic]))
    (closes : closings.map (·.callback) = (stillOpen [] events).map Scope.closing)
    (describes : e.Describes d)
    : s.AgreesUntilReport (outcome, resumed) (.error e, aborted)

/-- Only the journal of the state before matters. -/
theorem AgreesUntilReport.congr {s t : WalkState} {resumed aborted : Outcome × WalkState}
    (h : s.AgreesUntilReport resumed aborted) (hs : t.journal = s.journal)
    : t.AgreesUntilReport resumed aborted := by
  have hadds {after : WalkState} {entries : List Entry} (adds : s.Adds after entries)
      : t.Adds after entries := by
    rw [Adds, hs]
    exact adds
  cases h with
  | silent resumedAdds abortedAdds => exact .silent (hadds resumedAdds) (hadds abortedAdds)
  | reported resumedAdds abortedAdds closes describes =>
      exact .reported (hadds resumedAdds) (hadds abortedAdds) closes describes

/-- Visits that agree also agree with their reports at the end. An error that nothing was reported
before is the first report of both.
-/
theorem Agrees.conclude {s : WalkState} {resumed aborted : Outcome × WalkState}
    (h : s.Agrees resumed aborted)
    : s.AgreesUntilReport (resumed.1, resumed.2.conclude resumed.1)
        (aborted.1, aborted.2.conclude aborted.1) := by
  cases h with
  | @clean outcome after events adds balanced =>
      cases outcome with
      | ok => exact .silent adds adds
      | error e =>
          have reported := adds.trans (after.adds_report e)
          have abortedAdds
              : s.Adds (after.report e)
                  (events.map .event ++ [].map .event ++ [.report e.diagnostic]) := by
            simpa using reported
          have closes
              : ([] : List Event).map (·.callback) = (stillOpen [] events).map Scope.closing := by
            rw [balanced]
            rfl
          exact .reported reported abortedAdds closes e.describes_diagnostic
  | @broken outcome e resumed aborted events closings d later scopes
      resumedAdds abortedAdds opens closes describes =>
      have reported := abortedAdds.trans (aborted.adds_report e)
      have closesOpen : closings.map (·.callback) = (stillOpen [] events).map Scope.closing := by
        rw [opens, List.append_nil]
        exact closes
      cases outcome with
      | ok => exact .reported resumedAdds reported closesOpen describes
      | error other =>
          have resumedReported := resumedAdds.trans (resumed.adds_report other)
          rw [List.append_assoc, List.cons_append] at resumedReported
          exact .reported resumedReported reported closesOpen describes

end WalkState

namespace Walker

/-- The walker with or without going on after errors. -/
def resuming (w : Walker) (resumes : Bool) : Walker :=
  { w with config := w.config.resuming resumes }

/-- A visit by name, and the walker that it starts from. -/
structure NamedVisit where
  walker : Walker
  node : Node
  name : String

/-- The visit that serves a call. That of a whole grammar starts with nothing open. -/
def Call.named (w : Walker) : Call → NamedVisit
  | .visit node name => { walker := w, node, name }
  | .visitGrammar root =>
      let state := { w.state with context := .initial w.config.defaultMode, stack := [] }
      { walker := { w with state }, node := root, name := w.config.startProduction }

theorem conclude_of_outermost {w : Walker} (outermost : w.visits = 0) (outcome : Outcome)
    : w.conclude outcome = (outcome, { w with state := w.state.conclude outcome }) := by
  cases outcome with
  | ok => rfl
  | error e => rw [conclude, if_pos outermost, WalkState.conclude]

/-- An outermost visit of a production carries it out and then reports its error. -/
theorem visit_of_outermost {w : Walker} {name : String} {p : Production}
    (outermost : w.visits = 0) (entry : w.registry.get? name = some (.production p)) (node : Node)
    : let result := (Visit.of p node).start w.config w.state
      w.visit 1 node name
      = some (result.1, { w with state := result.2.conclude result.1 }) := by
  intro result
  have idle : { w with state := result.2 }.visits = 0 := outermost
  rw [visit_of_production entry 0 node, conclude_of_outermost idle]

/-- Outermost visits of a production by two walkers that differ in going on after errors. -/
theorem visit_agrees {w : Walker} {name : String} {p : Production}
    (outermost : w.visits = 0) (entry : w.registry.get? name = some (.production p)) (node : Node)
    : ∃ resumed aborted,
        (w.resuming true).visit 1 node name = some resumed
        ∧ (w.resuming false).visit 1 node name = some aborted
        ∧ w.state.AgreesUntilReport (resumed.1, resumed.2.state) (aborted.1, aborted.2.state) := by
  have agrees := Visit.run_agrees w.config (w.config.maxDepth - w.state.stack.length) (.of p node)
    w.state
  have hresumed := visit_of_outermost (w := w.resuming true) outermost entry node
  have haborted := visit_of_outermost (w := w.resuming false) outermost entry node
  exact ⟨_, _, hresumed, haborted, agrees.conclude⟩

/-- A walk that goes on after errors and one that stops at the first, started with the same
production by walkers that differ in nothing else, agree up to the first report.
-/
theorem abort_agrees_until_report {w : Walker} (outermost : w.visits = 0) (call : Call)
    {p : Production} (entry : w.registry.get? (call.named w).name = some (.production p))
    : ∃ resumed aborted,
        (w.resuming true).serve call = some resumed
        ∧ (w.resuming false).serve call = some aborted
        ∧ w.state.AgreesUntilReport (resumed.1, resumed.2.state) (aborted.1, aborted.2.state) := by
  cases call with
  | visit node name => exact visit_agrees outermost entry node
  | visitGrammar root =>
      obtain ⟨resumed, aborted, hresumed, haborted, agrees⟩ :=
        visit_agrees (w := ((Call.visitGrammar root).named w).walker) outermost entry root
      exact ⟨resumed, aborted, hresumed, haborted, agrees.congr rfl⟩

/-- A grammar with a rule that has no name, and one that is a rule. -/
def namelessRuleGrammar : Node :=
  .grammar .combined [
    .leaf .id "G",
    .withChildren .rules [
      .new .rule,
      .rule [.leaf .ruleRef "r", .withChildren .block [.withChildren .alt [.leaf .tokenRef "T"]]]
    ]
  ]

/-- A walk of a grammar with a nameless rule reports it and goes on, or stops at it. -/
theorem abort_agrees_at_namelessRule
    : (create {}).visits = 0
      ∧ (create {}).registry.get? ((Call.visitGrammar namelessRuleGrammar).named (create {})).name
        = some (.production .grammarSpec)
      ∧ ∃ resumed aborted,
          ((create {}).resuming true).serve (.visitGrammar namelessRuleGrammar) = some resumed
          ∧ ((create {}).resuming false).serve (.visitGrammar namelessRuleGrammar) = some aborted
          ∧ (create {}).state.AgreesUntilReport (resumed.1, resumed.2.state)
              (aborted.1, aborted.2.state) :=
  ⟨rfl, rfl, abort_agrees_until_report rfl (.visitGrammar namelessRuleGrammar) rfl⟩

end Walker

end GrammarFrontend
