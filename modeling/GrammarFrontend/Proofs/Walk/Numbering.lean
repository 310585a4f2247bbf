import GrammarFrontend.Proofs.Walk.Staying

/-! Outer alternatives and their numbers. The block of a rule moves on by one before it walks each
of its children, whatever became of the one before, and nothing inside of an outer alternative moves
on. So the numbers are those of the positions in the block.
-/

namespace GrammarFrontend

-----------------------------------------------------------------------------------------
-- One outer alternative
-----------------------------------------------------------------------------------------

namespace Callback

/-- The outer alternative that a callback discovers. -/
def discoveredAlternative? : Callback → Option Node
  | discoverOuterAlt alt => some alt
  | _ => none

/-- The block of the rule that a callback discovers. -/
def discoveredBlock? : Callback → Option Node
  | discoverRule header => some header.block
  | discoverLexerRule _ _ _ block => some block
  | _ => none

theorem discoveredAlternative?_eq_none {callback : Callback} (plain : callback.isOutline = false)
    : callback.discoveredAlternative? = none := by
  cases callback <;> first | rfl | cases plain

theorem discoveredBlock?_eq_none {callback : Callback} (plain : callback.isOutline = false)
    : callback.discoveredBlock? = none := by
  cases callback <;> first | rfl | cases plain

end Callback

/-- The outer alternatives that events discover, in their order. -/
def discoveredAlternatives (events : List Event) : List Node :=
  events.filterMap (·.callback.discoveredAlternative?)

theorem discoveredAlternatives_append (first second : List Event)
    : discoveredAlternatives (first ++ second)
      = discoveredAlternatives first ++ discoveredAlternatives second :=
  List.filterMap_append

theorem discoveredAlternatives_eq_nil {events : List Event}
    (plain : ∀ e ∈ events, e.callback.isOutline = false)
    : discoveredAlternatives events = [] :=
  List.filterMap_eq_nil_iff.mpr (fun e he => Callback.discoveredAlternative?_eq_none (plain e he))

/-- The walk of one outer alternative: which one, what was announced, and how it ended. -/
structure AlternativeLog where
  alt : Node
  number : Nat
  events : List Event
  outcome : Outcome

/-- The log is one of a walk of its node, from the entry of the production to its exit. It discovers
that node and no other, all of its events see the node and the number, and every command is given
the number.
-/
structure AlternativeLog.OfWalk (config : WalkerConfig) (room : Nat) (p : Production)
    (log : AlternativeLog)
    : Prop where
  walked
    : ∃ s after,
        (Visit.of p log.alt).run config room s = (log.outcome, after)
        ∧ after.events = s.events ++ log.events
  entered : log.events.head?.map (·.callback) = some (.enter p log.alt)
  left : log.events.getLast?.map (·.callback) = some (.exit p log.alt)
  discovers : discoveredAlternatives log.events = [log.alt]
  sees
    : ∀ e ∈ log.events,
        e.context.rule.number = log.number ∧ e.context.rule.alternative = some log.alt
  command
    : ∀ e ∈ log.events, ∀ number,
        e.callback.commandNumber? = some number → number = log.number

/-- An outer alternative is discovered, walked inside, and finished if that succeeded. -/
theorem Visit.plan_of_outerAlternative {p : Production} (isOuter : p.isOuterAlternative = true)
    (alt : Node)
    : ∃ inner : Production,
        inner.isInner = true
        ∧ (Visit.of p alt).plan
          = Plan.steps [
              .announce (.discoverOuterAlt alt),
              Plan.visitAs inner alt,
              .announce (.finishOuterAlt alt)
            ] := by
  cases p with
  | lexerOuterAlternative => exact ⟨.lexerAlternative, rfl, rfl⟩
  | outerAlternative => exact ⟨.alternative, rfl, rfl⟩
  | _ => cases isOuter

/-- A plan between two announcements, of which the second is made if the plan succeeds. -/
theorem Plan.run_between (resumes : Bool) (go : Visit → WalkState → Outcome × WalkState)
    (plan : Plan) (first last : Callback) (s : WalkState)
    : (steps [.announce first, plan, .announce last]).run resumes go s
      = match plan.run resumes go (s.announce first) with
        | (.ok (), after) => (.ok (), after.announce last)
        | failed => failed := rfl

/-- The walk of an outer alternative from where the rule has moved on to it. Its events see the same
alternative from the first to the last, because what is inside of it stays there.
-/
theorem Visit.run_outerAlternative (config : WalkerConfig) (room : Nat) {p : Production}
    (isOuter : p.isOuterAlternative = true) {alt : Node} {s : WalkState}
    (present : s.context.rule.alternative = some alt)
    : ∃ log : AlternativeLog,
        log.alt = alt
        ∧ log.number = s.context.rule.number
        ∧ log.OfWalk config (room + 1) p
        ∧ log.outcome = ((Visit.of p alt).run config (room + 1) s).1
        ∧ s.Logs ((Visit.of p alt).run config (room + 1) s).2 log.events := by
  obtain ⟨inner, isInner, plan⟩ := plan_of_outerAlternative isOuter alt
  let entered := s.enter (.of p alt)
  let discovered := entered.announce (.discoverOuterAlt alt)
  let body := (Visit.of p alt).plan.run config.resumesOnMismatch (run config room) entered
  obtain ⟨inside, logsInside, plain⟩ :=
    run_stays config room (v := .of inner alt) isInner discovered
  obtain ⟨finish, logsFinish, noneDiscovered⟩
      : ∃ finish,
          ((Visit.of inner alt).run config room discovered).2.Logs body.2 finish
          ∧ discoveredAlternatives finish = [] := by
    have hbody
        : body
          = match (Visit.of inner alt).run config room discovered with
            | (.ok (), after) => (.ok (), after.announce (.finishOuterAlt alt))
            | failed => failed := by
      simp only [body, plan]
      exact Plan.run_between _ _ (Plan.visitAs inner alt) _ _ entered
    rw [hbody]
    generalize (Visit.of inner alt).run config room discovered = result
    obtain ⟨outcome, after⟩ := result
    cases outcome with
    | ok => exact ⟨_, after.logs_announce (fun _ h => by cases h), rfl⟩
    | error e => exact ⟨[], WalkState.logs_silent rfl rfl, rfl⟩
  have logsDiscovered : entered.Logs discovered _ :=
    entered.logs_announce (fun _ h => by cases h)
  let events : List Event :=
    ⟨.enter p alt, entered.context⟩ :: ⟨.discoverOuterAlt alt, entered.context⟩ :: inside
      ++ finish ++ [⟨.exit p alt, body.2.context⟩]
  have logs : s.Logs ((Visit.of p alt).run config (room + 1) s).2 events :=
    ((((s.logs_enter (.of p alt)).trans logsDiscovered).trans logsInside).trans logsFinish).trans
      (body.2.logs_exit (.of p alt))
  let log : AlternativeLog := {
    alt
    number := s.context.rule.number
    events
    outcome := ((Visit.of p alt).run config (room + 1) s).1
  }
  refine ⟨log, rfl, rfl, ?_, rfl, logs⟩
  exact {
    walked := ⟨s, _, rfl, logs.added⟩
    entered := rfl
    left := by
      simp only [log, events, List.getLast?_concat]
      rfl
    discovers := by
      simp only [log, events, discoveredAlternatives_append, noneDiscovered]
      show _ :: discoveredAlternatives inside ++ [] ++ [] = _
      rw [discoveredAlternatives_eq_nil plain]
      rfl
    sees := by
      intro e he
      rw [(logs.sees e he).context]
      exact ⟨rfl, present⟩
    command := fun e he => (logs.sees e he).command
  }

-----------------------------------------------------------------------------------------
-- The block of a rule
-----------------------------------------------------------------------------------------

/-- Walks of outer alternatives one after another, numbered on from a number. A walk that goes on
after errors comes to all of them, and one that does not goes on after those that succeed: what is
left is behind the first that failed.
-/
structure NumberedOn (config : WalkerConfig) (room : Nat) (p : Production) (number : Nat)
    (alts left : List Node) (logs : List AlternativeLog)
    : Prop where
  walked : ∀ log ∈ logs, log.OfWalk config room p
  nodes : logs.map (·.alt) ++ left = alts
  numbers : logs.map (·.number) = List.range' (number + 1) logs.length
  resumed : config.resumesOnMismatch = true → left = []
  succeeded : config.resumesOnMismatch = false → ∀ log ∈ logs.dropLast, log.outcome = .ok ()
  stopped : left ≠ [] → ∃ log ∈ logs.getLast?, log.outcome ≠ .ok ()

namespace NumberedOn

variable {config : WalkerConfig} {room : Nat} {p : Production} {number : Nat}

theorem nil : NumberedOn config room p number [] [] [] where
  walked := by simp
  nodes := rfl
  numbers := rfl
  resumed := fun _ => rfl
  succeeded := by simp
  stopped := fun h => absurd rfl h

/-- The walk goes on after an alternative. -/
theorem cons {alts left : List Node} {logs : List AlternativeLog} {log : AlternativeLog}
    (walked : log.OfWalk config room p) (present : log.number = number + 1)
    (succeeded : config.resumesOnMismatch = false → log.outcome = .ok ())
    (more : NumberedOn config room p (number + 1) alts left logs)
    : NumberedOn config room p number (log.alt :: alts) left (log :: logs) where
  walked := List.forall_mem_cons.mpr ⟨walked, more.walked⟩
  nodes := by rw [List.map_cons, List.cons_append, more.nodes]
  numbers := by
    rw [List.map_cons, more.numbers, present, List.length_cons, List.range'_succ]
  resumed := more.resumed
  succeeded := by
    intro aborts earlier hmem
    cases logs with
    | nil => simp at hmem
    | cons next logs =>
        rw [List.dropLast_cons_cons] at hmem
        rcases List.mem_cons.mp hmem with rfl | hmem
        · exact succeeded aborts
        · exact more.succeeded aborts earlier hmem
  stopped := by
    intro hleft
    obtain ⟨last, hlast, failed⟩ := more.stopped hleft
    refine ⟨last, ?_, failed⟩
    rw [Option.mem_def] at hlast ⊢
    rw [List.getLast?_cons, hlast]
    rfl

/-- The walk stops at an alternative. -/
theorem stop {log : AlternativeLog} (walked : log.OfWalk config room p)
    (present : log.number = number + 1) (aborts : config.resumesOnMismatch = false)
    (failed : log.outcome ≠ .ok ()) (alts : List Node)
    : NumberedOn config room p number (log.alt :: alts) alts [log] where
  walked := List.forall_mem_singleton.mpr walked
  nodes := rfl
  numbers := congrArg (fun n => [n]) present
  resumed := by
    intro resumes
    rw [aborts] at resumes
    cases resumes
  succeeded := by simp
  stopped := fun _ => ⟨log, rfl, failed⟩

/-- What is discovered are the alternatives that are walked, each of them once. -/
theorem discovered {alts left : List Node} {logs : List AlternativeLog}
    (numbered : NumberedOn config room p number alts left logs)
    : discoveredAlternatives (logs.flatMap (·.events)) = logs.map (·.alt) := by
  have hwalked := numbered.walked
  clear numbered
  induction logs with
  | nil => rfl
  | cons log logs ih =>
      obtain ⟨hlog, hlogs⟩ := List.forall_mem_cons.mp hwalked
      rw [List.flatMap_cons, discoveredAlternatives_append, hlog.discovers, ih hlogs]
      rfl

end NumberedOn

namespace Plan

/-- The attempt of an outer alternative moves the rule on to it and walks it. It ends with an error
only if the alternative does and the walk does not go on after errors.
-/
theorem run_attempt_outerAlternative (config : WalkerConfig) (room : Nat) {p : Production}
    (isOuter : p.isOuterAlternative = true) (alt : Node) (s : WalkState)
    : let result :=
        (attempt (steps [nextAlternative alt, visitAs p alt])).run config.resumesOnMismatch
          (Visit.run config (room + 1)) s
      ∃ log : AlternativeLog,
        log.alt = alt
        ∧ log.number = s.context.rule.number + 1
        ∧ log.OfWalk config (room + 1) p
        ∧ result.2.events = s.events ++ log.events
        ∧ result.2.context.rule.number = s.context.rule.number + 1
        ∧ (result.1 = .ok () ∧ (config.resumesOnMismatch = false → log.outcome = .ok ())
          ∨ (∃ e, result.1 = .error e)
            ∧ config.resumesOnMismatch = false
            ∧ log.outcome ≠ .ok ()) := by
  intro result
  let moved := s.setRule (s.context.rule.moveTo alt)
  obtain ⟨log, hAlt, hNumber, ofWalk, hOutcome, logs⟩ :=
    Visit.run_outerAlternative config room isOuter (s := moved) rfl
  have hevents : moved.events = s.events := rfl
  have hrun
      : (steps [nextAlternative alt, visitAs p alt]).run config.resumesOnMismatch
          (Visit.run config (room + 1)) s
        = (Visit.of p alt).run config (room + 1) moved := by
    simp only [steps, run, visitAs]
    split
    · rename_i after h
      exact h.symm
    · rfl
  simp only [result, run, hrun]
  have added := logs.added
  have hrule := logs.rule
  generalize (Visit.of p alt).run config (room + 1) moved = walked at hOutcome added hrule ⊢
  obtain ⟨outcome, after⟩ := walked
  refine ⟨log, hAlt, hNumber, ofWalk, ?_⟩
  cases outcome with
  | ok => exact ⟨added, congrArg RuleScope.number hrule, .inl ⟨rfl, fun _ => hOutcome⟩⟩
  | error e =>
      cases hresumes : config.resumesOnMismatch with
      | true =>
          exact ⟨(after.report_events e).trans added, congrArg RuleScope.number hrule,
            .inl ⟨rfl, fun h => by cases h⟩⟩
      | false =>
          refine ⟨added, congrArg RuleScope.number hrule, .inr ⟨⟨e, rfl⟩, rfl, ?_⟩⟩
          rw [hOutcome]
          intro hok
          cases hok

/-- Outer alternatives are numbered on from the number that the rule has, by induction on them. -/
theorem run_each_outerAlternative (config : WalkerConfig) (room : Nat) {p : Production}
    (isOuter : p.isOuterAlternative = true) (alts : List Node) (s : WalkState)
    : ∃ left logs,
        NumberedOn config (room + 1) p s.context.rule.number alts left logs
        ∧ ((each (alts.map (fun alt => steps [nextAlternative alt, visitAs p alt]))).run
            config.resumesOnMismatch (Visit.run config (room + 1)) s).2.events
          = s.events ++ logs.flatMap (·.events) := by
  induction alts generalizing s with
  | nil => exact ⟨[], [], .nil, (List.append_nil _).symm⟩
  | cons alt alts ih =>
      obtain ⟨log, rfl, hNumber, ofWalk, added, moved, ends⟩ :=
        run_attempt_outerAlternative config room isOuter alt s
      rw [List.map_cons, each, List.map_cons, steps, run]
      generalize (attempt (steps [nextAlternative log.alt, visitAs p log.alt])).run
        config.resumesOnMismatch (Visit.run config (room + 1)) s = result at added moved ends ⊢
      obtain ⟨outcome, after⟩ := result
      rcases ends with ⟨rfl, succeeded⟩ | ⟨⟨e, rfl⟩, aborts, failed⟩
      · obtain ⟨left, logs, numbered, addedAfter⟩ := ih after
        rw [moved] at numbered
        refine ⟨left, log :: logs, .cons ofWalk hNumber succeeded numbered, ?_⟩
        rw [List.flatMap_cons, ← List.append_assoc, ← added]
        exact addedAfter
      · refine ⟨alts, [log], .stop ofWalk hNumber aborts failed alts, ?_⟩
        rw [List.flatMap_singleton]
        exact added

end Plan

namespace Production

/-- The production of the block of a rule. -/
def blockOfRule : Production → Production
  | lexerRule => lexerRuleBlock
  | _ => ruleBlock

/-- The production of the outer alternatives of a rule. -/
def alternativeOfRule : Production → Production
  | lexerRule => lexerOuterAlternative
  | _ => outerAlternative

theorem alternativeOfRule_isOuterAlternative (p : Production)
    : p.alternativeOfRule.isOuterAlternative = true := by
  cases p <;> rfl

end Production

/-- A block attempts its children one after another; without one it fails. -/
theorem Plan.run_outerAlternatives (config : WalkerConfig) (room : Nat) (p : Production)
    {outer : Production} (isOuter : outer.isOuterAlternative = true) {block : Node}
    (isBlock : block.kind = .block) (s : WalkState)
    : ∃ left logs,
        NumberedOn config (room + 1) outer s.context.rule.number block.children left logs
        ∧ ((outerAlternatives p outer block).run config.resumesOnMismatch
            (Visit.run config (room + 1)) s).2.events
          = s.events ++ logs.flatMap (·.events) := by
  rw [outerAlternatives, Shape.requireKind_eq_ok (u := ()).mpr (List.mem_singleton.mpr isBlock)]
  cases hchildren : block.children with
  | nil => exact ⟨[], [], .nil, (List.append_nil _).symm⟩
  | cons alt alts => exact run_each_outerAlternative config room isOuter (alt :: alts) s

/-- The walk of the block of a rule: its outer alternatives between its entry and its exit. -/
theorem Visit.run_blockOfRule (config : WalkerConfig) (room : Nat) (p : Production) {block : Node}
    (isBlock : block.kind = .block) (s : WalkState)
    : ∃ left logs context,
        NumberedOn config (room + 1) p.alternativeOfRule s.context.rule.number block.children left
          logs
        ∧ ((Visit.of p.blockOfRule block).run config (room + 2) s).2.events
          = s.events
            ++ (⟨.enter p.blockOfRule block, (s.enter (.of p.blockOfRule block)).context⟩
              :: logs.flatMap (·.events) ++ [⟨.exit p.blockOfRule block, context⟩]) := by
  have plan
      : (Visit.of p.blockOfRule block).plan
        = Plan.outerAlternatives p.blockOfRule p.alternativeOfRule block := by
    cases p <;> rfl
  let entered := s.enter (.of p.blockOfRule block)
  obtain ⟨left, logs, numbered, added⟩ :=
    Plan.run_outerAlternatives config room p.blockOfRule p.alternativeOfRule_isOuterAlternative
      isBlock entered
  rw [← plan] at added
  let after :=
    ((Visit.of p.blockOfRule block).plan.run config.resumesOnMismatch (run config (room + 1))
      entered).2
  refine ⟨left, logs, after.context, numbered, ?_⟩
  have enters
      : entered.events = s.events ++ [⟨.enter p.blockOfRule block, entered.context⟩] :=
    (s.logs_enter (.of p.blockOfRule block)).added
  have inside : after.events = entered.events ++ logs.flatMap (·.events) := added
  have leaves
      : ((Visit.of p.blockOfRule block).run config (room + 2) s).2.events
        = after.events ++ [⟨.exit p.blockOfRule block, after.context⟩] :=
    (after.logs_exit (.of p.blockOfRule block)).added
  rw [leaves, inside, enters]
  simp only [List.append_assoc, List.cons_append, List.nil_append]
  rfl

end GrammarFrontend
