import GrammarFrontend.Proofs.Walk.Entries
import GrammarFrontend.Proofs.Walk.Numbering

/-! Walks of rules that discover the rule. What comes before the block sees no outer alternative,
the block numbers those that it has, and what comes after it discovers no more.
-/

namespace GrammarFrontend

-----------------------------------------------------------------------------------------
-- The plans of rules
-----------------------------------------------------------------------------------------

/-- What a reading expects is one of the nodes. -/
theorem Shape.mem_of_expect {p : Production} {kinds : List NodeKind} {nodes rest : List Node}
    {n : Node} (h : expect p kinds nodes = .ok (n, rest))
    : n ∈ nodes := by
  rw [(expect_eq_ok.mp h).1]
  exact List.mem_cons_self

/-- What is done in the scope of a rule: it fails, or it discovers the rule, walks the block and
does the rest, which outlines nothing. Parts of the header may come first.
-/
inductive Plan.IsRuleBody (v : Visit) : Plan → Prop
  | fail (e : WalkError) : IsRuleBody v (.fail e)
  | outlined {callback : Callback} {block : Node} {tail : Plan}
    (discovers : callback.discoveredBlock? = some block) (isBlock : block.kind = .block)
    (isChild : block ∈ v.node.children) (confined : ∀ p, tail.Confined p)
    : IsRuleBody v
        (.seq (.announce callback)
          (.seq (visitAs v.production.blockOfRule block) tail))
  | after {first next : Plan} (confined : ∀ p, first.Confined p) (body : next.IsRuleBody v)
    : IsRuleBody v (.seq first next)
  | last {body : Plan} (isBody : body.IsRuleBody v) : IsRuleBody v (.seq body .done)

/-- The plan of a rule fails, or it opens the scope of the rule and does what is in it. -/
inductive Plan.OpensRule (v : Visit) : Plan → Prop
  | fail (e : WalkError) : OpensRule v (.fail e)
  | opens {name : String} {body : Plan} (isBody : body.IsRuleBody v)
    : OpensRule v (.inRule name v.node body)

namespace Plan

theorem lexerRule_opensRule (v : Visit) (isLexer : v.production = .lexerRule)
    : (lexerRule v.node).OpensRule v := by
  refine ofReading_bind_elim (motive := OpensRule v) .fail (fun _ _ => ?_)
  refine ofReading_bind_elim (motive := OpensRule v) .fail ?_
  intro read hread
  obtain ⟨id, rest⟩ := read
  obtain ⟨children, -⟩ := Shape.expect_eq_ok.mp hread
  refine .opens (.after ?_ (.last ?_))
  · intro p
    simp [Production.admits]
  · refine ofReading_bind_elim (motive := IsRuleBody v) .fail ?_
    intro read hread
    obtain ⟨block, rest'⟩ := read
    obtain ⟨-, isBlock⟩ := Shape.expect_eq_ok.mp hread
    refine ofReading_bind_elim (motive := IsRuleBody v) .fail (fun _ _ => ?_)
    show IsRuleBody v (.seq _ (.seq (visitAs .lexerRuleBlock block) _))
    have hp : Production.lexerRuleBlock = v.production.blockOfRule := by rw [isLexer]; rfl
    rw [hp]
    refine .outlined rfl (List.mem_singleton.mp isBlock) ?_ ?_
    · have suffix :=
        (Shape.takeIf_suffix .ruleModifiers _).trans (Shape.takeIf_suffix .docComment rest)
      rw [children]
      exact List.mem_cons_of_mem id (suffix.mem (Shape.mem_of_expect hread))
    · intro p
      simp [Callback.isBracket, Callback.isNaming, Callback.commandNumber?, Callback.isOutline]

theorem parserRule_opensRule (v : Visit) (isParser : v.production = .parserRule)
    : (parserRule v.node).OpensRule v := by
  refine ofReading_bind_elim (motive := OpensRule v) .fail (fun _ _ => ?_)
  refine ofReading_bind_elim (motive := OpensRule v) .fail ?_
  intro read hread
  obtain ⟨id, rest⟩ := read
  obtain ⟨children, -⟩ := Shape.expect_eq_ok.mp hread
  have hpart (part : Node) (p : Production) : (ruleHeaderPart part).Confined p := by
    unfold ruleHeaderPart
    split <;> simp [Production.admits]
  refine .opens (.after ?_ (.after ?_ (.after ?_ (.after ?_ (.after ?_ (.last ?_))))))
  iterate 4
    intro p
    simp [Production.admits]
  · intro p
    simp [hpart]
  · refine ofReading_bind_elim (motive := IsRuleBody v) .fail ?_
    intro read hread
    obtain ⟨block, handlers⟩ := read
    obtain ⟨-, isBlock⟩ := Shape.expect_eq_ok.mp hread
    show IsRuleBody v (.seq _ (.seq (visitAs .ruleBlock block) _))
    have hp : Production.ruleBlock = v.production.blockOfRule := by rw [isParser]; rfl
    rw [hp]
    refine .outlined rfl (List.mem_singleton.mp isBlock) ?_ ?_
    · have suffix :=
        (Shape.takeRun_suffix [.options, .namedAction] _).trans
          <| (Shape.takeIf_suffix .locals _).trans
            <| (Shape.takeIf_suffix .throws _).trans
              <| (Shape.takeIf_suffix .returns _).trans
                <| (Shape.takeIf_suffix .argAction _).trans
                  <| (Shape.takeIf_suffix .ruleModifiers _).trans
                    <| Shape.takeIf_suffix .docComment rest
      rw [children]
      exact List.mem_cons_of_mem id (suffix.mem (Shape.mem_of_expect hread))
    · intro p
      simp [Callback.isBracket, Callback.isNaming, Callback.commandNumber?, Callback.isOutline,
        Production.admits]

end Plan

-----------------------------------------------------------------------------------------
-- The parts of the walk of a rule
-----------------------------------------------------------------------------------------

/-- The walk of a rule after its entry, in the parts that its block divides it into. -/
structure RuleLog where
  block : Node
  header : List Event
  opened : Event
  alternatives : List AlternativeLog
  /-- The children of the block that the walk does not come to. -/
  left : List Node
  closed : Event
  rest : List Event

def RuleLog.events (log : RuleLog) : List Event :=
  log.header ++ log.opened :: (log.alternatives.flatMap (·.events) ++ log.closed :: log.rest)

/-- The log is one of a walk of a rule that discovers the rule. Its outer alternatives are those of
the block, numbered from one; before the block is opened there is none yet, and outside of the block
none is discovered.
-/
structure RuleLog.OfWalk (config : WalkerConfig) (room : Nat) (v : Visit) (log : RuleLog)
    : Prop where
  isChild : log.block ∈ v.node.children
  isBlock : log.block.kind = .block
  discovers : log.header.getLast?.bind (·.callback.discoveredBlock?) = some log.block
  before
    : ∀ e ∈ log.header ++ [log.opened],
        e.context.rule.number = 0 ∧ e.context.rule.alternative = none
  opened : log.opened.callback = .enter v.production.blockOfRule log.block
  closed : log.closed.callback = .exit v.production.blockOfRule log.block
  numbered
    : NumberedOn config room v.production.alternativeOfRule 0 log.block.children log.left
        log.alternatives
  headerPlain : discoveredAlternatives log.header = []
  restPlain : discoveredAlternatives log.rest = []

/-- The outer alternatives of the block are discovered, and no others. -/
theorem RuleLog.OfWalk.discovered {config : WalkerConfig} {room : Nat} {v : Visit} {log : RuleLog}
    (ofWalk : log.OfWalk config room v)
    : discoveredAlternatives log.events = log.alternatives.map (·.alt) := by
  have opened : log.opened.callback.discoveredAlternative? = none := by
    rw [ofWalk.opened]
    rfl
  have closed : log.closed.callback.discoveredAlternative? = none := by
    rw [ofWalk.closed]
    rfl
  rw [RuleLog.events, discoveredAlternatives_append, ofWalk.headerPlain, List.nil_append,
    ← List.singleton_append, discoveredAlternatives_append, discoveredAlternatives_append,
    ofWalk.numbered.discovered, ← List.singleton_append (l := log.rest),
    discoveredAlternatives_append, ofWalk.restPlain]
  simp [discoveredAlternatives, opened, closed]

/-- More events in front of the header, and more at the end. -/
def RuleLog.between (log : RuleLog) (front back : List Event) : RuleLog :=
  { log with header := front ++ log.header, rest := log.rest ++ back }

theorem RuleLog.between_events (log : RuleLog) (front back : List Event)
    : (log.between front back).events = front ++ log.events ++ back := by
  simp [between, events]

/-- A log of a walk stays one with more of the header in front of it, and more at the end. -/
theorem RuleLog.OfWalk.between {config : WalkerConfig} {room : Nat} {v : Visit} {log : RuleLog}
    (ofWalk : log.OfWalk config room v) {front back : List Event}
    (before : ∀ e ∈ front, e.context.rule.number = 0 ∧ e.context.rule.alternative = none)
    (plainFront : discoveredAlternatives front = []) (plainBack : discoveredAlternatives back = [])
    : (log.between front back).OfWalk config room v where
  isChild := ofWalk.isChild
  isBlock := ofWalk.isBlock
  discovers := by
    have discovers := ofWalk.discovers
    show Option.bind (front ++ log.header).getLast? _ = _
    rw [List.getLast?_append]
    cases h : log.header.getLast? with
    | none =>
        rw [h] at discovers
        cases discovers
    | some e =>
        rw [h] at discovers
        exact discovers
  before := by
    show ∀ e ∈ front ++ log.header ++ [log.opened], _
    rw [List.append_assoc]
    exact List.forall_mem_append.mpr ⟨before, ofWalk.before⟩
  opened := ofWalk.opened
  closed := ofWalk.closed
  numbered := ofWalk.numbered
  headerPlain := by
    show discoveredAlternatives (front ++ log.header) = []
    rw [discoveredAlternatives_append, plainFront, ofWalk.headerPlain]
    rfl
  restPlain := by
    show discoveredAlternatives (log.rest ++ back) = []
    rw [discoveredAlternatives_append, plainBack, ofWalk.restPlain]
    rfl

-----------------------------------------------------------------------------------------
-- Walks of rules
-----------------------------------------------------------------------------------------

/-- A confined plan that is not inside of anything in particular stays where it is. -/
theorem Plan.run_stays (config : WalkerConfig) (room : Nat) {plan : Plan}
    (confined : ∀ p, plan.Confined p) (s : WalkState)
    : s.Stays (plan.run config.resumesOnMismatch (Visit.run config room) s).2 :=
  (confined .ruleModifier).run_stays rfl config.resumesOnMismatch
    (fun _ s isInner => Visit.run_stays config room isInner s) s

/-- A confined plan after another one discovers no outer alternatives. -/
theorem Plan.run_seq_confined (config : WalkerConfig) (room : Nat) (first : Plan) {next : Plan}
    (confined : ∀ p, next.Confined p) (s : WalkState)
    : ∃ rest,
        discoveredAlternatives rest = []
        ∧ ((seq first next).run config.resumesOnMismatch (Visit.run config room) s).2.events
          = (first.run config.resumesOnMismatch (Visit.run config room) s).2.events ++ rest := by
  rw [run]
  split
  · rename_i after h
    obtain ⟨rest, logs, plain⟩ := run_stays config room confined after
    rw [h]
    exact ⟨rest, discoveredAlternatives_eq_nil plain, logs.added⟩
  · exact ⟨[], rfl, (List.append_nil _).symm⟩

/-- From the discovery of a rule on: the block, and what comes after it if the block succeeds. -/
theorem Plan.run_outlined (config : WalkerConfig) (room : Nat) {v : Visit} {callback : Callback}
    {block : Node} {tail : Plan} (discovers : callback.discoveredBlock? = some block)
    (isBlock : block.kind = .block) (isChild : block ∈ v.node.children)
    (confined : ∀ p, tail.Confined p) {s : WalkState} (number : s.context.rule.number = 0)
    (alternative : s.context.rule.alternative = none)
    : ∃ log : RuleLog,
        log.OfWalk config (room + 1) v
        ∧ ((Plan.seq (.announce callback) (.seq (visitAs v.production.blockOfRule block) tail)).run
            config.resumesOnMismatch (Visit.run config (room + 2)) s).2.events
          = s.events ++ log.events := by
  let discovered := s.announce callback
  have hdiscovered : discovered.events = s.events ++ [⟨callback, s.context⟩] :=
    s.announce_events callback
  have plain : callback.discoveredAlternative? = none := by
    cases callback <;> first | rfl | cases discovers
  obtain ⟨left, logs, context, numbered, hblock⟩ :=
    Visit.run_blockOfRule config room v.production isBlock discovered
  rw [show discovered.context.rule.number = 0 from number] at numbered
  obtain ⟨rest, hrest, hwhole⟩ :=
    run_seq_confined config (room + 2) (visitAs v.production.blockOfRule block) confined discovered
  let entered := discovered.enter (.of v.production.blockOfRule block)
  let log : RuleLog := {
    block
    header := [⟨callback, s.context⟩]
    opened := ⟨.enter v.production.blockOfRule block, entered.context⟩
    alternatives := logs
    left
    closed := ⟨.exit v.production.blockOfRule block, context⟩
    rest
  }
  refine ⟨log, ?_, ?_⟩
  · exact {
      isChild
      isBlock
      discovers
      before := by
        refine List.forall_mem_cons.mpr ⟨⟨number, alternative⟩, ?_⟩
        exact List.forall_mem_singleton.mpr ⟨number, alternative⟩
      opened := rfl
      closed := rfl
      numbered
      headerPlain := List.filterMap_eq_nil_iff.mpr (List.forall_mem_singleton.mpr plain)
      restPlain := hrest
    }
  · refine hwhole.trans ?_
    rw [visitAs, run, hblock, hdiscovered]
    simp only [log, RuleLog.events, List.append_assoc, List.cons_append, List.nil_append]
    rfl

/-- A plan with nothing after it. -/
theorem Plan.run_seq_done (resumes : Bool) (go : Visit → WalkState → Outcome × WalkState)
    (plan : Plan) (s : WalkState)
    : (seq plan done).run resumes go s = plan.run resumes go s := by
  rw [run]
  split
  · rename_i after h
    exact h.symm
  · rfl

/-- In the scope of a rule before its first outer alternative, the rule is discovered and its block
is walked, or nothing is outlined. The induction is on the parts of the header.
-/
theorem Plan.IsRuleBody.run_outlines (config : WalkerConfig) (room : Nat) {v : Visit} {plan : Plan}
    (isBody : plan.IsRuleBody v) {s : WalkState} (number : s.context.rule.number = 0)
    (alternative : s.context.rule.alternative = none)
    : let after := (plan.run config.resumesOnMismatch (Visit.run config (room + 2)) s).2
      s.Stays after
      ∨ ∃ log : RuleLog,
          log.OfWalk config (room + 1) v ∧ after.events = s.events ++ log.events := by
  intro after
  induction isBody generalizing s with
  | fail e => exact .inl (WalkState.stays_silent rfl rfl)
  | outlined discovers isBlock isChild confined =>
      exact .inr (run_outlined config room discovers isBlock isChild confined number alternative)
  | @after first next confined _ ih =>
      have stays := run_stays config (room + 2) confined s
      simp only [after, run]
      split
      · rename_i middle h
        rw [h] at stays
        obtain ⟨events, logs, plain⟩ := stays
        have hnumber := (congrArg RuleScope.number logs.rule).trans number
        have halternative := (congrArg RuleScope.alternative logs.rule).trans alternative
        rcases ih hnumber halternative with more | ⟨log, ofWalk, added⟩
        · exact .inl (WalkState.Stays.trans ⟨events, logs, plain⟩ more)
        · have before
              : ∀ e ∈ events, e.context.rule.number = 0 ∧ e.context.rule.alternative = none := by
            intro e he
            rw [(logs.sees e he).context]
            exact ⟨number, alternative⟩
          refine .inr ⟨log.between events [], ?_, ?_⟩
          · exact ofWalk.between before (discoveredAlternatives_eq_nil plain) rfl
          · rw [added, logs.added, log.between_events, List.append_nil, List.append_assoc]
      · exact .inl stays
  | @last body _ ih =>
      simp only [after, run_seq_done]
      exact ih number alternative

theorem Visit.plan_opensRule {v : Visit} (isRule : v.production.isRule = true)
    : v.plan.OpensRule v := by
  rcases Production.isRule_iff.mp isRule with h | h
  · rw [plan, h]
    exact Plan.lexerRule_opensRule v h
  · rw [plan, h]
    exact Plan.parserRule_opensRule v h

/-- A rule outlines nothing, or it is discovered and walked. -/
theorem Plan.OpensRule.run_outlines (config : WalkerConfig) (room : Nat) {v : Visit} {plan : Plan}
    (opensRule : plan.OpensRule v) (s : WalkState)
    : let after := (plan.run config.resumesOnMismatch (Visit.run config (room + 2)) s).2
      (∃ events,
        after.events = s.events ++ events ∧ ∀ e ∈ events, e.callback.isOutline = false)
      ∨ ∃ log : RuleLog,
          log.OfWalk config (room + 1) v ∧ after.events = s.events ++ log.events := by
  intro after
  cases opensRule with
  | fail e => exact .inl ⟨[], (List.append_nil _).symm, by simp⟩
  | @opens name body isBody =>
      let opened := s.setRule (.opening name v.node)
      rcases isBody.run_outlines config room (s := opened) rfl rfl with stays | discovered
      · obtain ⟨events, logs, plain⟩ := stays
        exact .inl ⟨events, logs.added, plain⟩
      · exact .inr discovered

/-- The outer alternatives of a rule are numbered by their position in its block. This is so for
every walk of a rule that discovers it, from any state, if the depth limit leaves room for the rule,
its block and an outer alternative. Only the entry of the rule, which is announced before the scope
of the rule is opened, sees the outer alternative of the state before.
-/
theorem Visit.outerAlternatives_numbered (config : WalkerConfig) {room : Nat} (hroom : 3 ≤ room)
    {v : Visit} (isRule : v.production.isRule = true) (s : WalkState)
    : ∃ events,
        (v.run config room s).2.events = s.events ++ events
        ∧ ((∃ e ∈ events, e.callback.discoveredBlock?.isSome = true)
          → ∃ (entered : Event) (log : RuleLog),
              events = entered :: log.events
              ∧ entered.callback = .enter v.production v.node
              ∧ entered.context.rule = s.context.rule
              ∧ log.OfWalk config (room - 2) v
              ∧ discoveredAlternatives events = log.alternatives.map (·.alt)) := by
  obtain ⟨room, rfl⟩ : ∃ more, room = more + 3 := ⟨room - 3, by omega⟩
  let after := (v.plan.run config.resumesOnMismatch (run config (room + 2)) (s.enter v)).2
  let entered : Event := ⟨.enter v.production v.node, (s.enter v).context⟩
  let exited : Event := ⟨.exit v.production v.node, after.context⟩
  have framed {inside : List Event} (added : after.events = (s.enter v).events ++ inside)
      : (v.run config (room + 3) s).2.events = s.events ++ entered :: (inside ++ [exited]) := by
    have enters : (s.enter v).events = s.events ++ [entered] := (s.logs_enter v).added
    have leaves : (v.run config (room + 3) s).2.events = after.events ++ [exited] :=
      (after.logs_exit v).added
    rw [leaves, added, enters]
    simp only [List.append_assoc, List.cons_append, List.nil_append]
  rcases (plan_opensRule isRule).run_outlines config room (s.enter v) with
    ⟨inside, added, plain⟩ | ⟨log, ofWalk, added⟩
  · refine ⟨_, framed added, ?_⟩
    intro accepted
    obtain ⟨e, he, discovers⟩ := accepted
    have hplain : e.callback.isOutline = false := by
      simp only [List.mem_cons, List.mem_append, List.not_mem_nil, or_false] at he
      rcases he with rfl | he | rfl
      · rfl
      · exact plain e he
      · rfl
    rw [Callback.discoveredBlock?_eq_none hplain] at discovers
    cases discovers
  · refine ⟨_, framed added, ?_⟩
    intro _
    have ofWalkAll : (log.between [] [exited]).OfWalk config (room + 1) v :=
      ofWalk.between (by simp) rfl rfl
    have hevents : log.events ++ [exited] = (log.between [] [exited]).events := by
      rw [log.between_events]
      rfl
    rw [hevents]
    exact ⟨entered, _, rfl, rfl, rfl, ofWalkAll, ofWalkAll.discovered⟩

/-- The block of a rule whose first child is no alternative. -/
def halfBrokenBlock : Node :=
  .withChildren .block [.leaf .id "x", .withChildren .alt [.leaf .tokenRef "T"]]

def halfBrokenRule : Node := .rule [.leaf .ruleRef "a", halfBrokenBlock]

/-- A walk that goes on after errors discovers both children of the block, though the first of them
is no alternative.
-/
theorem Visit.outerAlternatives_numbered_of_halfBroken
    : 3 ≤ 8
      ∧ (Visit.of .parserRule halfBrokenRule).production.isRule = true
      ∧ ∃ (entered : Event) (log : RuleLog),
          ((Visit.of .parserRule halfBrokenRule).run {} 8 (.initial "m")).2.events
            = entered :: log.events
          ∧ log.OfWalk {} 6 (.of .parserRule halfBrokenRule)
          ∧ log.alternatives.map (·.alt) = halfBrokenBlock.children := by
  refine ⟨by decide, rfl, ?_⟩
  obtain ⟨events, added, numbered⟩ :=
    outerAlternatives_numbered {} (by decide : 3 ≤ 8) (v := .of .parserRule halfBrokenRule) rfl
      (.initial "m")
  have discovers
      : (((Visit.of .parserRule halfBrokenRule).run {} 8 (.initial "m")).2.events.any
          (·.callback.discoveredBlock?.isSome)) = true := by
    decide
  have hevents
      : ((Visit.of .parserRule halfBrokenRule).run {} 8 (.initial "m")).2.events = events :=
    added
  have found
      : discoveredAlternatives
          ((Visit.of .parserRule halfBrokenRule).run {} 8 (.initial "m")).2.events
        = halfBrokenBlock.children := by
    decide
  rw [hevents] at discovers found ⊢
  obtain ⟨entered, log, hlog, -, -, ofWalk, discovered⟩ := numbered (List.any_eq_true.mp discovers)
  exact ⟨entered, log, hlog, ofWalk, discovered.symm.trans found⟩

/-- Visits by name of a block and then of its rule. The rule is discovered, and yet at its entry,
before its scope is opened, the last outer alternative of the visit before is still the present one.
-/
theorem Walker.enter_after_block
    : ∃ first second entered rest,
        (create {}).visit 1 halfBrokenBlock "ruleBlock" = some (.ok (), first)
        ∧ first.visit 1 halfBrokenRule "rule" = some (.ok (), second)
        ∧ second.state.events = first.state.events ++ entered :: rest
        ∧ entered.callback = .enter .parserRule halfBrokenRule
        ∧ entered.context.rule.number = 2
        ∧ entered.context.rule.alternative = halfBrokenBlock.children.getLast?
        ∧ ∃ accepted ∈ rest, accepted.callback.discoveredBlock? = some halfBrokenBlock :=
  ⟨_, _, _, _, rfl, rfl, rfl, rfl, rfl, rfl, _, List.mem_cons_self, rfl⟩

end GrammarFrontend
