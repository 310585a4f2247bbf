import GrammarFrontend.Proofs.Walk.Locality
import GrammarFrontend.Proofs.Walk.Readings
import Mathlib.Data.List.Forall2

/-! Sections of rules in walks that go on after errors. Every rule of a section is attempted, and
the walk of a rule is the same whatever the other rules of the section are, because each of them
leaves a state that is like the one before it.
-/

namespace GrammarFrontend

-----------------------------------------------------------------------------------------
-- Siblings
-----------------------------------------------------------------------------------------

/-- The entries that a later state has in its journal and an earlier one has not, in their order. -/
def WalkState.since (s after : WalkState) : List Entry :=
  (after.journal.take (after.journal.length - s.journal.length)).reverse

theorem WalkState.Adds.since_eq {s after : WalkState} {entries : List Entry}
    (h : s.Adds after entries)
    : s.since after = entries := by
  rw [since, show after.journal = _ from h, List.length_append, Nat.add_sub_cancel_right,
    List.take_left, List.reverse_reverse]

namespace Plan

variable {go : Visit → WalkState → Outcome × WalkState}

/-- What each of the siblings adds to the journal, where all of them are attempted one after another
and the walk goes on after errors.
-/
def siblingLogs (go : Visit → WalkState → Outcome × WalkState)
    : List Plan → WalkState → List (List Entry)
  | [], _ => []
  | plan :: plans, s =>
      let after := ((attempt plan).run true go s).2
      s.since after :: siblingLogs go plans after

/-- Where the walk goes on after errors, no attempt ends with one. -/
theorem run_attempt (plan : Plan) (s : WalkState)
    : ((attempt plan).run true go s).1 = .ok () := by
  rw [run]
  split
  · rfl
  · rename_i succeeded
    generalize plan.run true go s = result at succeeded ⊢
    obtain ⟨outcome, after⟩ := result
    cases outcome with
    | ok => rfl
    | error e => exact (succeeded e after rfl).elim

/-- Siblings go on after the first of them, whatever becomes of it. -/
theorem run_each_cons (plan : Plan) (plans : List Plan) (s : WalkState)
    : (each (plan :: plans)).run true go s
      = (each plans).run true go ((attempt plan).run true go s).2 := by
  have hok : (attempt plan).run true go s = (.ok (), ((attempt plan).run true go s).2) :=
    Prod.ext (run_attempt plan s) rfl
  rw [each, List.map_cons, steps, run, hok]
  rfl

/-- Siblings are all attempted, and together they add what each of them adds, by induction on
them.
-/
theorem run_each (hgo : Local go) (plans : List Plan) (s : WalkState)
    : ((each plans).run true go s).1 = .ok ()
      ∧ s.Adds ((each plans).run true go s).2 (siblingLogs go plans s).flatten := by
  induction plans generalizing s with
  | nil => exact ⟨rfl, rfl⟩
  | cons plan plans ih =>
      obtain ⟨entries, adds, -⟩ := (run_sameFrom true hgo (attempt plan) (.refl s)).adds
      obtain ⟨ok, more⟩ := ih ((attempt plan).run true go s).2
      rw [run_each_cons, siblingLogs, List.flatten_cons, adds.since_eq]
      exact ⟨ok, adds.trans more⟩

/-- Siblings that each leave a state like the one before leave such a state together. -/
theorem run_each_alike {plans : List Plan}
    (restores : ∀ plan ∈ plans, ∀ s, ((attempt plan).run true go s).2.Alike s) (s : WalkState)
    : ((each plans).run true go s).2.Alike s := by
  induction plans generalizing s with
  | nil => exact .refl s
  | cons plan plans ih =>
      obtain ⟨hplan, hplans⟩ := List.forall_mem_cons.mp restores
      rw [run_each_cons]
      exact (ih hplans _).trans (hplan s)

/-- Where each sibling leaves a state that is like the one before, it adds what it would add if it
were the first, by induction on them.
-/
theorem siblingLogs_eq_map (hgo : Local go) {plans : List Plan}
    (restores : ∀ plan ∈ plans, ∀ s, ((attempt plan).run true go s).2.Alike s) {s t : WalkState}
    (alike : t.Alike s)
    : siblingLogs go plans t
      = plans.map (fun plan => s.since ((attempt plan).run true go s).2) := by
  induction plans generalizing t with
  | nil => rfl
  | cons plan plans ih =>
      obtain ⟨entries, addsLeft, addsRight⟩ := (run_sameFrom true hgo (attempt plan) alike).adds
      obtain ⟨hplan, hplans⟩ := List.forall_mem_cons.mp restores
      rw [siblingLogs, List.map_cons, addsLeft.since_eq, addsRight.since_eq,
        ih hplans ((hplan t).trans alike)]

end Plan

-----------------------------------------------------------------------------------------
-- Sections
-----------------------------------------------------------------------------------------

/-- A section of rules: that of a whole grammar, or that of a mode, which begins with its name. -/
inductive RuleSection where
  | rules (node : Node) (isRules : node.kind = .rules)
  | mode (node id : Node) (rest : List Node) (isMode : node.kind = .mode) (isId : id.kind = .id)
    (children : node.children = id :: rest)

namespace RuleSection

/-- The name of the mode that the section is of. -/
def modeId? : RuleSection → Option Node
  | rules .. => none
  | mode _ id .. => some id

/-- The rules of the section. -/
def members : RuleSection → List Node
  | rules node _ => node.children
  | mode _ _ rest .. => rest

def visit : RuleSection → Visit
  | rules node _ => .of .rules node
  | mode node .. => .of .modeSection node

/-- The visit of a rule of the section. All rules of a mode are lexer rules; outside of modes, those
are whose first child names a token.
-/
def ruleVisit (sec : RuleSection) (rule : Node) : Visit :=
  let isLexerRule := sec.modeId?.isSome || rule.children.head?.any (·.kind == .tokenRef)
  .of (if isLexerRule then .lexerRule else .parserRule) rule

/-- The visits of the rules of the section. -/
def rulePlans (sec : RuleSection) : List Plan :=
  sec.members.map (fun rule => .visit (sec.ruleVisit rule))

/-- The callback that announces the section. -/
def heading : RuleSection → Callback
  | rules node _ => .discoverRules node
  | mode node id .. => .modeDef node id

/-- The callbacks after the rules of the section. -/
def closing : RuleSection → List Callback
  | rules node _ => [.finishRules node, .exit .rules node]
  | mode node .. => [.exit .modeSection node]

/-- The state in which the rules of the section are begun, if the section is entered in a state. -/
def opened (sec : RuleSection) (s : WalkState) : WalkState :=
  let entered := s.enter sec.visit
  let named :=
    match sec.modeId? with
    | some id => entered.setMode id.text
    | none => entered
  named.announce sec.heading

/-- What each rule of the section adds to the journal in a walk of the section that goes on after
errors: nothing if there is no room for the section itself.
-/
def ruleLogs (config : WalkerConfig) (sec : RuleSection) (s : WalkState) : List (List Entry) :=
  match config.maxDepth - s.stack.length with
  | 0 => []
  | room + 1 =>
      Plan.siblingLogs (Visit.run config room) sec.rulePlans (sec.opened s)

theorem ruleVisit_isRule (sec : RuleSection) (rule : Node)
    : (sec.ruleVisit rule).production.isRule = true := by
  rw [ruleVisit]
  simp only [Visit.of]
  split <;> rfl

/-- The plan of a section of rules: it announces itself and attempts its rules. -/
theorem visit_plan (sec : RuleSection)
    : sec.visit.plan
      = match sec with
        | rules node _ =>
            Plan.steps [
              .announce sec.heading,
              Plan.each sec.rulePlans,
              .announce (.finishRules node)
            ]
        | mode _ id .. =>
            Plan.steps [
              .setMode id.text,
              .announce sec.heading,
              Plan.each sec.rulePlans
            ] := by
  cases sec with
  | rules node isRules =>
      have hsection (rule : Node)
          : Plan.ruleOfSection rule = .visit ((rules node isRules).ruleVisit rule) := by
        rw [Plan.ruleOfSection]
        cases h : rule.children with
        | nil => simp [ruleVisit, modeId?, h, Plan.visitAs]
        | cons first rest =>
            cases hkind : first.kind == .tokenRef <;>
              simp [ruleVisit, modeId?, h, hkind, Plan.visitAs]
      show Plan.rules node = _
      rw [Plan.rules, Shape.requireKind_eq_ok (u := ()).mpr (List.mem_singleton.mpr isRules),
        funext hsection]
      rfl
  | mode node id rest isMode isId children =>
      show Plan.modeSection node = _
      rw [Plan.modeSection, Shape.requireKind_eq_ok (u := ()).mpr (List.mem_singleton.mpr isMode),
        Shape.expect_eq_ok.mpr ⟨children, List.mem_singleton.mpr isId⟩]
      rfl

/-- Options do not belong to a section. -/
theorem owner_eq_none (sec : RuleSection) : sec.visit.node.owner? = none := by
  cases sec with
  | rules node isRules => exact Node.owner?_eq_none (congrArg _ isRules)
  | mode node _ _ isMode => exact Node.owner?_eq_none (congrArg _ isMode)

/-- Sections of the same mode, or of none, begin their rules in states that are alike. -/
theorem opened_alike {first second : RuleSection} (same : first.modeId? = second.modeId?)
    (s : WalkState)
    : (first.opened s).Alike (second.opened s) := by
  have entered (kind : first.visit.node.kind = second.visit.node.kind)
      : (s.enter first.visit).Alike (s.enter second.visit) :=
    (WalkState.Alike.refl s).enter kind (first.owner_eq_none.trans second.owner_eq_none.symm)
  cases first with
  | rules node isRules =>
      cases second with
      | mode => cases same
      | rules other isRulesOther => exact (entered (isRules.trans isRulesOther.symm)).announce _ _
  | mode node id rest isMode =>
      cases second with
      | rules => cases same
      | mode other otherId _ isModeOther =>
          obtain rfl : id = otherId := Option.some.inj same
          exact ((entered (isMode.trans isModeOther.symm)).setMode id.text).announce _ _

-----------------------------------------------------------------------------------------
-- Walks of sections
-----------------------------------------------------------------------------------------

/-- The end of a section after the last of its rules. -/
def closed (sec : RuleSection) (last : WalkState) : WalkState :=
  match sec with
  | rules node _ => (last.announce (.finishRules node)).exit sec.visit
  | mode .. => last.exit sec.visit

theorem adds_opened (sec : RuleSection) (s : WalkState)
    : s.Adds (sec.opened s)
        [.event ⟨.enter sec.visit.production sec.visit.node, (s.enter sec.visit).context⟩,
          .event ⟨sec.heading, (sec.opened s).context⟩] := by
  cases sec <;> rfl

theorem adds_closed (sec : RuleSection) (last : WalkState)
    : last.Adds (sec.closed last)
        (sec.closing.map (fun callback => .event ⟨callback, last.context⟩)) := by
  cases sec <;> rfl

/-- A rule that is attempted leaves a state like the one before it. -/
theorem attempt_alike (config : WalkerConfig) (room : Nat) (sec : RuleSection) (rule : Node)
    (s : WalkState)
    : ((Plan.attempt (.visit (sec.ruleVisit rule))).run true (Visit.run config room) s).2.Alike s
    := by
  have alike := Visit.run_alike config room (sec.ruleVisit_isRule rule) s
  rw [Plan.run, Plan.run]
  generalize (sec.ruleVisit rule).run config room s = result at alike ⊢
  obtain ⟨outcome, after⟩ := result
  cases outcome with
  | ok => exact alike
  | error e => exact ⟨alike.context, alike.owners⟩

/-- A section that is entered attempts its rules and is closed after the last of them. -/
theorem run_succ {config : WalkerConfig} (resumes : config.resumesOnMismatch = true) (room : Nat)
    (sec : RuleSection) (s : WalkState)
    : sec.visit.run config (room + 1) s
      = (.ok (),
          sec.closed
            ((Plan.each sec.rulePlans).run true (Visit.run config room) (sec.opened s)).2) := by
  have hrun
      : (Plan.each sec.rulePlans).run true (Visit.run config room) (sec.opened s)
        = (.ok (), ((Plan.each sec.rulePlans).run true (Visit.run config room) (sec.opened s)).2) :=
    Prod.ext (Plan.run_each (Visit.run_local config room) sec.rulePlans (sec.opened s)).1 rfl
  rw [Visit.run, resumes, visit_plan]
  cases sec with
  | rules node isRules =>
      have hrules : (Plan.each _).run true _ ((s.enter _).announce _) = _ := hrun
      simp only [Plan.steps, Plan.run, hrules]
      rfl
  | mode node id rest isMode isId children =>
      have hrules : (Plan.each _).run true _ (((s.enter _).setMode _).announce _) = _ := hrun
      simp only [Plan.steps, Plan.run, hrules]
      rfl

end RuleSection

/-- What the attempt of a visit adds to the journal in a state: the visit with what is inside of it,
and the error that it ends with, if it does. Where there is no room for it, this is all.
-/
def Visit.Attempted (config : WalkerConfig) (v : Visit) (s : WalkState) (log : List Entry) : Prop :=
  if s.stack.length < config.maxDepth then
    ∃ inner left reported,
      log
        = .event ⟨.enter v.production v.node, (s.enter v).context⟩ :: inner
          ++ .event ⟨.exit v.production v.node, left⟩ :: reported
      ∧ (reported = [] ∨ ∃ e : WalkError, reported = [.report e.diagnostic])
  else
    log = [.report (WalkError.recursionLimit config.maxDepth).diagnostic]

theorem Visit.attempted_since (config : WalkerConfig) (room : Nat) (v : Visit) (s : WalkState)
    (hroom : config.maxDepth - s.stack.length = room)
    : v.Attempted config s
        (s.since ((Plan.attempt (.visit v)).run true (Visit.run config room) s).2) := by
  rw [Attempted]
  cases room with
  | zero =>
      rw [if_neg (by omega)]
      exact (s.adds_report (.recursionLimit config.maxDepth)).since_eq
  | succ room =>
      rw [if_pos (by omega)]
      have same :=
        Plan.run_sameFrom config.resumesOnMismatch (Visit.run_local config room)
          v.plan (.refl (s.enter v))
      obtain ⟨inner, adds, -⟩ := same.adds
      have whole := ((s.adds_enter v).trans adds).trans (WalkState.adds_exit _ v)
      rw [Plan.run, Plan.run, Visit.run]
      generalize v.plan.run config.resumesOnMismatch (Visit.run config room) (s.enter v) = result
        at whole ⊢
      obtain ⟨outcome, after⟩ := result
      cases outcome with
      | ok =>
          refine ⟨inner, after.context, [], ?_, .inl rfl⟩
          exact whole.since_eq
      | error e =>
          refine ⟨inner, after.context, _, ?_, .inr ⟨e.locate v.node.span, rfl⟩⟩
          have reported := whole.trans ((after.exit v).adds_report (e.locate v.node.span))
          rw [List.append_assoc] at reported
          exact reported.since_eq

namespace RuleSection

/-- What each rule adds in the walk of a section is what it would add as the first of the rules. -/
theorem ruleLogs_eq (config : WalkerConfig) {room : Nat} (sec : RuleSection) {s t : WalkState}
    (hroom : config.maxDepth - s.stack.length = room + 1) (alike : (sec.opened s).Alike t)
    : sec.ruleLogs config s
      = sec.rulePlans.map
          (fun plan => t.since ((Plan.attempt plan).run true (Visit.run config room) t).2) := by
  rw [ruleLogs, hroom]
  refine Plan.siblingLogs_eq_map (Visit.run_local config room) ?_ alike
  intro plan hplan
  obtain ⟨rule, -, rfl⟩ := List.mem_map.mp hplan
  exact sec.attempt_alike config room rule

/-- The walk of a section that there is room for: it ends well, and its journal is that of its rules
between its own callbacks. Every rule is attempted, from a state with the context of the first one.
-/
theorem start_of_free {config : WalkerConfig} (resumes : config.resumesOnMismatch = true)
    (sec : RuleSection) {s : WalkState} (free : s.stack.length < config.maxDepth)
    : ∃ after,
        sec.visit.start config s = (.ok (), after)
        ∧ s.Adds after
            (.event ⟨.enter sec.visit.production sec.visit.node, (s.enter sec.visit).context⟩
              :: .event ⟨sec.heading, (sec.opened s).context⟩
              :: (sec.ruleLogs config s).flatten
              ++ sec.closing.map (fun callback => .event ⟨callback, (sec.opened s).context⟩))
        ∧ List.Forall₂ (fun rule => (sec.ruleVisit rule).Attempted config (sec.opened s))
            sec.members (sec.ruleLogs config s) := by
  obtain ⟨room, hroom⟩ : ∃ room, config.maxDepth - s.stack.length = room + 1 :=
    ⟨config.maxDepth - s.stack.length - 1, by omega⟩
  let last := ((Plan.each sec.rulePlans).run true (Visit.run config room) (sec.opened s)).2
  refine ⟨sec.closed last, ?_, ?_, ?_⟩
  · rw [Visit.start, hroom]
    exact run_succ resumes room sec s
  · have alike : last.Alike (sec.opened s) := by
      refine Plan.run_each_alike ?_ (sec.opened s)
      intro plan hplan t
      obtain ⟨rule, -, rfl⟩ := List.mem_map.mp hplan
      exact sec.attempt_alike config room rule t
    have adds : (sec.opened s).Adds last (sec.ruleLogs config s).flatten := by
      rw [ruleLogs, hroom]
      exact (Plan.run_each (Visit.run_local config room) sec.rulePlans (sec.opened s)).2
    have closes := sec.adds_closed last
    rw [alike.context] at closes
    exact ((sec.adds_opened s).trans adds).trans closes
  · have hlength : (sec.opened s).stack.length = s.stack.length + 1 := by cases sec <;> rfl
    rw [ruleLogs_eq config sec hroom (.refl _), rulePlans, List.map_map]
    refine List.forall₂_map_right_iff.mpr (List.forall₂_same.mpr ?_)
    intro rule _
    exact Visit.attempted_since config room (sec.ruleVisit rule) (sec.opened s) (by omega)

/-- Where two sections of the same mode, or of none, have the same rule, its walk adds the same to
the journal, whatever the other rules are.
-/
theorem ruleLogs_congr (config : WalkerConfig) {first second : RuleSection}
    (same : first.modeId? = second.modeId?) (s : WalkState) {i : Nat}
    (rule : first.members[i]? = second.members[i]?)
    : (first.ruleLogs config s)[i]? = (second.ruleLogs config s)[i]? := by
  cases hroom : config.maxDepth - s.stack.length with
  | zero => simp only [ruleLogs, hroom]
  | succ room =>
      have hvisit : first.ruleVisit = second.ruleVisit := by
        funext rule
        rw [ruleVisit, ruleVisit, same]
      rw [ruleLogs_eq config first hroom (opened_alike same s),
        ruleLogs_eq config second hroom (.refl _), List.getElem?_map, List.getElem?_map,
        rulePlans, rulePlans, List.getElem?_map, List.getElem?_map, rule, hvisit]

/-- In a walk that goes on after errors, a broken rule does not disturb its siblings. A section is
entered if there is room for it, and then no outcome of a rule stops it: every rule is attempted,
and the section is closed after the last of them. The walks of two sections of the same mode, or of
none, that differ in one rule add the same to the journal for each of the other rules.
-/
theorem rules_undisturbed (config : WalkerConfig) (resumes : config.resumesOnMismatch = true)
    (s : WalkState)
    : (∀ sec : RuleSection,
        config.maxDepth ≤ s.stack.length
        → sec.visit.start config s = (.error (.recursionLimit config.maxDepth), s))
      ∧ (∀ sec : RuleSection,
          s.stack.length < config.maxDepth
          → ∃ after,
              sec.visit.start config s = (.ok (), after)
              ∧ s.Adds after
                  (.event ⟨.enter sec.visit.production sec.visit.node,
                      (s.enter sec.visit).context⟩
                    :: .event ⟨sec.heading, (sec.opened s).context⟩
                    :: (sec.ruleLogs config s).flatten
                    ++ sec.closing.map (fun callback => .event ⟨callback, (sec.opened s).context⟩))
              ∧ List.Forall₂ (fun rule => (sec.ruleVisit rule).Attempted config (sec.opened s))
                  sec.members (sec.ruleLogs config s))
      ∧ ∀ (first second : RuleSection) (j : Nat),
          first.modeId? = second.modeId?
          → (∀ i, i ≠ j → first.members[i]? = second.members[i]?)
          → ∀ i, i ≠ j → (first.ruleLogs config s)[i]? = (second.ruleLogs config s)[i]? := by
  refine ⟨?_, fun sec free => sec.start_of_free resumes free, ?_⟩
  · intro sec full
    rw [Visit.start, Nat.sub_eq_zero_of_le full]
    rfl
  · intro first second j same elsewhere i hi
    exact ruleLogs_congr config same s (elsewhere i hi)

/-- A rule with a block of one token. -/
def plainRule (name : String) : Node :=
  .rule [.leaf .ruleRef name, .withChildren .block [.withChildren .alt [.leaf .tokenRef "T"]]]

/-- A section whose second rule has no name. -/
def brokenSection : RuleSection :=
  .rules (.withChildren .rules [plainRule "a", .new .rule, plainRule "c"]) rfl

/-- The same section with a name for the second rule. -/
def repairedSection : RuleSection :=
  .rules (.withChildren .rules [plainRule "a", plainRule "b", plainRule "c"]) rfl

/-- A rule without a name makes a difference to its own log, and none to that of the rule after it;
the walk of the section goes to its end.
-/
theorem rules_undisturbed_by_namelessRule
    : ({} : WalkerConfig).resumesOnMismatch = true
      ∧ (brokenSection.ruleLogs {} (.initial "m"))[1]?
        ≠ (repairedSection.ruleLogs {} (.initial "m"))[1]?
      ∧ (brokenSection.ruleLogs {} (.initial "m"))[2]?
        = (repairedSection.ruleLogs {} (.initial "m"))[2]?
      ∧ ∃ after, brokenSection.visit.start {} (.initial "m") = (.ok (), after) := by
  obtain ⟨-, walked, same⟩ := rules_undisturbed {} rfl (.initial "m")
  have elsewhere (i : Nat) (hi : i ≠ 1)
      : brokenSection.members[i]? = repairedSection.members[i]? := by
    match i, hi with
    | 0, _ => rfl
    | i + 2, _ => rfl
  obtain ⟨after, hafter, -, -⟩ := walked brokenSection (by decide)
  exact ⟨rfl, by decide, same brokenSection repairedSection 1 rfl elsewhere 2 (by decide),
    after, hafter⟩

end RuleSection

end GrammarFrontend
