import GrammarFrontend.Proofs.Walk.Confinement

/-! Parts of a walk inside of one outer alternative. Everything but the outline of a rule stays in
the rule and the outer alternative that it is begun in: all of its events see them, its commands are
given the number of that alternative, and they are as before at its end.
-/

namespace GrammarFrontend

-----------------------------------------------------------------------------------------
-- Productions that outline nothing
-----------------------------------------------------------------------------------------

/-- Whether the production neither outlines a rule nor visits what does. -/
def Production.isInner (p : Production) : Bool :=
  !(p.isOutside || p.isRuleBlock || p.isOuterAlternative)

theorem Production.isInner_iff {p : Production}
    : p.isInner = true
      ↔ p.isOutside = false ∧ p.isRuleBlock = false ∧ p.isOuterAlternative = false := by
  simp [isInner, and_assoc]

/-- An inner production is no part of the outline of a rule, and names nothing. -/
theorem Production.not_outline_of_isInner {p : Production} (isInner : p.isInner = true)
    : p.isOutline = false ∧ p.isRule = false ∧ p ≠ .grammarSpec ∧ p ≠ .modeSection := by
  revert isInner
  cases p <;> decide

/-- An inner production visits inner productions only. -/
theorem Production.isInner_of_admits {outer inner : Production} (h : outer.admits inner = true)
    (isInner : outer.isInner = true)
    : inner.isInner = true := by
  cases inner <;> simp [admits] at h <;> try rfl
  case lexerRule =>
    rcases h with rfl | rfl <;> cases isInner
  all_goals
    subst h
    cases isInner

-----------------------------------------------------------------------------------------
-- Parts of walks
-----------------------------------------------------------------------------------------

/-- At the event the rule and its outer alternative are these, and a command is given the number of
the alternative.
-/
structure Event.Sees (rule : RuleScope) (e : Event) : Prop where
  context : e.context.rule = rule
  command : ∀ number, e.callback.commandNumber? = some number → number = rule.number

namespace WalkState

/-- A part of a walk announces these events, all in the rule and the outer alternative that it is
begun in, and leaves them as they are.
-/
structure Logs (s after : WalkState) (events : List Event) : Prop where
  added : after.events = s.events ++ events
  sees : ∀ e ∈ events, e.Sees s.context.rule
  rule : after.context.rule = s.context.rule

theorem Logs.trans {s middle after : WalkState} {first second : List Event}
    (hf : s.Logs middle first) (hs : middle.Logs after second)
    : s.Logs after (first ++ second) where
  added := by rw [hs.added, hf.added, List.append_assoc]
  sees := by
    intro e he
    rcases List.mem_append.mp he with he | he
    · exact hf.sees e he
    · exact hf.rule ▸ hs.sees e he
  rule := hs.rule.trans hf.rule

theorem logs_silent {s after : WalkState} (hevents : after.events = s.events)
    (hrule : after.context.rule = s.context.rule)
    : s.Logs after [] where
  added := by rw [hevents, List.append_nil]
  sees := by simp
  rule := hrule

theorem logs_announce (s : WalkState) {callback : Callback}
    (command : ∀ number, callback.commandNumber? = some number → number = s.context.rule.number)
    : s.Logs (s.announce callback) [{ callback, context := s.context }] where
  added := s.announce_events callback
  sees := List.forall_mem_singleton.mpr ⟨rfl, command⟩
  rule := rfl

theorem logs_enter (s : WalkState) (v : Visit)
    : s.Logs (s.enter v) [⟨.enter v.production v.node, (s.enter v).context⟩] where
  added := announce_events _ _
  sees := List.forall_mem_singleton.mpr ⟨rfl, fun _ h => by cases h⟩
  rule := rfl

theorem logs_exit (s : WalkState) (v : Visit)
    : s.Logs (s.exit v) [⟨.exit v.production v.node, s.context⟩] where
  added := s.announce_events _
  sees := List.forall_mem_singleton.mpr ⟨rfl, fun _ h => by cases h⟩
  rule := rfl

/-- A part of a walk that stays in the rule and the outer alternative and outlines nothing. -/
def Stays (s after : WalkState) : Prop :=
  ∃ events, s.Logs after events ∧ ∀ e ∈ events, e.callback.isOutline = false

theorem Stays.trans {s middle after : WalkState} (hf : s.Stays middle) (hs : middle.Stays after)
    : s.Stays after := by
  obtain ⟨first, logsFirst, plainFirst⟩ := hf
  obtain ⟨second, logsSecond, plainSecond⟩ := hs
  exact ⟨first ++ second, logsFirst.trans logsSecond,
    List.forall_mem_append.mpr ⟨plainFirst, plainSecond⟩⟩

theorem stays_silent {s after : WalkState} (hevents : after.events = s.events)
    (hrule : after.context.rule = s.context.rule)
    : s.Stays after :=
  ⟨[], logs_silent hevents hrule, by simp⟩

theorem stays_announce (s : WalkState) {callback : Callback} (plain : callback.isOutline = false)
    (command : ∀ number, callback.commandNumber? = some number → number = s.context.rule.number)
    : s.Stays (s.announce callback) :=
  ⟨_, s.logs_announce command, List.forall_mem_singleton.mpr plain⟩

theorem stays_announceOption (s : WalkState) (id value : Node)
    : s.Stays (s.announce (s.optionCallback id value)) := by
  have plain
      : (s.optionCallback id value).isOutline = false
        ∧ (s.optionCallback id value).commandNumber? = none := by
    unfold optionCallback
    split
    · split <;> exact ⟨rfl, rfl⟩
    · exact ⟨rfl, rfl⟩
  refine s.stays_announce plain.1 ?_
  rw [plain.2]
  simp

/-- A command is given the number of the outer alternative. -/
theorem stays_announceCommand (s : WalkState) (id : Node) (arg : Option Node)
    : s.Stays (s.announce (s.commandCallback id arg)) := by
  have plain
      : (s.commandCallback id arg).isOutline = false
        ∧ (s.commandCallback id arg).commandNumber? = some s.context.rule.number := by
    cases arg <;> exact ⟨rfl, rfl⟩
  refine s.stays_announce plain.1 ?_
  rw [plain.2]
  intro number h
  exact (Option.some.inj h).symm

end WalkState

/-- A confined plan of an inner production stays in the outer alternative if its visits do, by
induction on the plan.
-/
theorem Plan.Confined.run_stays {p : Production} (isInner : p.isInner = true) (resumes : Bool)
    {go : Visit → WalkState → Outcome × WalkState}
    (hgo : ∀ (v : Visit) (s : WalkState), v.production.isInner = true → s.Stays (go v s).2)
    {plan : Plan} (confined : plan.Confined p) (s : WalkState)
    : s.Stays (plan.run resumes go s).2 := by
  induction plan generalizing s with
  | done | fail => exact WalkState.stays_silent rfl rfl
  | seq first next ihFirst ihNext =>
      have hf := ihFirst confined.1 s
      rw [run]
      split
      · rename_i after h
        rw [h] at hf
        exact hf.trans (ihNext confined.2 after)
      · exact hf
  | visit v => exact hgo v s (Production.isInner_of_admits confined isInner)
  | attempt plan ih =>
      have hp := ih confined s
      rw [run]
      split
      · rename_i e after h
        rw [h] at hp
        cases resumes with
        | true => exact hp.trans (WalkState.stays_silent (after.report_events e) rfl)
        | false => exact hp
      · exact hp
  | announce callback =>
      obtain ⟨-, -, noCommand, outlines⟩ := confined
      have plain : callback.isOutline = false := by
        cases h : callback.isOutline with
        | false => rfl
        | true =>
            rw [(Production.not_outline_of_isInner isInner).1] at outlines
            cases outlines h
      refine s.stays_announce plain ?_
      rw [noCommand]
      simp
  | announceOption id value => exact s.stays_announceOption id value
  | announceCommand id arg => exact s.stays_announceCommand id arg
  | nextAlternative alt =>
      rw [Confined, (Production.isInner_iff.mp isInner).2.1] at confined
      cases confined
  | setGrammar | setMode | inRule => exact confined.elim
  | inAlternative alt body ih =>
      have hb := ih confined (s.announce (.enterAlternative alt))
      have enters : s.Stays (s.announce (.enterAlternative alt)) :=
        s.stays_announce rfl (fun _ h => by cases h)
      exact (enters.trans hb).trans (WalkState.stays_announce _ rfl (fun _ h => by cases h))
  | inSuffix body ih =>
      have hb := ih confined (s.setEbnfDepth (s.context.ebnfDepth + 1))
      have deeper : s.Stays (s.setEbnfDepth (s.context.ebnfDepth + 1)) :=
        WalkState.stays_silent rfl rfl
      exact (deeper.trans hb).trans (WalkState.stays_silent rfl rfl)

/-- An inner production stays in the outer alternative, whatever room it has, by induction on the
room.
-/
theorem Visit.run_stays (config : WalkerConfig) (room : Nat) {v : Visit}
    (isInner : v.production.isInner = true) (s : WalkState)
    : s.Stays (v.run config room s).2 := by
  induction room generalizing v s with
  | zero => exact WalkState.stays_silent rfl rfl
  | succ room ih =>
      obtain ⟨-, noRule, noRoot, noMode⟩ := Production.not_outline_of_isInner isInner
      have inside :=
        (plan_confined noRule noRoot noMode).run_stays isInner config.resumesOnMismatch
          (fun v s h => ih h s) (s.enter v)
      have enters : s.Stays (s.enter v) :=
        ⟨_, s.logs_enter v, List.forall_mem_singleton.mpr rfl⟩
      exact (enters.trans inside).trans
        ⟨_, WalkState.logs_exit _ v, List.forall_mem_singleton.mpr rfl⟩

end GrammarFrontend
