import GrammarFrontend.Proofs.Walk.Recovery
import GrammarFrontend.Proofs.Walk.Restoration

/-! What a walk depends on. A walk reads nothing of the state that it starts in but the context, how
many productions are open, and which of them are at rules and blocks; two states that are alike in
this take it the same way. No rule changes the names of the grammar and the mode, and so a rule
leaves a state that is like the one before it, whatever becomes of the rule.
-/

namespace GrammarFrontend

-----------------------------------------------------------------------------------------
-- States that are alike
-----------------------------------------------------------------------------------------

/-- A node that options may belong to. -/
def Node.owner? (n : Node) : Option Node :=
  if [NodeKind.rule, .block].contains n.kind then some n else none

theorem Node.owner?_eq_none {n : Node} (h : [NodeKind.rule, .block].contains n.kind = false)
    : n.owner? = none := by
  rw [owner?, h]
  rfl

namespace WalkState

/-- The nodes of the open productions, of which only those can be told apart that options may belong
to.
-/
def owners (s : WalkState) : List (Option Node) := s.stack.map Node.owner?

/-- Two states that a walk cannot tell apart. What was logged before does not matter. -/
structure Alike (s t : WalkState) : Prop where
  context : s.context = t.context
  owners : s.owners = t.owners

/-- Parts of two walks from states that are alike: both end the same, add the same entries to the
journals, and leave states that are alike.
-/
structure SameFrom (s t : WalkState) (first second : Outcome × WalkState) : Prop where
  outcome : first.1 = second.1
  adds : ∃ entries, s.Adds first.2 entries ∧ t.Adds second.2 entries
  alike : first.2.Alike second.2

theorem Alike.refl (s : WalkState) : s.Alike s := ⟨rfl, rfl⟩

theorem Alike.trans {s t u : WalkState} (hf : s.Alike t) (hs : t.Alike u) : s.Alike u :=
  ⟨hf.context.trans hs.context, hf.owners.trans hs.owners⟩

/-- The innermost rule or block around the present node is the first of the owners. -/
theorem enclosing_eq (s : WalkState)
    : s.enclosing [.rule, .block] = s.owners.tail.findSome? id := by
  rw [enclosing, owners, ← List.map_tail, List.findSome?_map]
  induction s.stack.tail with
  | nil => rfl
  | cons n stack ih =>
      rw [List.find?_cons, List.findSome?_cons, ih, Function.comp_apply, Node.owner?]
      cases [NodeKind.rule, .block].contains n.kind <;> rfl

theorem Alike.optionCallback {s t : WalkState} (h : s.Alike t) (id value : Node)
    : s.optionCallback id value = t.optionCallback id value := by
  rw [WalkState.optionCallback, WalkState.optionCallback, enclosing_eq, enclosing_eq, h.owners]

theorem Alike.commandCallback {s t : WalkState} (h : s.Alike t) (id : Node) (arg : Option Node)
    : s.commandCallback id arg = t.commandCallback id arg := by
  cases arg <;> simp only [WalkState.commandCallback, h.context]

theorem Alike.setGrammar {s t : WalkState} (h : s.Alike t) (name : String)
    : (s.setGrammar name).Alike (t.setGrammar name) :=
  ⟨congrArg (fun c : Context => { c with grammarName := some name }) h.context, h.owners⟩

theorem Alike.setMode {s t : WalkState} (h : s.Alike t) (name : String)
    : (s.setMode name).Alike (t.setMode name) :=
  ⟨congrArg (fun c : Context => { c with modeName := name }) h.context, h.owners⟩

theorem Alike.setRule {s t : WalkState} (h : s.Alike t) {rule other : RuleScope}
    (same : rule = other)
    : (s.setRule rule).Alike (t.setRule other) := by
  subst same
  exact ⟨congrArg (fun c : Context => { c with rule }) h.context, h.owners⟩

theorem Alike.setEbnfDepth {s t : WalkState} (h : s.Alike t) {depth other : Nat}
    (same : depth = other)
    : (s.setEbnfDepth depth).Alike (t.setEbnfDepth other) := by
  subst same
  exact ⟨congrArg (fun c : Context => { c with ebnfDepth := depth }) h.context, h.owners⟩

theorem Alike.announce {s t : WalkState} (h : s.Alike t) (callback other : Callback)
    : (s.announce callback).Alike (t.announce other) :=
  ⟨h.context, h.owners⟩

/-- Productions entered at nodes of one kind that options cannot tell apart. -/
theorem Alike.enter {s t : WalkState} (h : s.Alike t) {v u : Visit}
    (kind : v.node.kind = u.node.kind) (owner : v.node.owner? = u.node.owner?)
    : (s.enter v).Alike (t.enter u) := by
  refine ⟨?_, ?_⟩
  · show Context.mk _ _ _ _ (v.node.kind :: s.context.path) = ⟨_, _, _, _, u.node.kind :: _⟩
    rw [h.context, kind]
  · show v.node.owner? :: s.owners = u.node.owner? :: t.owners
    rw [h.owners, owner]

theorem Alike.exit {s t : WalkState} (h : s.Alike t) (v : Visit) : (s.exit v).Alike (t.exit v) := by
  refine ⟨congrArg (fun c : Context => { c with path := c.path.tail }) h.context, ?_⟩
  show s.stack.tail.map Node.owner? = t.stack.tail.map Node.owner?
  rw [List.map_tail, List.map_tail]
  exact congrArg List.tail h.owners

variable {s t : WalkState} {first second : Outcome × WalkState}

/-- Parts that add nothing. -/
theorem SameFrom.silent {outcome : Outcome} {after later : WalkState} (alike : after.Alike later)
    (hs : after.journal = s.journal) (ht : later.journal = t.journal)
    : s.SameFrom t (outcome, after) (outcome, later) :=
  ⟨rfl, ⟨[], hs, ht⟩, alike⟩

/-- The same announcement from states that are alike. -/
theorem SameFrom.announce (alike : s.Alike t) {callback other : Callback} (same : callback = other)
    : s.SameFrom t (.ok (), s.announce callback) (.ok (), t.announce other) := by
  subst same
  have adds := t.adds_announce callback
  rw [← alike.context] at adds
  exact ⟨rfl, ⟨_, s.adds_announce callback, adds⟩, ⟨alike.context, alike.owners⟩⟩

/-- Parts one after another, of which the first end well. -/
theorem SameFrom.trans {outcome : Outcome} {after later : WalkState}
    (hf : s.SameFrom t (outcome, after) (outcome, later)) (hs : after.SameFrom later first second)
    : s.SameFrom t first second := by
  obtain ⟨entries, addsFirst, addsSecond⟩ := hf.adds
  obtain ⟨more, moreFirst, moreSecond⟩ := hs.adds
  exact ⟨hs.outcome, ⟨entries ++ more, addsFirst.trans moreFirst, addsSecond.trans moreSecond⟩,
    hs.alike⟩

/-- Changes around the parts that leave the journals as they are. -/
theorem SameFrom.congr {after later x y : WalkState} (h : after.SameFrom later first second)
    (alike : x.Alike y) (hs : after.journal = s.journal) (ht : later.journal = t.journal)
    (hx : x.journal = first.2.journal) (hy : y.journal = second.2.journal)
    : s.SameFrom t (first.1, x) (second.1, y) := by
  obtain ⟨entries, addsFirst, addsSecond⟩ := h.adds
  refine ⟨h.outcome, ⟨entries, ?_, ?_⟩, alike⟩
  · rw [Adds, hx, addsFirst, hs]
  · rw [Adds, hy, addsSecond, ht]

/-- The same announcement on both sides, after the parts. -/
theorem SameFrom.close (h : s.SameFrom t first second) (callback : Callback)
    : s.SameFrom t (first.1, first.2.announce callback) (second.1, second.2.announce callback) := by
  obtain ⟨entries, addsFirst, addsSecond⟩ := h.adds
  have closes := second.2.adds_announce callback
  rw [← h.alike.context] at closes
  exact ⟨h.outcome, ⟨_, addsFirst.trans (first.2.adds_announce callback), addsSecond.trans closes⟩,
    h.alike.announce callback callback⟩

/-- What is made of the ends does not matter. -/
theorem SameFrom.mapOutcome (h : s.SameFrom t first second) (change : Outcome → Outcome)
    : s.SameFrom t (change first.1, first.2) (change second.1, second.2) :=
  ⟨congrArg change h.outcome, h.adds, h.alike⟩

/-- Both sides report the same error. -/
theorem SameFrom.report {e : WalkError} {after later : WalkState}
    (h : s.SameFrom t (.error e, after) (.error e, later))
    : s.SameFrom t (.ok (), after.report e) (.ok (), later.report e) := by
  obtain ⟨entries, addsFirst, addsSecond⟩ := h.adds
  exact ⟨rfl, ⟨_, addsFirst.trans (after.adds_report e), addsSecond.trans (later.adds_report e)⟩,
    ⟨h.alike.context, h.alike.owners⟩⟩

end WalkState

-----------------------------------------------------------------------------------------
-- Runs from states that are alike
-----------------------------------------------------------------------------------------

/-- Carrying out visits depends only on what is alike. -/
def Local (go : Visit → WalkState → Outcome × WalkState) : Prop :=
  ∀ (v : Visit) (s t : WalkState), s.Alike t → s.SameFrom t (go v s) (go v t)

/-- A plan depends on the state only as its visits do, by induction on the plan. -/
theorem Plan.run_sameFrom (resumes : Bool) {go : Visit → WalkState → Outcome × WalkState}
    (hgo : Local go) (plan : Plan) {s t : WalkState} (alike : s.Alike t)
    : s.SameFrom t (plan.run resumes go s) (plan.run resumes go t) := by
  induction plan generalizing s t with
  | done | fail => exact .silent alike rfl rfl
  | setGrammar name => exact .silent (alike.setGrammar name) rfl rfl
  | setMode name => exact .silent (alike.setMode name) rfl rfl
  | nextAlternative alt =>
      have moved : s.context.rule.moveTo alt = t.context.rule.moveTo alt := by rw [alike.context]
      exact .silent (alike.setRule moved) rfl rfl
  | visit v => exact hgo v s t alike
  | announce callback => exact .announce alike rfl
  | announceOption id value => exact .announce alike (alike.optionCallback id value)
  | announceCommand id arg => exact .announce alike (alike.commandCallback id arg)
  | seq first next ihFirst ihNext =>
      have hf := ihFirst alike
      rw [run, run]
      generalize first.run resumes go s = left at hf ⊢
      generalize first.run resumes go t = right at hf ⊢
      obtain ⟨outcome, after⟩ := left
      obtain ⟨other, later⟩ := right
      obtain rfl : outcome = other := hf.outcome
      cases outcome with
      | ok => exact hf.trans (ihNext hf.alike)
      | error e => exact hf
  | attempt plan ih =>
      have hp := ih alike
      rw [run, run]
      generalize plan.run resumes go s = left at hp ⊢
      generalize plan.run resumes go t = right at hp ⊢
      obtain ⟨outcome, after⟩ := left
      obtain ⟨other, later⟩ := right
      obtain rfl : outcome = other := hp.outcome
      cases outcome with
      | ok => exact hp
      | error e =>
          cases resumes with
          | true => exact hp.report
          | false => exact hp
  | inRule name node body ih =>
      have hb := ih (alike.setRule (rfl : RuleScope.opening name node = _))
      have restored : s.context.rule = t.context.rule := by rw [alike.context]
      exact hb.congr (hb.alike.setRule restored) rfl rfl rfl rfl
  | inAlternative alt body ih =>
      have opened : s.SameFrom t _ _ := .announce alike (rfl : Callback.enterAlternative alt = _)
      have hb := ih opened.alike
      have both := opened.trans hb
      exact both.close (.exitAlternative alt)
  | inSuffix body ih =>
      have deeper : s.context.ebnfDepth + 1 = t.context.ebnfDepth + 1 := by rw [alike.context]
      have hb := ih (alike.setEbnfDepth deeper)
      refine hb.congr (hb.alike.setEbnfDepth ?_) rfl rfl rfl rfl
      rw [hb.alike.context]

/-- A visit depends on the context, on how many productions are open and on their owners only,
whatever room it has, by induction on the room.
-/
theorem Visit.run_local (config : WalkerConfig) (room : Nat) : Local (run config room) := by
  induction room with
  | zero =>
      intro v s t alike
      exact .silent alike rfl rfl
  | succ room ih =>
      intro v s t alike
      have opened : s.SameFrom t (.ok (), s.enter v) (.ok (), t.enter v) := by
        have adds := t.adds_enter v
        rw [← (alike.enter (v := v) rfl rfl).context] at adds
        exact ⟨rfl, ⟨_, s.adds_enter v, adds⟩, alike.enter rfl rfl⟩
      have both :=
        opened.trans
          (Plan.run_sameFrom config.resumesOnMismatch ih v.plan opened.alike)
      have closed :=
        (both.close (.exit v.production v.node)).congr (both.alike.exit v) rfl rfl rfl rfl
      exact closed.mapOutcome (·.mapError (WalkError.locate v.node.span))

-----------------------------------------------------------------------------------------
-- The names of the grammar and the mode
-----------------------------------------------------------------------------------------

/-- Whether a production names the grammar or a mode. -/
def Production.namesOutside : Production → Bool
  | grammarSpec | modeSection => true
  | _ => false

/-- Only the root of a grammar may visit what names the grammar or a mode. -/
theorem Production.namesOutside_of_admits {outer inner : Production}
    (h : outer.admits inner = true) (outside : inner.namesOutside = true)
    : outer.namesOutside = true := by
  cases inner <;> simp [admits, namesOutside] at h outside
  subst h
  rfl

namespace WalkState

/-- A part of a walk leaves the names of the grammar and the mode as they are. -/
structure KeepsNames (s after : WalkState) : Prop where
  grammar : after.context.grammarName = s.context.grammarName
  mode : after.context.modeName = s.context.modeName

theorem KeepsNames.trans {s middle after : WalkState} (hf : s.KeepsNames middle)
    (hs : middle.KeepsNames after)
    : s.KeepsNames after :=
  ⟨hs.grammar.trans hf.grammar, hs.mode.trans hf.mode⟩

/-- A part that restores everything else and keeps the names leaves a state like the one before. -/
theorem Restores.alike {s after : WalkState} (h : s.Restores false after)
    (names : s.KeepsNames after)
    : after.Alike s := by
  have context : after.context = s.context := by
    rw [Context.mk.injEq]
    exact ⟨names.grammar, names.mode, h.rule rfl, h.ebnfDepth, h.path⟩
  exact ⟨context, congrArg (List.map Node.owner?) h.stack⟩

end WalkState

/-- A confined plan keeps the names if its visits do, by induction on the plan. -/
theorem Plan.Confined.keepsNames {p : Production} (resumes : Bool)
    {go : Visit → WalkState → Outcome × WalkState}
    (hgo
      : ∀ (v : Visit) (s : WalkState),
          p.admits v.production = true → s.KeepsNames (go v s).2)
    {plan : Plan} (confined : plan.Confined p) (s : WalkState)
    : s.KeepsNames (plan.run resumes go s).2 := by
  induction plan generalizing s with
  | done | fail | announce | announceOption | announceCommand | nextAlternative => exact ⟨rfl, rfl⟩
  | setGrammar | setMode | inRule => exact confined.elim
  | visit v => exact hgo v s confined
  | seq first next ihFirst ihNext =>
      have hf := ihFirst confined.1 s
      rw [run]
      generalize first.run resumes go s = result at hf ⊢
      obtain ⟨outcome, middle⟩ := result
      cases outcome with
      | ok => exact hf.trans (ihNext confined.2 middle)
      | error e => exact hf
  | attempt plan ih =>
      have hp := ih confined s
      rw [run]
      generalize plan.run resumes go s = result at hp ⊢
      obtain ⟨outcome, after⟩ := result
      cases outcome with
      | ok => exact hp
      | error e => cases resumes <;> exact ⟨hp.grammar, hp.mode⟩
  | inAlternative alt body ih =>
      have hb := ih confined (s.announce (.enterAlternative alt))
      exact ⟨hb.grammar, hb.mode⟩
  | inSuffix body ih =>
      have hb := ih confined (s.setEbnfDepth (s.context.ebnfDepth + 1))
      exact ⟨hb.grammar, hb.mode⟩

/-- Everything but the root and the sections of modes keeps the names of the grammar and the mode,
whatever room it has, by induction on the room.
-/
theorem Visit.run_keepsNames (config : WalkerConfig) (room : Nat) {v : Visit}
    (inside : v.production.namesOutside = false) (s : WalkState)
    : s.KeepsNames (v.run config room s).2 := by
  induction room generalizing v s with
  | zero => exact ⟨rfl, rfl⟩
  | succ room ih =>
      have hgo (u : Visit) (t : WalkState) (admits : v.production.admits u.production = true)
          : t.KeepsNames (u.run config room t).2 := by
        cases hu : u.production.namesOutside with
        | false => exact ih hu t
        | true =>
            rw [Production.namesOutside_of_admits admits hu] at inside
            cases inside
      have hplan
          : (s.enter v).KeepsNames
              (v.plan.run config.resumesOnMismatch (run config room) (s.enter v)).2 := by
        generalize hplan : v.plan = plan
        cases hplan ▸ v.plan_names with
        | fail => exact ⟨rfl, rfl⟩
        | nothing _ confined => exact confined.keepsNames _ hgo _
        | grammar isRoot =>
            rw [isRoot] at inside
            cases inside
        | mode isMode =>
            rw [isMode] at inside
            cases inside
        | @rule id _ _ _ confined =>
            have hb :=
              confined.keepsNames config.resumesOnMismatch hgo
                ((s.enter v).setRule (.opening id.text v.node))
            exact ⟨hb.grammar, hb.mode⟩
      exact ⟨hplan.grammar, hplan.mode⟩

/-- A rule leaves a state that is like the one before it, whichever way it ends. -/
theorem Visit.run_alike (config : WalkerConfig) (room : Nat) {v : Visit}
    (isRule : v.production.isRule = true) (s : WalkState)
    : (v.run config room s).2.Alike s := by
  have noBlock : v.production.isRuleBlock = false := by
    rcases Production.isRule_iff.mp isRule with h | h <;> rw [h] <;> rfl
  have inside : v.production.namesOutside = false := by
    rcases Production.isRule_iff.mp isRule with h | h <;> rw [h] <;> rfl
  have restores := v.run_restores config room s
  rw [noBlock] at restores
  exact restores.alike (v.run_keepsNames config room inside s)

end GrammarFrontend
