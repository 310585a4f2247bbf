import GrammarFrontend.Proofs.Walk.Confinement
import GrammarFrontend.Proofs.Walk.Recovery

/-! What a listener reads from the context is what the callbacks have told it. The grammar is the
one that was discovered, the mode is the latest that was announced, and the rule is the one whose
production was entered and not left again; outside of rules there is none.
-/

namespace GrammarFrontend

-----------------------------------------------------------------------------------------
-- What a listener has heard
-----------------------------------------------------------------------------------------

/-- The nodes of the rules among what is open. -/
def openRules (opened : List Scope) : List Node :=
  (openVisits opened).filterMap (fun v => if v.1.isRule then some v.2 else none)

/-- What a listener knows from the callbacks alone. -/
structure Heard where
  /-- What was entered and not left, the innermost first. -/
  opened : List Scope
  grammar : Option String
  mode : String

namespace Heard

/-- Before the first callback of a walk. -/
def start (mode : String) : Heard := { opened := [], grammar := none, mode }

/-- After one more callback: the grammar has the name of its first child, and a mode that of its
identifier.
-/
def hear (h : Heard) (callback : Callback) : Heard :=
  {
    opened := callback.leavesOpen h.opened
    grammar :=
      match callback with
      | .discoverGrammar root _ => root.children.head?.map (·.text)
      | _ => h.grammar
    mode :=
      match callback with
      | .modeDef _ id => id.text
      | _ => h.mode
  }

/-- After the callbacks of these events. -/
def after (h : Heard) (events : List Event) : Heard := events.foldl (fun h e => h.hear e.callback) h

/-- At a callback. What it enters is not yet around it, and what it leaves no longer is. -/
def during (h : Heard) (callback : Callback) : Heard :=
  match callback with
  | .enter .. | .enterAlternative _ => h
  | _ => h.hear callback

end Heard

/-- The name and the node of a rule scope are those of the rule around it, where the rule has the
name of its first child; without a rule there are none.
-/
structure RuleScope.Tells (s : RuleScope) (rules : List Node) : Prop where
  inside
    : ∀ rule ∈ rules,
        s.node = some rule ∧ ∃ id, rule.children.head? = some id ∧ s.name = some id.text
  outside : rules = [] → s.node = none ∧ s.name = none

/-- What can be read from a context is what a listener has heard. -/
structure Context.Tells (c : Context) (h : Heard) : Prop where
  grammar : c.grammarName = h.grammar
  mode : c.modeName = h.mode
  rule : c.rule.Tells (openRules h.opened)

/-- At each of the events the context tells what a listener has heard, that callback included. -/
def Heard.Follows (h : Heard) : List Event → Prop
  | [] => True
  | e :: events => e.context.Tells (h.during e.callback) ∧ (h.hear e.callback).Follows events

namespace Heard

theorem after_append (h : Heard) (first second : List Event)
    : h.after (first ++ second) = (h.after first).after second :=
  List.foldl_append

/-- Events tell what was heard if their two parts do, by induction on the first part. -/
theorem follows_append {h : Heard} {first second : List Event}
    : h.Follows (first ++ second) ↔ h.Follows first ∧ (h.after first).Follows second := by
  induction first generalizing h with
  | nil => exact ⟨fun more => ⟨trivial, more⟩, fun both => both.2⟩
  | cons e events ih =>
      rw [List.cons_append, Follows, Follows, ih, and_assoc]
      rfl

/-- A callback that opens nothing, closes nothing and names nothing tells nothing new. -/
theorem hear_of_plain (h : Heard) {callback : Callback} (plain : callback.isBracket = false)
    (naming : callback.isNaming = false)
    : h.hear callback = h := by
  cases callback with
  | enter | exit | enterAlternative | exitAlternative => cases plain
  | discoverGrammar | modeDef => cases naming
  | _ => rfl

theorem during_of_plain (h : Heard) {callback : Callback} (plain : callback.isBracket = false)
    : h.during callback = h.hear callback := by
  cases callback <;> first | rfl | cases plain

theorem hear_opening (h : Heard) (scope : Scope)
    : h.hear scope.opening = { h with opened := scope :: h.opened } := by
  cases scope <;> rfl

theorem during_opening (h : Heard) (scope : Scope) : h.during scope.opening = h := by
  cases scope <;> rfl

theorem hear_closing (h : Heard) {scope : Scope} {opened : List Scope}
    (innermost : h.opened = scope :: opened)
    : h.hear scope.closing = { h with opened } := by
  have hopened : (h.hear scope.closing).opened = scope.closing.leavesOpen h.opened := rfl
  rw [innermost, scope.leavesOpen_closing] at hopened
  cases scope <;> exact congrArg (fun opened => { h with opened }) hopened

theorem during_closing (h : Heard) (scope : Scope)
    : h.during scope.closing = h.hear scope.closing := by
  cases scope <;> rfl

end Heard

-----------------------------------------------------------------------------------------
-- Parts of walks
-----------------------------------------------------------------------------------------

/-- What a part of a walk tells a listener: at all of its events and after it, the context tells
what was heard, and the part closes what it opens.
-/
def WalkState.Informs (h : Heard) (s after : WalkState) : Prop :=
  ∃ events,
    after.events = s.events ++ events
    ∧ h.Follows events
    ∧ (h.after events).opened = h.opened
    ∧ after.context.Tells (h.after events)

namespace WalkState

/-- A part that announces nothing. -/
theorem Informs.silent {h : Heard} {s after : WalkState} (hevents : after.events = s.events)
    (tells : after.context.Tells h)
    : s.Informs h after :=
  ⟨[], by rw [hevents, List.append_nil], trivial, rfl, tells⟩

/-- One part after another, where the second one follows what was heard in the first. -/
theorem Informs.trans {h : Heard} {s middle after : WalkState} (hf : s.Informs h middle)
    (hs
      : ∀ next : Heard,
          next.opened = h.opened → middle.context.Tells next → middle.Informs next after)
    : s.Informs h after := by
  obtain ⟨first, hfirst, follows, opened, tells⟩ := hf
  obtain ⟨second, hsecond, more, openedMore, tellsAfter⟩ := hs _ opened tells
  refine ⟨first ++ second, ?_, Heard.follows_append.mpr ⟨follows, more⟩, ?_, ?_⟩
  · rw [hsecond, hfirst, List.append_assoc]
  · rw [Heard.after_append, openedMore, opened]
  · rw [Heard.after_append]
    exact tellsAfter

theorem optionCallback_isNaming (s : WalkState) (id value : Node)
    : (s.optionCallback id value).isNaming = false := by
  unfold optionCallback
  split
  · split <;> rfl
  · rfl

theorem commandCallback_isNaming (s : WalkState) (id : Node) (arg : Option Node)
    : (s.commandCallback id arg).isNaming = false := by
  cases arg <;> rfl

/-- An announcement after which the context tells what was heard. -/
theorem Informs.announce {h : Heard} {s : WalkState} {callback : Callback}
    (plain : callback.isBracket = false) (tells : s.context.Tells (h.hear callback))
    : s.Informs h (s.announce callback) := by
  refine ⟨_, s.announce_events callback, ⟨?_, trivial⟩, ?_, tells⟩
  · rw [h.during_of_plain plain]
    exact tells
  · exact callback.leavesOpen_of_not_isBracket plain h.opened

/-- An announcement that names nothing. -/
theorem Informs.announce_plain {h : Heard} {s : WalkState} {callback : Callback}
    (plain : callback.isBracket = false) (naming : callback.isNaming = false)
    (tells : s.context.Tells h)
    : s.Informs h (s.announce callback) := by
  refine .announce plain ?_
  rw [h.hear_of_plain plain naming]
  exact tells

/-- What a part of a walk inside of a bracket tells a listener. At its events the bracket is open;
after it the context tells again what is around the bracket.
-/
def InformsWithin (h : Heard) (scope : Scope) (s after : WalkState) : Prop :=
  ∃ events,
    after.events = s.events ++ events
    ∧ (h.hear scope.opening).Follows events
    ∧ ((h.hear scope.opening).after events).opened = scope :: h.opened
    ∧ after.context.Tells { (h.hear scope.opening).after events with opened := h.opened }

/-- A part that tells what is open inside of a bracket tells what is around it, if the bracket is no
rule.
-/
theorem Informs.within {h : Heard} {scope : Scope} {s after : WalkState}
    (informs : s.Informs (h.hear scope.opening) after)
    (noRule : openRules (scope :: h.opened) = openRules h.opened)
    : s.InformsWithin h scope after := by
  obtain ⟨events, hevents, follows, opened, tells⟩ := informs
  rw [h.hear_opening] at opened
  refine ⟨events, hevents, follows, by rw [h.hear_opening]; exact opened, ?_⟩
  have hrule := tells.rule
  rw [h.hear_opening, opened, noRule] at hrule
  exact ⟨tells.grammar, tells.mode, hrule⟩

/-- A part between brackets tells what was heard, where it does inside of them. -/
theorem InformsWithin.bracket {h : Heard} {scope : Scope} {s entered body after : WalkState}
    (within : entered.InformsWithin h scope body)
    (hentered
      : entered.events = s.events ++ [{ callback := scope.opening, context := entered.context }])
    (hafter
      : after.events = body.events ++ [{ callback := scope.closing, context := body.context }])
    (tells : entered.context.Tells h)
    (tellsAfter : ∀ heard : Heard, body.context.Tells heard → after.context.Tells heard)
    : s.Informs h after := by
  obtain ⟨events, hevents, follows, opened, tellsBody⟩ := within
  have hclosing := ((h.hear scope.opening).after events).hear_closing opened
  let opening : Event := { callback := scope.opening, context := entered.context }
  let closing : Event := { callback := scope.closing, context := body.context }
  have hall
      : h.after (opening :: (events ++ [closing]))
        = { (h.hear scope.opening).after events with opened := h.opened } := by
    show (h.hear scope.opening).after (events ++ [closing]) = _
    rw [Heard.after_append]
    exact hclosing
  refine ⟨opening :: (events ++ [closing]), ?_, ?_, by rw [hall],
    tellsAfter _ (hall.symm ▸ tellsBody)⟩
  · rw [hafter, hevents, hentered, List.append_assoc, List.append_assoc]
    rfl
  · refine ⟨(h.during_opening scope).symm ▸ tells, Heard.follows_append.mpr ⟨follows, ?_, trivial⟩⟩
    rw [Heard.during_closing, hclosing]
    exact tellsBody

end WalkState

-----------------------------------------------------------------------------------------
-- Plans
-----------------------------------------------------------------------------------------

/-- What carries out visits informs a listener in each of them, where the outer levels of a grammar
are visited outside of rules.
-/
def Informing (go : Visit → WalkState → Outcome × WalkState) : Prop :=
  ∀ (h : Heard) (v : Visit) (s : WalkState),
    s.context.Tells h
    → (v.production.isOutside = true → openRules h.opened = [])
    → s.Informs h (go v s).2

/-- A confined plan informs a listener, by induction on the plan. What it announces itself names
nothing, and an alternative that it opens is no rule.
-/
theorem Plan.Confined.run_informs (resumes : Bool) {go : Visit → WalkState → Outcome × WalkState}
    (hgo : Informing go) {p : Production} {plan : Plan} (confined : plan.Confined p) {h : Heard}
    {s : WalkState} (tells : s.context.Tells h)
    (outside : p.isOutside = true → p.isRule = false → openRules h.opened = [])
    : s.Informs h (plan.run resumes go s).2 := by
  induction plan generalizing h s with
  | done | fail => exact .silent rfl tells
  | setGrammar | setMode | inRule => exact confined.elim
  | nextAlternative alt => exact .silent rfl ⟨tells.grammar, tells.mode, tells.rule.1, tells.rule.2⟩
  | seq first next ihFirst ihNext =>
      have hf := ihFirst confined.1 tells outside
      rw [run]
      split
      · rename_i after hrun
        rw [hrun] at hf
        refine hf.trans ?_
        intro heard opened tellsNext
        exact ihNext confined.2 tellsNext (opened ▸ outside)
      · exact hf
  | visit v =>
      refine hgo h v s tells ?_
      intro inside
      obtain ⟨isOutside, noRule⟩ := Production.isOutside_of_admits confined inside
      exact outside isOutside noRule
  | attempt plan ih =>
      have hp := ih confined tells outside
      rw [run]
      split
      · rename_i e after hrun
        rw [hrun] at hp
        cases resumes with
        | true =>
            refine hp.trans ?_
            intro heard opened tellsAfter
            exact .silent (after.report_events e) tellsAfter
        | false => exact hp
      · exact hp
  | announce callback => exact .announce_plain confined.1 confined.2.1 tells
  | announceOption id value =>
      exact .announce_plain (s.optionCallback_isBracket id value)
        (s.optionCallback_isNaming id value) tells
  | announceCommand id arg =>
      exact .announce_plain (s.commandCallback_isBracket id arg)
        (s.commandCallback_isNaming id arg) tells
  | inAlternative alt body ih =>
      have hb := ih (s := s.announce (.enterAlternative alt)) (h := h.hear (.enterAlternative alt))
        confined ⟨tells.grammar, tells.mode, tells.rule⟩ outside
      have within : WalkState.InformsWithin h (.alternative alt) _ _ := hb.within rfl
      exact within.bracket (s.announce_events _) (WalkState.announce_events _ _) tells (fun _ => id)
  | inSuffix body ih =>
      have hb := ih (s := s.setEbnfDepth (s.context.ebnfDepth + 1)) confined
        ⟨tells.grammar, tells.mode, tells.rule⟩ outside
      obtain ⟨events, hevents, follows, opened, tellsBody⟩ := hb
      exact ⟨events, hevents, follows, opened, tellsBody.grammar, tellsBody.mode, tellsBody.rule⟩

/-- A plan informs a listener inside of its production, by what the plan names. The rule of the
context is there where the listener has the rule open, and is put back after it.
-/
theorem Plan.Names.run_informs (resumes : Bool) {go : Visit → WalkState → Outcome × WalkState}
    (hgo : Informing go) {p : Production} {n : Node} {plan : Plan} (names : plan.Names p n)
    {h : Heard} {s : WalkState} (tells : s.context.Tells h)
    (outside : p.isOutside = true → openRules h.opened = [])
    : s.InformsWithin h (.production p n) (plan.run resumes go s).2 := by
  have hrules (noRule : p.isRule = false)
      : openRules (.production p n :: h.opened) = openRules h.opened := by
    simp [openRules, openVisits, Scope.visit?, noRule]
  -- Where nothing but the grammar or the mode was named, a confined plan goes on.
  have goesOn {named : WalkState} {body : Plan} (noRule : p.isRule = false)
      (confined : body.Confined p) (announced : s.Informs (h.hear (.enter p n)) named)
      : s.InformsWithin h (.production p n) (body.run resumes go named).2 := by
    refine WalkState.Informs.within (announced.trans ?_) (hrules noRule)
    intro heard opened tellsNext
    refine confined.run_informs resumes hgo tellsNext ?_
    intro isOutside _
    rw [opened]
    exact (hrules noRule).trans (outside isOutside)
  cases names with
  | fail e => exact ⟨[], (List.append_nil _).symm, trivial, rfl, tells⟩
  | nothing noRule confined =>
      have tellsInside : s.context.Tells (h.hear (.enter p n)) :=
        ⟨tells.grammar, tells.mode, hrules noRule ▸ tells.rule⟩
      exact goesOn noRule confined (.silent rfl tellsInside)
  | @grammar id body isRoot first confined =>
      have noRule : p.isRule = false := by
        rw [isRoot]
        rfl
      let named := s.setGrammar id.text
      have announced
          : named.Informs (h.hear (.enter p n)) (named.announce (.discoverGrammar n id)) := by
        refine .announce rfl ⟨?_, tells.mode, hrules noRule ▸ tells.rule⟩
        exact (congrArg (Option.map (·.text)) first).symm
      have informed := goesOn noRule confined announced
      exact informed
  | @mode id body isMode confined =>
      have noRule : p.isRule = false := by
        rw [isMode]
        rfl
      let named := s.setMode id.text
      have announced : named.Informs (h.hear (.enter p n)) (named.announce (.modeDef n id)) :=
        .announce rfl ⟨tells.grammar, rfl, hrules noRule ▸ tells.rule⟩
      have informed := goesOn noRule confined announced
      exact informed
  | @rule id body isRule first confined =>
      have isOutside : p.isOutside = true := by
        rcases Production.isRule_iff.mp isRule with rfl | rfl <;> rfl
      have hrule : openRules (.production p n :: h.opened) = [n] := by
        have hopened : openRules (.production p n :: h.opened) = n :: openRules h.opened := by
          simp [openRules, openVisits, Scope.visit?, isRule]
        rw [hopened, outside isOutside]
      have scope
          : (RuleScope.opening id.text n).Tells (openRules (.production p n :: h.opened)) := by
        rw [hrule]
        refine ⟨?_, fun hnil => (by cases hnil)⟩
        intro rule hmem
        obtain rfl := List.mem_singleton.mp hmem
        exact ⟨rfl, id, first, rfl⟩
      have inside := confined.run_informs resumes hgo (h := h.hear (.enter p n))
        (s := s.setRule (.opening id.text n)) ⟨tells.grammar, tells.mode, scope⟩
        (fun _ noRule => absurd isRule (by simp [noRule]))
      obtain ⟨events, hevents, follows, opened, tellsBody⟩ := inside
      exact ⟨events, hevents, follows, opened, tellsBody.grammar, tellsBody.mode, tells.rule⟩

-----------------------------------------------------------------------------------------
-- Productions and walks
-----------------------------------------------------------------------------------------

/-- Visits inform a listener, whatever room they have, by induction on the room. -/
theorem Visit.run_informing (config : WalkerConfig) (room : Nat)
    : Informing (run config room) := by
  induction room with
  | zero =>
      intro h v s tells _
      exact .silent rfl tells
  | succ room ih =>
      intro h v s tells outside
      have entered : (s.enter v).context.Tells h := ⟨tells.grammar, tells.mode, tells.rule⟩
      have within := v.plan_names.run_informs config.resumesOnMismatch ih entered outside
      refine within.bracket (WalkState.announce_events _ _) ?_ entered ?_
      · exact WalkState.announce_events _ (.exit v.production v.node)
      · intro heard tellsBody
        exact ⟨tellsBody.grammar, tellsBody.mode, tellsBody.rule⟩

/-- A listener that follows events reads the right thing at each of them. -/
theorem Heard.Follows.at {h : Heard} {before rest : List Event} {e : Event}
    (follows : h.Follows (before ++ e :: rest))
    : e.context.Tells ((h.after before).during e.callback) :=
  (follows_append.mp follows).2.1

namespace Walker

theorem conclude_events (w : Walker) (outcome : Outcome)
    : (w.conclude outcome).2.state.events = w.state.events := by
  cases outcome with
  | ok => rfl
  | error e =>
      rw [conclude]
      split
      · exact w.state.report_events e
      · rfl

/-- At every callback of a walk of a whole grammar that starts with a production, the context tells
what the callbacks so far have told: the grammar once it is discovered, the latest mode or else the
configured one, and the rule strictly between its enter and its exit.
-/
theorem visitGrammar_informs {w : Walker} {p : Production}
    (entry : w.registry.get? w.config.startProduction = some (.production p)) (tree : Node)
    : ∃ outcome after events,
        w.serve (.visitGrammar tree) = some (outcome, after)
        ∧ after.state.events = w.state.events ++ events
        ∧ ∀ before e rest,
            events = before ++ e :: rest
            → e.context.Tells
                (((Heard.start w.config.defaultMode).after before).during e.callback) := by
  have tells : w.beginning.context.Tells (.start w.config.defaultMode) :=
    ⟨rfl, rfl, by simp [openRules, Heard.start, openVisits], fun _ => ⟨rfl, rfl⟩⟩
  have informs
      : w.beginning.Informs (.start w.config.defaultMode)
          ((Visit.of p tree).start w.config w.beginning).2 :=
    Visit.run_informing w.config _ _ (.of p tree) w.beginning tells (fun _ => rfl)
  obtain ⟨events, hevents, follows, -, -⟩ := informs
  refine ⟨_, _, events, serve_visitGrammar_of_production entry tree,
    (conclude_events _ _).trans hevents, ?_⟩
  intro before e rest hsplit
  rw [hsplit] at follows
  exact follows.at

/-- The context is right at every callback of a walk of a grammar with a nameless rule. -/
theorem visitGrammar_informs_at_namelessRule
    : (create {}).registry.get? (create {}).config.startProduction
        = some (.production .grammarSpec)
      ∧ ∃ outcome after events,
          (create {}).serve (.visitGrammar namelessRuleGrammar) = some (outcome, after)
          ∧ after.state.events = (create {}).state.events ++ events
          ∧ ∀ before e rest,
              events = before ++ e :: rest
              → e.context.Tells
                  (((Heard.start (create {}).config.defaultMode).after before).during e.callback) :=
  ⟨rfl, visitGrammar_informs rfl namelessRuleGrammar⟩

end Walker

end GrammarFrontend
