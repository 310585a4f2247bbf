import GrammarFrontend.Proofs.Walk.Depth
import GrammarFrontend.Proofs.Walk.Instructions
import GrammarFrontend.Proofs.Walk.Restoration

/-! Walks as words of visits inside of visits. Every visit in the word is one that the visit around
it leads to. The visit of an option stands for its own word, in which the option is announced if it
is accepted, and nowhere else is an option announced.
-/

namespace GrammarFrontend

-----------------------------------------------------------------------------------------
-- One option
-----------------------------------------------------------------------------------------

/-- The identifier and the value of an option, if the node has the shape of one. -/
def Node.option? (n : Node) : Option (Node × Node) :=
  match n.children with
  | [id, value] =>
      if n.kind = .assign ∧ id.kind = .id ∧ value.kind ∈ Plan.optionValueKinds then some (id, value)
      else none
  | _ => none

/-- The callback of an option, by the nodes around it. -/
def optionAmong (around : List Node) (id value : Node) : Callback :=
  match around.find? ([NodeKind.rule, .block].contains ·.kind) with
  | some owner => if owner.kind == .block then .blockOption owner id value else .ruleOption id value
  | none => .grammarOption id value

section Among

variable {n : Node} {around : List Node}

theorem optionAmong_cons_of_other (h : [NodeKind.rule, .block].contains n.kind = false)
    : optionAmong (n :: around) = optionAmong around := by
  funext id value
  rw [optionAmong, optionAmong, List.find?_cons, h]

theorem optionAmong_cons_of_rule (h : n.kind = .rule)
    : optionAmong (n :: around) = .ruleOption := by
  funext id value
  simp [optionAmong, h]

theorem optionAmong_cons_of_block (h : n.kind = .block)
    : optionAmong (n :: around) = .blockOption n := by
  funext id value
  simp [optionAmong, h]

/-- The callback of an option tells the kind that is found first among the kinds of the nodes. -/
theorem optionAmong_owner (around : List Node) (id value : Node)
    : (optionAmong around id value).optionOwner?
      = some ((around.map (·.kind)).find? ([.rule, .block].contains ·)) := by
  induction around with
  | nil => rfl
  | cons n around ih =>
      rw [List.map_cons, List.find?_cons]
      cases h : [NodeKind.rule, .block].contains n.kind with
      | false => rw [optionAmong_cons_of_other h, ih]
      | true =>
          rcases (by simpa using h : n.kind = .rule ∨ n.kind = .block) with hkind | hkind
          · rw [optionAmong_cons_of_rule hkind, hkind]
            rfl
          · rw [optionAmong_cons_of_block hkind, hkind]
            rfl

end Among

/-- What is announced inside of an option: if it has the shape of one and there is room for its
value, then the value is entered and left, and the option is announced. Otherwise it is nothing.
-/
def optionWord (limit : Nat) (option : Node) (callback : Node → Node → Callback)
    (entered : Context)
    : List Event :=
  match option.option? with
  | some (id, value) =>
      if entered.path.length < limit then
        let inside := { entered with path := value.kind :: entered.path }
        [
          ⟨.enter .optionValue value, inside⟩,
          ⟨.exit .optionValue value, inside⟩,
          ⟨callback id value, entered⟩
        ]
      else
        []
  | none => []

section Word

variable {limit : Nat} {option id value : Node} {callback : Node → Node → Callback}
  {entered : Context}

theorem optionWord_of_none (h : option.option? = none)
    : optionWord limit option callback entered = [] := by
  simp only [optionWord, h]

theorem optionWord_of_full (h : limit ≤ entered.path.length)
    : optionWord limit option callback entered = [] := by
  rw [optionWord]
  split
  · exact if_neg (Nat.not_lt.mpr h)
  · rfl

theorem optionWord_of_room (h : option.option? = some (id, value))
    (room : entered.path.length < limit)
    : optionWord limit option callback entered
      = [
          ⟨.enter .optionValue value, { entered with path := value.kind :: entered.path }⟩,
          ⟨.exit .optionValue value, { entered with path := value.kind :: entered.path }⟩,
          ⟨callback id value, entered⟩
        ] := by
  simp only [optionWord, h]
  exact if_pos room

end Word

namespace Plan

theorem optionDef_of_some {n id value : Node} (h : n.option? = some (id, value))
    : value.kind ∈ optionValueKinds
      ∧ optionDef n = steps [visitAs .optionValue value, announceOption id value] := by
  unfold Node.option? at h
  split at h
  · rename_i first second children
    split at h
    · rename_i kinds
      obtain ⟨isAssign, isId, isValue⟩ := kinds
      cases h
      refine ⟨isValue, ?_⟩
      rw [optionDef, Shape.requireKind_eq_ok (u := ()).mpr (by simp [isAssign]),
        Shape.expect_eq_ok.mpr ⟨children, by simp [isId]⟩]
      show ofReading (Shape.expect _ _ [value] >>= _) = _
      rw [Shape.expect_eq_ok.mpr ⟨rfl, isValue⟩]
      rfl
    · cases h
  · cases h

theorem optionDef_of_none {n : Node} (h : n.option? = none) : ∃ e, optionDef n = fail e := by
  refine ofReading_bind_elim (motive := fun plan => ∃ e, plan = fail e) (fun e => ⟨e, rfl⟩) ?_
  intro _ hkind
  refine ofReading_bind_elim (motive := fun plan => ∃ e, plan = fail e) (fun e => ⟨e, rfl⟩) ?_
  intro first hfirst
  refine ofReading_bind_elim (motive := fun plan => ∃ e, plan = fail e) (fun e => ⟨e, rfl⟩) ?_
  intro second hsecond
  refine ofReading_bind_elim (motive := fun plan => ∃ e, plan = fail e) (fun e => ⟨e, rfl⟩) ?_
  intro _ hfinish
  obtain ⟨id, rest⟩ := first
  obtain ⟨value, last⟩ := second
  obtain ⟨children, isId⟩ := Shape.expect_eq_ok.mp hfirst
  obtain ⟨tail, isValue⟩ := Shape.expect_eq_ok.mp hsecond
  obtain rfl : last = [] := Shape.finish_eq_ok.mp hfinish
  have isAssign := Shape.requireKind_eq_ok.mp hkind
  obtain rfl : rest = [value] := tail
  simp only [List.mem_singleton] at isAssign isId
  simp [Node.option?, children, isAssign, isId, isValue] at h

end Plan

namespace WalkState

/-- The visits that a state is inside of, the innermost first: the stack has their nodes and the
path the kinds of these.
-/
structure IsInside (s : WalkState) (opened : List Visit) : Prop where
  stack : s.stack = opened.map (·.node)
  path : s.context.path = opened.map (·.node.kind)

theorem IsInside.enter {s : WalkState} {opened : List Visit} (h : s.IsInside opened) (v : Visit)
    : (s.enter v).IsInside (v :: opened) :=
  ⟨congrArg (v.node :: ·) h.stack, congrArg (v.node.kind :: ·) h.path⟩

/-- What restores the context leaves the state inside of the same visits. -/
theorem IsInside.after {s after : WalkState} {opened : List Visit} {moves : Bool}
    (h : s.IsInside opened) (restores : s.Restores moves after)
    : after.IsInside opened :=
  ⟨restores.stack.trans h.stack, restores.path.trans h.path⟩

end WalkState

namespace Visit

variable {config : WalkerConfig} {v : Visit}

/-- The value of an option is entered and left, if there is room. -/
theorem run_optionValue {value : Node} (isValue : value.kind ∈ Plan.optionValueKinds) (room : Nat)
    (s : WalkState)
    : (of .optionValue value).run config (room + 1) s
      = (.ok (), (s.enter (of .optionValue value)).exit (of .optionValue value)) := by
  have hplan : (of .optionValue value).plan = .done := by
    show Plan.optionValue value = _
    rw [Plan.optionValue, Shape.requireKind_eq_ok (u := ()).mpr isValue]
    rfl
  rw [run, hplan]
  rfl

/-- An option is accepted exactly if it has the shape of one and there is room for its value. -/
theorem run_optionDef_eq_ok (isOption : v.production = .optionDef) (room : Nat) (s : WalkState)
    : (v.run config room s).1 = .ok () ↔ v.node.option?.isSome = true ∧ 1 < room := by
  have hplan : v.plan = Plan.optionDef v.node := by rw [plan, isOption]
  cases room with
  | zero => simp [run]
  | succ room =>
      rw [run, hplan]
      cases hoption : v.node.option? with
      | none =>
          obtain ⟨e, hfail⟩ := Plan.optionDef_of_none hoption
          rw [hfail]
          show (Except.error (e.locate v.node.span) : Outcome) = .ok () ↔ _
          simp
      | some read =>
          obtain ⟨isValue, hsteps⟩ := Plan.optionDef_of_some hoption
          rw [hsteps]
          cases room with
          | zero =>
              show (Except.error ((WalkError.recursionLimit _).locate _) : Outcome) = .ok () ↔ _
              simp
          | succ room =>
              simp only [Plan.steps, Plan.visitAs, Plan.run, run_optionValue isValue]
              exact iff_of_true rfl ⟨rfl, by omega⟩

/-- What is announced inside of an option is its word. -/
theorem run_optionDef_events (isOption : v.production = .optionDef) {opened : List Visit}
    {s : WalkState} (inside : s.IsInside opened) {room : Nat}
    (hroom : room + 1 + opened.length = config.maxDepth)
    : (v.plan.run config.resumesOnMismatch (run config room) (s.enter v)).2.events
      = (s.enter v).events
        ++ optionWord config.maxDepth v.node (optionAmong (opened.map (·.node)))
            (s.enter v).context := by
  have hlength : (s.enter v).context.path.length = opened.length + 1 := by
    rw [(inside.enter v).path, List.length_map, List.length_cons]
  have hplan : v.plan = Plan.optionDef v.node := by rw [plan, isOption]
  cases hoption : v.node.option? with
  | none =>
      obtain ⟨e, hfail⟩ := Plan.optionDef_of_none hoption
      rw [hplan, hfail, optionWord_of_none hoption, List.append_nil]
      rfl
  | some read =>
      obtain ⟨id, value⟩ := read
      obtain ⟨isValue, hsteps⟩ := Plan.optionDef_of_some hoption
      cases room with
      | zero =>
          rw [hplan, hsteps, optionWord_of_full (by omega), List.append_nil]
          rfl
      | succ room =>
          let read := ((s.enter v).enter (of .optionValue value)).exit (of .optionValue value)
          have hcallback
              : read.optionCallback id value = optionAmong (opened.map (·.node)) id value := by
            rw [← inside.stack]
            rfl
          have hrun
              : v.plan.run config.resumesOnMismatch (run config (room + 1)) (s.enter v)
                = (.ok (), read.announce (read.optionCallback id value)) := by
            rw [hplan, hsteps]
            simp only [Plan.steps, Plan.visitAs, Plan.run, run_optionValue isValue]
            rfl
          rw [hrun, optionWord_of_room hoption (by omega), WalkState.announce_events,
            WalkState.exit_events, WalkState.enter_events, hcallback, List.append_assoc,
            List.append_assoc]
          rfl

end Visit

-----------------------------------------------------------------------------------------
-- Words of visits inside of visits
-----------------------------------------------------------------------------------------

/-- What a walk from a root can visit inside of open visits: the root if there are none, and else
what the innermost leads to.
-/
def Visit.LedBy (root v : Visit) : List Visit → Prop
  | [] => v = root
  | outer :: _ => outer.Leads v

/-- Visits that a walk from a root may have open at once, the innermost first. -/
inductive Visit.Nested (root : Visit) : List Visit → Prop
  | nil : Nested root []
  | cons {v : Visit} {opened : List Visit} (led : root.LedBy v opened) (nested : Nested root opened)
    : Nested root (v :: opened)

/-- A word of events inside of open visits, the innermost first. Every visit in it is made by the
one around it, and options are announced by the visits of options only.
-/
inductive Unfolds (limit : Nat) (root : Visit) : List Visit → List Event → Prop
  | nil {opened : List Visit} : Unfolds limit root opened []
  | announce {opened : List Visit} {e : Event} {events : List Event}
    (plain : e.callback.isBracket = false) (noOption : e.callback.optionOwner? = none)
    (more : Unfolds limit root opened events)
    : Unfolds limit root opened (e :: events)
  | alternative {opened : List Visit} {alt : Node} {entered left : Context}
    {body events : List Event}
    (inner : Unfolds limit root opened body)
    (more : Unfolds limit root opened events)
    : Unfolds limit root opened
        (⟨.enterAlternative alt, entered⟩ :: body ++ ⟨.exitAlternative alt, left⟩ :: events)
  | visit {opened : List Visit} {v : Visit} {entered left : Context} {body events : List Event}
    (noOption : v.production ≠ .optionDef) (led : root.LedBy v opened)
    (inner : Unfolds limit root (v :: opened) body)
    (more : Unfolds limit root opened events)
    : Unfolds limit root opened
        (⟨.enter v.production v.node, entered⟩ :: body
          ++ ⟨.exit v.production v.node, left⟩ :: events)
  | option {opened : List Visit} {v : Visit} {entered left : Context} {events : List Event}
    (isOption : v.production = .optionDef) (led : root.LedBy v opened)
    (path : entered.path = (v :: opened).map (·.node.kind))
    (more : Unfolds limit root opened events)
    : Unfolds limit root opened
        (⟨.enter .optionDef v.node, entered⟩
            :: optionWord limit v.node (optionAmong (opened.map (·.node))) entered
          ++ ⟨.exit .optionDef v.node, left⟩ :: events)

/-- Words inside of the same visits join to one, by induction on the first. -/
theorem Unfolds.append {limit : Nat} {root : Visit} {opened : List Visit}
    {first second : List Event} (hf : Unfolds limit root opened first)
    (hs : Unfolds limit root opened second)
    : Unfolds limit root opened (first ++ second) := by
  induction hf with
  | nil => exact hs
  | announce plain noOption _ ih => exact .announce plain noOption (ih hs)
  | alternative inner _ _ ih =>
      rw [List.append_assoc]
      exact .alternative inner (ih hs)
  | visit noOption led inner _ _ ih =>
      rw [List.append_assoc]
      exact .visit noOption led inner (ih hs)
  | option isOption led path _ ih =>
      rw [List.append_assoc]
      exact .option isOption led path (ih hs)

namespace WalkState

/-- A part of a walk adds a word inside of open visits. -/
def Expands (limit : Nat) (root : Visit) (opened : List Visit) (s after : WalkState) : Prop :=
  ∃ events, after.events = s.events ++ events ∧ Unfolds limit root opened events

variable {limit : Nat} {root : Visit} {opened : List Visit} {s middle after : WalkState}

theorem Expands.silent (h : after.events = s.events) : s.Expands limit root opened after :=
  ⟨[], by rw [h, List.append_nil], .nil⟩

theorem Expands.trans (hf : s.Expands limit root opened middle)
    (hs : middle.Expands limit root opened after)
    : s.Expands limit root opened after := by
  obtain ⟨first, hfirst, unfolds⟩ := hf
  obtain ⟨second, hsecond, more⟩ := hs
  exact ⟨first ++ second, by rw [hsecond, hfirst, List.append_assoc], unfolds.append more⟩

theorem Expands.announce {callback : Callback} (plain : callback.isBracket = false)
    (noOption : callback.optionOwner? = none)
    : s.Expands limit root opened (s.announce callback) :=
  ⟨_, s.announce_events callback, .announce plain noOption .nil⟩

theorem commandCallback_optionOwner? (s : WalkState) (id : Node) (arg : Option Node)
    : (s.commandCallback id arg).optionOwner? = none := by
  cases arg <;> rfl

end WalkState

/-- A plan of a visit that is no option adds a word inside of it, by induction on the plan. What the
plan can do at each step is known from the visit, and what it has done before left the state inside
of the same visits.
-/
theorem Plan.run_expands {limit : Nat} {root : Visit} {resumes : Bool}
    {go : Visit → WalkState → Outcome × WalkState} {v : Visit} {opened : List Visit}
    (hgo
      : ∀ (u : Visit) (s : WalkState),
          u.Proper
          → v.Leads u
          → s.IsInside (v :: opened)
          → s.Expands limit root (v :: opened) (go u s).2)
    (restores : ∀ (u : Visit) (s : WalkState), s.Restores u.production.isRuleBlock (go u s).2)
    (noOption : v.production ≠ .optionDef) {outer : Production × Node} {plan : Plan} {inside : Bool}
    (keeps : plan.Keeps outer inside) (takes : plan.Every v.Takes) (descends : plan.Descends v)
    {s : WalkState} (hs : s.IsInside (v :: opened))
    : s.Expands limit root (v :: opened) (plan.run resumes go s).2 := by
  induction plan generalizing inside s with
  | done | fail | setGrammar | setMode | nextAlternative => exact .silent rfl
  | visit u => exact hgo u s descends.1 takes hs
  | announce callback => exact .announce keeps.2 takes
  | announceOption id value => exact (noOption takes).elim
  | announceCommand id arg =>
      exact .announce (s.commandCallback_isBracket id arg) (s.commandCallback_optionOwner? id arg)
  | seq first next ihFirst ihNext =>
      have hf := ihFirst keeps.1 takes.1 descends.1 hs
      have restored := first.run_restores resumes restores s
      rw [run]
      generalize first.run resumes go s = result at hf restored ⊢
      obtain ⟨outcome, middle⟩ := result
      cases outcome with
      | ok => exact hf.trans (ihNext keeps.2 takes.2 descends.2 (hs.after restored))
      | error e => exact hf
  | attempt plan ih =>
      have hp := ih keeps takes.2 descends hs
      rw [run]
      generalize plan.run resumes go s = result at hp ⊢
      obtain ⟨outcome, after⟩ := result
      cases outcome with
      | ok => exact hp
      | error e =>
          cases resumes with
          | true => exact hp.trans (.silent (after.report_events e))
          | false => exact hp
  | inRule name node body ih =>
      exact ih (s := s.setRule (.opening name node)) keeps takes descends ⟨hs.stack, hs.path⟩
  | inSuffix body ih =>
      exact ih (s := s.setEbnfDepth (s.context.ebnfDepth + 1)) keeps.2 takes descends
        ⟨hs.stack, hs.path⟩
  | inAlternative alt body ih =>
      obtain ⟨events, hevents, unfolds⟩ :=
        ih (s := s.announce (.enterAlternative alt)) keeps.2 takes descends ⟨hs.stack, hs.path⟩
      let entered := s.announce (.enterAlternative alt)
      let left := (body.run resumes go entered).2
      refine
        ⟨⟨.enterAlternative alt, s.context⟩ :: events ++ [⟨.exitAlternative alt, left.context⟩],
          ?_, .alternative unfolds .nil⟩
      rw [run, WalkState.announce_events, hevents, WalkState.announce_events, List.append_assoc,
        List.append_assoc]
      rfl

/-- A visit adds a word inside of the open visits, by induction on the room, which is what they
leave of the limit.
-/
theorem Visit.run_expands (config : WalkerConfig) (room : Nat) {root v : Visit} (proper : v.Proper)
    {opened : List Visit} (led : root.LedBy v opened) {s : WalkState} (inside : s.IsInside opened)
    (hroom : room + opened.length = config.maxDepth)
    : s.Expands config.maxDepth root opened (v.run config room s).2 := by
  induction room generalizing v opened s with
  | zero => exact .silent rfl
  | succ room ih =>
      by_cases isOption : v.production = .optionDef
      · have hevents := run_optionDef_events isOption inside hroom
        have path : (s.enter v).context.path = (v :: opened).map (·.node.kind) :=
          (inside.enter v).path
        have added := run_events hevents
        rw [isOption] at added
        exact ⟨_, added, .option isOption led path .nil⟩
      · have hgo (u : Visit) (t : WalkState) (properInside : u.Proper) (leads : v.Leads u)
            (ht : t.IsInside (v :: opened))
            : t.Expands config.maxDepth root (v :: opened) (u.run config room t).2 := by
          have led : root.LedBy u (v :: opened) := leads
          refine ih properInside led ht ?_
          rw [List.length_cons]
          omega
        obtain ⟨events, hevents, unfolds⟩ :=
          @Plan.run_expands _ _ config.resumesOnMismatch _ v _ hgo (run_restores config room)
            isOption _ _ false v.plan_keeps (v.plan_takes proper) (v.plan_descends proper) _
            (inside.enter v)
        exact ⟨_, run_events hevents, .visit isOption led unfolds .nil⟩

-----------------------------------------------------------------------------------------
-- Where a word enters options
-----------------------------------------------------------------------------------------

theorem optionAmong_isBracket (around : List Node) (id value : Node)
    : (optionAmong around id value).isBracket = false := by
  unfold optionAmong
  split
  · split <;> rfl
  · rfl

/-- The word of an option is empty, or it is its value and the callback. -/
theorem optionWord_cases (limit : Nat) (option : Node) (callback : Node → Node → Callback)
    (entered : Context)
    : optionWord limit option callback entered = []
      ∨ ∃ id value inside,
          optionWord limit option callback entered
          = [
              ⟨.enter .optionValue value, inside⟩,
              ⟨.exit .optionValue value, inside⟩,
              ⟨callback id value, entered⟩
            ] := by
  rw [optionWord]
  split
  · rename_i id value _
    split
    · exact .inr ⟨id, value, _, rfl⟩
    · exact .inl rfl
  · exact .inl rfl

/-- The word of an option leaves open what was open. -/
theorem stillOpen_optionWord (scopes : List Scope) (limit : Nat) (option : Node)
    (around : List Node) (entered : Context)
    : stillOpen scopes (optionWord limit option (optionAmong around) entered) = scopes := by
  rcases optionWord_cases limit option (optionAmong around) entered with
    h | ⟨id, value, inside, h⟩
  · rw [h]
    rfl
  · simp only [h, stillOpen, List.foldl_cons, List.foldl_nil,
      Callback.leavesOpen_of_not_isBracket (optionAmong_isBracket around id value)]
    exact Scope.leavesOpen_closing (.production .optionValue value) scopes

/-- No option is entered in the word of an option. -/
theorem enter_not_mem_optionWord (other : Node) (context : Context) (limit : Nat) (option : Node)
    (around : List Node) (entered : Context)
    : ⟨.enter .optionDef other, context⟩
      ∉ optionWord limit option (optionAmong around) entered := by
  rcases optionWord_cases limit option (optionAmong around) entered with
    h | ⟨id, value, inside, h⟩
  · simp [h]
  · have plain := optionAmong_isBracket around id value
    intro hmem
    rw [h] at hmem
    simp only [List.mem_cons, List.not_mem_nil, or_false, Event.mk.injEq, Callback.enter.injEq,
      reduceCtorEq, false_and, false_or] at hmem
    rw [← hmem.1] at plain
    cases plain

/-- A word inside of open visits leaves open what was open, by induction on the word. -/
theorem Unfolds.stillOpen_eq {limit : Nat} {root : Visit} {opened : List Visit}
    {events : List Event} (unfolds : Unfolds limit root opened events) (scopes : List Scope)
    : stillOpen scopes events = scopes := by
  induction unfolds generalizing scopes with
  | nil => rfl
  | announce plain _ _ ih =>
      rw [stillOpen_cons, Callback.leavesOpen_of_not_isBracket plain]
      exact ih scopes
  | @alternative _ alt _ _ _ _ _ _ ihInner ihMore =>
      rw [stillOpen_bracketed (.alternative alt) rfl rfl (ihInner _), ihMore]
  | @visit _ v _ _ _ _ _ _ _ _ ihInner ihMore =>
      rw [stillOpen_bracketed (.production v.production v.node) rfl rfl (ihInner _), ihMore]
  | @option opened v _ _ _ _ _ _ _ ih =>
      rw [stillOpen_bracketed (.production .optionDef v.node) rfl rfl
        (stillOpen_optionWord _ _ _ _ _), ih]

/-- An event of a bracketed word is the first, inside of the brackets, the last, or after them. -/
theorem split_bracketed {before body more rest : List Event} {first last e : Event}
    (h : first :: body ++ last :: more = before ++ e :: rest)
    : (before = [] ∧ e = first ∧ rest = body ++ last :: more)
      ∨ (∃ inner tail,
          before = first :: inner ∧ body = inner ++ e :: tail ∧ rest = tail ++ last :: more)
      ∨ (before = first :: body ∧ e = last)
      ∨ ∃ later, before = first :: body ++ last :: later ∧ more = later ++ e :: rest := by
  cases before with
  | nil =>
      obtain ⟨rfl, rfl⟩ := List.cons.inj h
      exact .inl ⟨rfl, rfl, rfl⟩
  | cons head before =>
      obtain ⟨rfl, htail⟩ := List.cons.inj h
      rcases List.append_eq_append_iff.mp htail with ⟨later, rfl, hlast⟩ | ⟨tail, rfl, hrest⟩
      · cases later with
        | nil =>
            obtain ⟨rfl, rfl⟩ := List.cons.inj hlast
            exact .inr (.inr (.inl ⟨by simp, rfl⟩))
        | cons _ later =>
            obtain ⟨rfl, rfl⟩ := List.cons.inj hlast
            exact .inr (.inr (.inr ⟨later, rfl, rfl⟩))
      · cases tail with
        | nil =>
            obtain ⟨rfl, rfl⟩ := List.cons.inj hrest
            exact .inr (.inr (.inl ⟨by simp, rfl⟩))
        | cons _ tail =>
            obtain ⟨rfl, rfl⟩ := List.cons.inj hrest
            exact .inr (.inl ⟨before, tail, rfl, rfl, rfl⟩)

/-- An option is entered inside of open visits, and its word follows. -/
structure EntersOption (limit : Nat) (root : Visit) (around : List Visit) (option : Node)
    (entered : Context) (rest : List Event) : Prop where
  nested
    : ∃ v : Visit, v.production = .optionDef ∧ v.node = option ∧ root.Nested (v :: around)
  path : entered.path = option.kind :: around.map (·.node.kind)
  word
    : ∃ left more,
        rest
        = optionWord limit option (optionAmong (around.map (·.node))) entered
          ++ ⟨.exit .optionDef option, left⟩ :: more

theorem EntersOption.append {limit : Nat} {root : Visit} {around : List Visit} {option : Node}
    {entered : Context} {rest : List Event}
    (h : EntersOption limit root around option entered rest) (events : List Event)
    : EntersOption limit root around option entered (rest ++ events) := by
  obtain ⟨left, more, hrest⟩ := h.word
  refine ⟨h.nested, h.path, left, more ++ events, ?_⟩
  rw [hrest, List.append_assoc]
  rfl

/-- Where a word enters an option, the visits that are open are nested and are those that the events
before leave open. The induction is on the word.
-/
theorem Unfolds.entersOption {limit : Nat} {root : Visit} {opened : List Visit}
    {events : List Event} (unfolds : Unfolds limit root opened events) (nested : root.Nested opened)
    {before rest : List Event} {option : Node} {entered : Context}
    (split : events = before ++ ⟨.enter .optionDef option, entered⟩ :: rest) (scopes : List Scope)
    (hscopes : openVisits scopes = opened.map (fun v => (v.production, v.node)))
    : ∃ around,
        openVisits (stillOpen scopes before) = around.map (fun v => (v.production, v.node))
        ∧ EntersOption limit root around option entered rest := by
  induction unfolds generalizing before rest scopes with
  | nil => simp at split
  | @announce _ e _ plain _ _ ih =>
      cases before with
      | nil =>
          obtain ⟨rfl, -⟩ := List.cons.inj split
          cases plain
      | cons _ before =>
          obtain ⟨rfl, htail⟩ := List.cons.inj split
          rw [stillOpen_cons, Callback.leavesOpen_of_not_isBracket plain]
          exact ih nested htail scopes hscopes
  | @alternative _ alt _ _ _ _ inner _ ihInner ihMore =>
      rcases split_bracketed split with
        ⟨-, h, -⟩ | ⟨_, tail, rfl, hbody, rfl⟩ | ⟨-, h⟩ | ⟨_, rfl, hmore⟩
      · cases h
      · obtain ⟨around, hopen, enters⟩ :=
          ihInner nested hbody (.alternative alt :: scopes) hscopes
        exact ⟨around, hopen, enters.append _⟩
      · cases h
      · rw [stillOpen_bracketed (.alternative alt) rfl rfl (inner.stillOpen_eq _)]
        exact ihMore nested hmore scopes hscopes
  | @visit _ v _ _ _ _ noOption led inner _ ihInner ihMore =>
      rcases split_bracketed split with
        ⟨-, h, -⟩ | ⟨_, tail, rfl, hbody, rfl⟩ | ⟨-, h⟩ | ⟨_, rfl, hmore⟩
      · injection h with hcallback
        injection hcallback with isOption
        exact (noOption isOption.symm).elim
      · have hinside
            : openVisits (.production v.production v.node :: scopes)
              = (v :: _).map (fun v => (v.production, v.node)) :=
          congrArg ((v.production, v.node) :: ·) hscopes
        obtain ⟨around, hopen, enters⟩ :=
          ihInner (nested.cons led) hbody _ hinside
        exact ⟨around, hopen, enters.append _⟩
      · cases h
      · rw [stillOpen_bracketed (.production v.production v.node) rfl rfl (inner.stillOpen_eq _)]
        exact ihMore nested hmore scopes hscopes
  | @option opened v context left _ isOption led path _ ih =>
      rcases split_bracketed split with
        ⟨rfl, h, rfl⟩ | ⟨_, tail, -, hbody, -⟩ | ⟨-, h⟩ | ⟨_, rfl, hmore⟩
      · cases h
        exact ⟨opened, hscopes, ⟨v, isOption, rfl, nested.cons led⟩, path, left, _, rfl⟩
      · refine (enter_not_mem_optionWord option entered limit v.node (opened.map (·.node)) context
          ?_).elim
        rw [hbody]
        simp
      · cases h
      · rw [stillOpen_bracketed (.production .optionDef v.node) rfl rfl
          (stillOpen_optionWord _ _ _ _ _)]
        exact ih nested hmore scopes hscopes

/-- The event is the callback of an option in the word: the option is entered, its value is entered
and left, and this event is the next.
-/
def ClosesOption (events : List Event) (e : Event) : Prop :=
  ∃ before option entered value inside left more,
    events
    = before
      ++ ⟨.enter .optionDef option, entered⟩
        :: ⟨.enter .optionValue value, inside⟩ :: ⟨.exit .optionValue value, left⟩ :: e :: more

/-- More events around a word do not matter. -/
theorem ClosesOption.within {word events : List Event} {e : Event} (h : ClosesOption word e)
    (inside : word <:+: events)
    : ClosesOption events e := by
  obtain ⟨before, option, entered, value, context, left, more, rfl⟩ := h
  obtain ⟨first, last, rfl⟩ := inside
  exact ⟨first ++ before, option, entered, value, context, left, more ++ last, by simp⟩

theorem infix_bracketed (first last : Event) (body more : List Event)
    : body <:+: first :: body ++ last :: more ∧ more <:+: first :: body ++ last :: more :=
  ⟨⟨[first], last :: more, rfl⟩, ⟨first :: body ++ [last], [], by simp⟩⟩

/-- Every callback of an option in a word is that of an option which the word enters, by induction
on the word.
-/
theorem Unfolds.closesOption {limit : Nat} {root : Visit} {opened : List Visit}
    {events : List Event} (unfolds : Unfolds limit root opened events) {e : Event} (he : e ∈ events)
    (isOption : e.callback.optionOwner? ≠ none)
    : ClosesOption events e := by
  induction unfolds with
  | nil => cases he
  | @announce _ first events _ noOption _ ih =>
      rcases List.mem_cons.mp he with rfl | he
      · exact (isOption noOption).elim
      · exact (ih he).within (List.suffix_cons first events).isInfix
  | alternative _ _ ihInner ihMore =>
      obtain ⟨inside, later⟩ := infix_bracketed _ _ _ _
      simp only [List.cons_append, List.mem_cons, List.mem_append] at he
      rcases he with rfl | he | rfl | he
      · exact (isOption rfl).elim
      · exact (ihInner he).within inside
      · exact (isOption rfl).elim
      · exact (ihMore he).within later
  | visit _ _ _ _ ihInner ihMore =>
      obtain ⟨inside, later⟩ := infix_bracketed _ _ _ _
      simp only [List.cons_append, List.mem_cons, List.mem_append] at he
      rcases he with rfl | he | rfl | he
      · exact (isOption rfl).elim
      · exact (ihInner he).within inside
      · exact (isOption rfl).elim
      · exact (ihMore he).within later
  | @option opened v entered left events _ _ _ _ ih =>
      simp only [List.cons_append, List.mem_cons, List.mem_append] at he
      rcases he with rfl | he | rfl | he
      · exact (isOption rfl).elim
      · rcases optionWord_cases limit v.node (optionAmong (opened.map (·.node))) entered with
          h | ⟨id, value, inside, h⟩
        · rw [h] at he
          cases he
        · rw [h] at he ⊢
          simp only [List.mem_cons, List.not_mem_nil, or_false] at he
          rcases he with rfl | rfl | rfl
          · exact (isOption rfl).elim
          · exact (isOption rfl).elim
          · exact ⟨[], v.node, entered, value, inside, inside, _, rfl⟩
      · exact (isOption rfl).elim
      · exact (ih he).within (infix_bracketed _ _ _ _).2

end GrammarFrontend
