import GrammarFrontend.Proofs.Walk.Conformance
import GrammarFrontend.Proofs.Walk.Descent
import GrammarFrontend.Proofs.Walk.Recovery

/-! How deep walks go. A walk never has more productions open than the limit allows, and never more
than four times the height of its tree, because every plan descends. With as much room as that the
limit is never reached, and what the walk does is the same under any larger limit.
-/

namespace GrammarFrontend

-----------------------------------------------------------------------------------------
-- Parts of walks that stay within a depth
-----------------------------------------------------------------------------------------

/-- An entry within a depth: the path that an event shows is not longer, and a report of the depth
limit is one of that limit and stands only where room is `short`.
-/
def Entry.Within (limit depth : Nat) (short : Prop) : Entry → Prop
  | .event e => e.context.path.length ≤ depth
  | .report d =>
      d.kind = .recursionLimit → short ∧ d = (WalkError.recursionLimit limit).diagnostic

/-- A part of a walk that stays within a depth. It ends at the depth limit only where room is
`short`, and then with that limit.
-/
structure WalkState.StaysWithin (limit depth : Nat) (short : Prop) (s : WalkState)
    (result : Outcome × WalkState) : Prop where
  path : result.2.context.path = s.context.path
  adds : ∃ entries, s.Adds result.2 entries ∧ ∀ entry ∈ entries, entry.Within limit depth short
  ends
    : ∀ e, result.1 = .error e → e.kind = .recursionLimit → short ∧ e = .recursionLimit limit

/-- The depth limit has no place. -/
theorem WalkError.locate_recursionLimit {e : WalkError} (h : e.kind = .recursionLimit)
    (span : Option Span)
    : e.locate span = e := by
  cases e with
  | mismatch => cases h
  | unknownProduction | recursionLimit => rfl

namespace WalkState

variable {limit depth : Nat} {short : Prop} {s middle after : WalkState} {outcome : Outcome}

/-- A part that adds nothing and is not at the depth limit. -/
theorem StaysWithin.silent (hpath : after.context.path = s.context.path)
    (hjournal : after.journal = s.journal)
    (ends
      : ∀ e, outcome = .error e → e.kind = .recursionLimit → short ∧ e = .recursionLimit limit)
    : s.StaysWithin limit depth short (outcome, after) :=
  ⟨hpath, ⟨[], hjournal, by simp⟩, ends⟩

/-- An announcement at most so deep. -/
theorem StaysWithin.announce (h : s.context.path.length ≤ depth) (callback : Callback)
    : s.StaysWithin limit depth short (.ok (), s.announce callback) :=
  ⟨rfl, ⟨_, s.adds_announce callback, by simpa [Entry.Within] using h⟩, by simp⟩

/-- One part after another that ends well. -/
theorem StaysWithin.trans {first : Outcome} {result : Outcome × WalkState}
    (hf : s.StaysWithin limit depth short (first, middle))
    (hs : middle.StaysWithin limit depth short result)
    : s.StaysWithin limit depth short result := by
  obtain ⟨entries, adds, within⟩ := hf.adds
  obtain ⟨more, addsMore, withinMore⟩ := hs.adds
  refine ⟨hs.path.trans hf.path, ⟨entries ++ more, adds.trans addsMore, ?_⟩, hs.ends⟩
  exact List.forall_mem_append.mpr ⟨within, withinMore⟩

/-- Changes around a part that leave the journal and the path as they are do not matter. -/
theorem StaysWithin.congr {t : WalkState} {result : Outcome × WalkState}
    (h : t.StaysWithin limit depth short result) (hs : t.context.path = s.context.path)
    (hjournal : t.journal = s.journal) (hpath : after.context.path = result.2.context.path)
    (hafter : after.journal = result.2.journal)
    : s.StaysWithin limit depth short (result.1, after) := by
  obtain ⟨entries, adds, within⟩ := h.adds
  refine ⟨hpath.trans (h.path.trans hs), ⟨entries, ?_, within⟩, h.ends⟩
  rw [Adds, hafter, adds, hjournal]

/-- Where the room is even shorter, a part may go even deeper. -/
theorem StaysWithin.mono {deeper : Nat} {shorter : Prop} {result : Outcome × WalkState}
    (h : s.StaysWithin limit depth short result) (hdepth : depth ≤ deeper)
    (hshort : short → shorter)
    : s.StaysWithin limit deeper shorter result := by
  obtain ⟨entries, adds, within⟩ := h.adds
  refine ⟨h.path, ⟨entries, adds, ?_⟩, fun e he hkind => (h.ends e he hkind).imp_left hshort⟩
  intro entry hentry
  cases entry with
  | event e => exact Nat.le_trans (within _ hentry) hdepth
  | report d => exact fun hkind => (within _ hentry hkind).imp_left hshort

/-- An error that a part ends with may be reported after it. -/
theorem StaysWithin.report {e : WalkError} (h : s.StaysWithin limit depth short (.error e, after))
    : s.StaysWithin limit depth short (.ok (), after.report e) := by
  obtain ⟨entries, adds, within⟩ := h.adds
  refine ⟨h.path, ⟨_, adds.trans (after.adds_report e), ?_⟩, by simp⟩
  refine List.forall_mem_append.mpr ⟨within, List.forall_mem_singleton.mpr ?_⟩
  intro hkind
  obtain ⟨hshort, rfl⟩ := h.ends e rfl (e.diagnostic_kind.symm.trans hkind)
  exact ⟨hshort, rfl⟩

/-- A part between two events that are at most so deep. -/
theorem StaysWithin.scoped {entered : WalkState} {result : Outcome × WalkState}
    {opening closing : Event} (h : entered.StaysWithin limit depth short result)
    (enters : s.Adds entered [.event opening]) (leaves : result.2.Adds after [.event closing])
    (hopening : opening.context.path.length ≤ depth)
    (hclosing : closing.context.path.length ≤ depth)
    (hpath : after.context.path = s.context.path)
    : s.StaysWithin limit depth short (result.1, after) := by
  obtain ⟨entries, adds, within⟩ := h.adds
  refine ⟨hpath, ⟨_, (enters.trans adds).trans leaves, ?_⟩, h.ends⟩
  simp only [List.forall_mem_append, List.forall_mem_singleton]
  exact ⟨⟨hopening, within⟩, hclosing⟩

/-- Giving an error its place does not matter. -/
theorem StaysWithin.locate {result : Outcome × WalkState}
    (h : s.StaysWithin limit depth short result) (span : Option Span)
    : s.StaysWithin limit depth short (result.1.mapError (WalkError.locate span), result.2) := by
  refine ⟨h.path, h.adds, ?_⟩
  intro e he hkind
  obtain ⟨outcome, after⟩ := result
  cases outcome with
  | ok => cases he
  | error inner =>
      obtain rfl : inner.locate span = e := Except.error.inj he
      rw [WalkError.locate_kind] at hkind
      rw [WalkError.locate_recursionLimit hkind]
      exact h.ends inner rfl hkind

end WalkState

-----------------------------------------------------------------------------------------
-- Runs
-----------------------------------------------------------------------------------------

/-- What carries out visits keeps those that are proper and below a visit, made at a certain depth,
within another one.
-/
def StayingWithin (limit depth : Nat) (short : Prop) (v : Visit) (path : Nat)
    (go : Visit → WalkState → Outcome × WalkState) : Prop :=
  ∀ (u : Visit) (s : WalkState),
    u.Proper → u.Below v → s.context.path.length = path → s.StaysWithin limit depth short (go u s)

/-- A plan that descends stays as deep as its visits do, by induction on the plan. -/
theorem Plan.run_staysWithin {limit depth path : Nat} {short : Prop} {v : Visit}
    (resumes : Bool) {go : Visit → WalkState → Outcome × WalkState}
    (hgo : StayingWithin limit depth short v path go) (hdepth : path ≤ depth) {plan : Plan}
    (descends : plan.Descends v) {s : WalkState} (hs : s.context.path.length = path)
    : s.StaysWithin limit depth short (plan.run resumes go s) := by
  induction plan generalizing s with
  | done | setGrammar | setMode | nextAlternative => exact .silent rfl rfl (by simp)
  | fail e =>
      refine .silent rfl rfl ?_
      intro error he hkind
      obtain rfl := Except.error.inj he
      rw [show e.kind = .structuralMismatch from descends] at hkind
      cases hkind
  | visit u => exact hgo u s descends.1 descends.2 hs
  | announce | announceOption | announceCommand =>
      exact .announce (Nat.le_trans (Nat.le_of_eq hs) hdepth) _
  | seq first next ihFirst ihNext =>
      have hf := ihFirst descends.1 hs
      rw [run]
      generalize first.run resumes go s = result at hf ⊢
      obtain ⟨outcome, middle⟩ := result
      cases outcome with
      | ok => exact hf.trans (ihNext descends.2 ((congrArg List.length hf.path).trans hs))
      | error e => exact hf
  | attempt plan ih =>
      have hp := ih descends hs
      rw [run]
      generalize plan.run resumes go s = result at hp ⊢
      obtain ⟨outcome, after⟩ := result
      cases outcome with
      | ok => exact hp
      | error e =>
          cases resumes with
          | true => exact hp.report
          | false => exact hp
  | inRule name node body ih =>
      exact (ih (s := s.setRule (.opening name node)) descends hs).congr rfl rfl rfl rfl
  | inSuffix body ih =>
      exact (ih (s := s.setEbnfDepth (s.context.ebnfDepth + 1)) descends hs).congr rfl rfl rfl rfl
  | inAlternative alt body ih =>
      have hb := ih (s := s.announce (.enterAlternative alt)) descends hs
      have hpath := hb.path
      refine hb.scoped (s.adds_announce _) (WalkState.adds_announce _ _) ?_ ?_ hpath
      · exact Nat.le_trans (Nat.le_of_eq hs) hdepth
      · exact Nat.le_trans (Nat.le_of_eq ((congrArg List.length hpath).trans hs)) hdepth

/-- A visit stays as deep as its room and its need allow, by induction on the room. It is short of
room only if it needs more than it has.
-/
theorem Visit.run_staysWithin (config : WalkerConfig) (room : Nat) {v : Visit} (proper : v.Proper)
    (s : WalkState)
    : s.StaysWithin config.maxDepth (s.context.path.length + min room v.need) (room < v.need)
        (v.run config room s) := by
  induction room generalizing v s with
  | zero =>
      refine .silent rfl rfl ?_
      intro e he _
      exact ⟨v.need_pos, (Except.error.inj he).symm⟩
  | succ room ih =>
      have hpos := v.need_pos
      let depth := s.context.path.length + min (room + 1) v.need
      have hdepth : s.context.path.length + 1 ≤ depth := by
        show _ ≤ s.context.path.length + min (room + 1) v.need
        omega
      have hgo
          : StayingWithin config.maxDepth depth (room + 1 < v.need) v (s.context.path.length + 1)
              (run config room) := by
        intro u t properInside below ht
        have hneed := below.need_lt
        refine (ih properInside t).mono ?_ ?_
        · rw [ht]
          show _ ≤ s.context.path.length + min (room + 1) v.need
          omega
        · intro short
          omega
      have hb := Plan.run_staysWithin config.resumesOnMismatch hgo hdepth
        (v.plan_descends proper) (s := s.enter v) rfl
      have hpath := hb.path
      refine (hb.scoped (s.adds_enter v) (WalkState.adds_exit _ v) ?_ ?_ ?_).locate v.node.span
      · exact hdepth
      · exact Nat.le_trans (Nat.le_of_eq (congrArg List.length hpath)) hdepth
      · exact congrArg List.tail hpath

/-- Two ways to carry out visits that do the same at those that are proper and below a visit do the
same in a plan that descends, by induction on the plan.
-/
theorem Plan.run_congr {resumes : Bool} {first second : Visit → WalkState → Outcome × WalkState}
    {v : Visit} (h : ∀ (u : Visit) (s : WalkState), u.Proper → u.Below v → first u s = second u s)
    {plan : Plan} (descends : plan.Descends v) (s : WalkState)
    : plan.run resumes first s = plan.run resumes second s := by
  induction plan generalizing s with
  | visit u => exact h u s descends.1 descends.2
  | seq left right ihLeft ihRight =>
      rw [run, run, ihLeft descends.1]
      split
      · exact ihRight descends.2 _
      · rfl
  | attempt plan ih => rw [run, run, ih descends]
  | inRule name node body ih => rw [run, run, ih descends]
  | inAlternative alt body ih => rw [run, run, ih descends]
  | inSuffix body ih => rw [run, run, ih descends]
  | done | fail | announce | announceOption | announceCommand | setGrammar | setMode
      | nextAlternative => rfl

/-- The settings with another limit. -/
def WalkerConfig.limited (c : WalkerConfig) (maxDepth : Nat) : WalkerConfig := { c with maxDepth }

/-- Where there is room enough, neither the limit nor how much more room there is matters, by
induction on the room.
-/
theorem Visit.run_of_enough (config : WalkerConfig) (first second : Nat) {room more : Nat}
    {v : Visit} (proper : v.Proper) (hroom : v.need ≤ room) (hmore : v.need ≤ more)
    (s : WalkState)
    : v.run (config.limited first) room s = v.run (config.limited second) more s := by
  have hpos := v.need_pos
  induction room generalizing v more s with
  | zero => omega
  | succ room ih =>
      obtain ⟨more, rfl⟩ : ∃ less, more = less + 1 := ⟨more - 1, by omega⟩
      rw [run, run]
      have hplan
          : v.plan.run config.resumesOnMismatch (run (config.limited first) room) (s.enter v)
            = v.plan.run config.resumesOnMismatch (run (config.limited second) more)
                (s.enter v) := by
        refine Plan.run_congr ?_ (v.plan_descends proper) (s.enter v)
        intro u t properInside below
        have hneed := below.need_lt
        exact ih properInside (by omega) (by omega) t u.need_pos
      exact congrArg
        (fun result : Outcome × WalkState =>
          (result.1.mapError (WalkError.locate v.node.span), result.2.exit v))
        hplan

-----------------------------------------------------------------------------------------
-- What is open in a walk
-----------------------------------------------------------------------------------------

theorem stillOpen_cons (opened : List Scope) (e : Event) (events : List Event)
    : stillOpen opened (e :: events) = stillOpen (e.callback.leavesOpen opened) events :=
  rfl

/-- What is open at an event that shows it is as much as the path is long. -/
theorem Context.Shows.length_openVisits {c : Context} {opened : List Scope} (h : c.Shows opened)
    : (openVisits opened).length = c.path.length := by
  have hlength := congrArg List.length h.trail
  rw [Context.trail, List.length_reverse, List.length_reverse, openKinds, List.length_map]
    at hlength
  exact hlength.symm

/-- A bracketed word leaves open what was open. -/
theorem stillOpen_bracketed {opened : List Scope} (scope : Scope) {first last : Event}
    {body : List Event} (opens : first.callback = scope.opening)
    (closes : last.callback = scope.closing)
    (inner : stillOpen (scope :: opened) body = scope :: opened) (more : List Event)
    : stillOpen opened (first :: body ++ last :: more) = stillOpen opened more := by
  rw [stillOpen_append, stillOpen_cons opened first body, opens, scope.leavesOpen_opening, inner,
    stillOpen_cons, closes, scope.leavesOpen_closing]

/-- A well-nested word leaves open what was open, by induction on the word. -/
theorem WellNested.stillOpen_eq {opened : List Scope} {events : List Event}
    (nested : WellNested opened events)
    : stillOpen opened events = opened := by
  induction nested with
  | nil => rfl
  | announce plain _ _ ih => rwa [stillOpen_cons, Callback.leavesOpen_of_not_isBracket plain]
  | @production opened p n _ _ _ _ _ _ _ _ ihInner ihMore =>
      rw [stillOpen_bracketed (.production p n) rfl rfl ihInner, ihMore]
  | @alternative opened alt _ _ _ _ _ _ _ _ ihInner ihMore =>
      rw [stillOpen_bracketed (.alternative alt) rfl rfl ihInner, ihMore]

/-- A part of a bracketed word from its beginning ends before, inside of or after the brackets. -/
theorem prefix_bracketed {before body more : List Event} {first last : Event}
    (h : before <+: first :: body ++ last :: more)
    : before = []
      ∨ (∃ inner, before = first :: inner ∧ inner <+: body)
      ∨ ∃ later, before = first :: body ++ last :: later ∧ later <+: more := by
  rcases List.prefix_cons_iff.mp h with rfl | ⟨tail, rfl, htail⟩
  · exact .inl rfl
  rcases List.prefix_or_prefix_of_prefix htail (List.prefix_append body _) with inner | ⟨rest, rfl⟩
  · exact .inr (.inl ⟨tail, rfl, inner⟩)
  rcases List.prefix_cons_iff.mp ((List.prefix_append_right_inj body).mp htail) with
    rfl | ⟨later, rfl, hlater⟩
  · exact .inr (.inl ⟨body, by rw [List.append_nil], List.prefix_refl body⟩)
  · exact .inr (.inr ⟨later, rfl, hlater⟩)

/-- At no point of a well-nested word is more open than the longest path that its events show, by
induction on the word. What a bracket opens shows on the path of the bracket itself.
-/
theorem WellNested.length_openVisits_le {opened : List Scope} {events before : List Event}
    {depth : Nat} (nested : WellNested opened events)
    (hopened : (openVisits opened).length ≤ depth)
    (hevents : ∀ e ∈ events, e.context.path.length ≤ depth) (h : before <+: events)
    : (openVisits (stillOpen opened before)).length ≤ depth := by
  induction nested generalizing before with
  | nil =>
      obtain rfl := List.prefix_nil.mp h
      exact hopened
  | announce plain _ _ ih =>
      rcases List.prefix_cons_iff.mp h with rfl | ⟨tail, rfl, htail⟩
      · exact hopened
      · rw [stillOpen_cons, Callback.leavesOpen_of_not_isBracket plain]
        exact ih hopened (fun e he => hevents e (List.mem_cons_of_mem _ he)) htail
  | @production opened p n entered _ _ _ showsEntered inner _ _ ihInner ihMore =>
      have hinside : (openVisits (.production p n :: opened)).length ≤ depth := by
        rw [showsEntered.length_openVisits]
        exact hevents ⟨.enter p n, entered⟩ (by simp)
      rcases prefix_bracketed h with rfl | ⟨tail, rfl, htail⟩ | ⟨later, rfl, hlater⟩
      · exact hopened
      · exact ihInner hinside (fun e he => hevents e (by simp [he])) htail
      · rw [stillOpen_bracketed (.production p n) rfl rfl inner.stillOpen_eq]
        exact ihMore hopened (fun e he => hevents e (by simp [he])) hlater
  | @alternative opened alt entered _ _ _ showsEntered inner _ _ ihInner ihMore =>
      rcases prefix_bracketed h with rfl | ⟨tail, rfl, htail⟩ | ⟨later, rfl, hlater⟩
      · exact hopened
      · exact ihInner hopened (fun e he => hevents e (by simp [he])) htail
      · rw [stillOpen_bracketed (.alternative alt) rfl rfl inner.stillOpen_eq]
        exact ihMore hopened (fun e he => hevents e (by simp [he])) hlater

-----------------------------------------------------------------------------------------
-- Walks of walkers
-----------------------------------------------------------------------------------------

/-- The event of an entry. -/
def Entry.event? : Entry → Option Event
  | .event e => some e
  | .report _ => none

/-- The diagnostic of an entry. -/
def Entry.report? : Entry → Option Diagnostic
  | .event _ => none
  | .report d => some d

namespace WalkState

theorem events_eq (s : WalkState) : s.events = s.journal.reverse.filterMap Entry.event? := by
  refine congrArg (List.filterMap · s.journal.reverse) (funext ?_)
  intro entry
  cases entry <;> rfl

theorem diagnostics_eq (s : WalkState)
    : s.diagnostics = s.journal.reverse.filterMap Entry.report? := by
  refine congrArg (List.filterMap · s.journal.reverse) (funext ?_)
  intro entry
  cases entry <;> rfl

variable {s after : WalkState} {entries : List Entry}

theorem Adds.events (h : s.Adds after entries)
    : after.events = s.events ++ entries.filterMap Entry.event? := by
  rw [events_eq, events_eq, h, List.reverse_append, List.reverse_reverse, List.filterMap_append]

theorem Adds.diagnostics (h : s.Adds after entries)
    : after.diagnostics = s.diagnostics ++ entries.filterMap Entry.report? := by
  rw [diagnostics_eq, diagnostics_eq, h, List.reverse_append, List.reverse_reverse,
    List.filterMap_append]

/-- What a part of a walk logs within a depth. -/
theorem StaysWithin.logs {limit depth : Nat} {short : Prop} {result : Outcome × WalkState}
    (h : s.StaysWithin limit depth short result)
    : ∃ events reports,
        result.2.events = s.events ++ events
        ∧ result.2.diagnostics = s.diagnostics ++ reports
        ∧ (∀ e ∈ events, e.context.path.length ≤ depth)
        ∧ ∀ d ∈ reports,
            d.kind = .recursionLimit → short ∧ d = (WalkError.recursionLimit limit).diagnostic := by
  obtain ⟨entries, adds, within⟩ := h.adds
  refine ⟨_, _, adds.events, adds.diagnostics, ?_, ?_⟩
  · intro e he
    obtain ⟨entry, hentry, hsome⟩ := List.mem_filterMap.mp he
    cases entry with
    | event =>
        obtain rfl := Option.some.inj hsome
        exact within _ hentry
    | report => cases hsome
  · intro d hd
    obtain ⟨entry, hentry, hsome⟩ := List.mem_filterMap.mp hd
    cases entry with
    | event => cases hsome
    | report =>
        obtain rfl := Option.some.inj hsome
        exact within _ hentry

/-- The end of a visit, with its report, is no deeper than the visit. -/
theorem StaysWithin.conclude {limit depth : Nat} {short : Prop} {outcome : Outcome}
    (h : s.StaysWithin limit depth short (outcome, after))
    : s.StaysWithin limit depth short (outcome, after.conclude outcome) := by
  cases outcome with
  | ok => exact h
  | error e => exact ⟨h.path, h.report.adds, h.ends⟩

end WalkState

namespace Walker

/-- The node that a call asks to visit. -/
def Call.node : Call → Node
  | visit node _ => node
  | visitGrammar root => root

/-- The walker with another limit. -/
def limited (w : Walker) (maxDepth : Nat) : Walker :=
  { w with config := w.config.limited maxDepth }

/-- What the visit of a call comes to before the error that it ends with is reported, where every
entry is a production.
-/
def NamedVisit.result (v : NamedVisit) : Outcome × WalkState :=
  match v.walker.registry.get? v.name with
  | some (.production p) => (Visit.of p v.node).start v.walker.config v.walker.state
  | _ => (.error (.unknownProduction v.name), v.walker.state)

/-- Where no visit is under way, a visit reports the error that it ends with. -/
theorem NamedVisit.visit_eq {v : NamedVisit} (registry : v.walker.registry = .full)
    (outermost : v.walker.visits = 0)
    : v.walker.visit 1 v.node v.name
      = some (v.result.1, { v.walker with state := v.result.2.conclude v.result.1 }) := by
  cases h : v.walker.registry.get? v.name with
  | none => rw [visit_of_none h 0, conclude_of_outermost outermost, result, h]
  | some handler =>
      obtain ⟨p, rfl⟩ := Registry.full_get?_eq_production (registry ▸ h)
      rw [visit_of_outermost outermost h, result, h]

/-- An idle walker serves a call by its visit, and then it reports the error of the visit. -/
theorem Idle.serve_eq {w : Walker} (idle : w.Idle) (call : Call)
    : let result := (call.named w).result
      w.serve call = some (result.1, { w with state := result.2.conclude result.1 }) := by
  cases call with
  | visit node name =>
      exact NamedVisit.visit_eq (v := (Call.visit node name).named w) idle.registry idle.visits
  | visitGrammar root =>
      exact NamedVisit.visit_eq (v := (Call.visitGrammar root).named w) idle.registry idle.visits

section Named

variable {w : Walker} (call : Call)

theorem Call.named_node : (call.named w).node = call.node := by
  cases call <;> rfl

theorem Call.named_config : (call.named w).walker.config = w.config := by
  cases call <;> rfl

theorem Call.named_journal : (call.named w).walker.state.journal = w.state.journal := by
  cases call <;> rfl

/-- The visit of a call begins with nothing open. -/
theorem Idle.named_stack (idle : w.Idle) : (call.named w).walker.state.stack = [] := by
  cases call with
  | visit => exact idle.stack
  | visitGrammar => rfl

theorem Idle.named_path (idle : w.Idle) : (call.named w).walker.state.context.path = [] := by
  cases call with
  | visit => exact idle.path
  | visitGrammar => rfl

/-- The visit of a call finds the production that the call names, or nothing if there is none. -/
theorem Idle.named_entry (idle : w.Idle)
    : (∃ p,
        (∀ q : Production, (call.named w).name = q.name → q = p)
        ∧ (call.named w).walker.registry.get? (call.named w).name = some (.production p))
      ∨ (∀ q : Production, (call.named w).name ≠ q.name)
        ∧ (call.named w).walker.registry.get? (call.named w).name = none := by
  have registry : (call.named w).walker.registry = .full := by
    cases call <;> exact idle.registry
  rw [registry]
  cases h : Registry.full.get? (call.named w).name with
  | none =>
      refine .inr ⟨?_, rfl⟩
      intro q hq
      rw [hq, Registry.full_get?_name] at h
      cases h
  | some handler =>
      obtain ⟨p, rfl⟩ := Registry.full_get?_eq_production h
      refine .inl ⟨p, ?_, rfl⟩
      intro q hq
      rw [hq, Registry.full_get?_name] at h
      cases h
      rfl

end Named

/-- The visit of a call stays within the limit and within four times the height of its node. -/
theorem Idle.result_staysWithin {w : Walker} (idle : w.Idle) (call : Call)
    : w.state.StaysWithin w.config.maxDepth (min w.config.maxDepth (4 * call.node.height))
        (w.config.maxDepth < 4 * call.node.height) (call.named w).result := by
  have hpath := idle.named_path call
  rw [NamedVisit.result]
  split
  · rename_i p _
    have hneed : (Visit.of p call.node).need ≤ 4 * call.node.height := Visit.need_le _
    have within :=
      Visit.run_staysWithin w.config w.config.maxDepth (Visit.proper_of p call.node)
        (call.named w).walker.state
    rw [hpath] at within
    rw [call.named_node, call.named_config, Visit.start, idle.named_stack call]
    refine (within.mono ?_ ?_).congr (hpath.trans idle.path.symm) call.named_journal rfl rfl
    · simp only [List.length_nil, Nat.zero_add]
      omega
    · exact fun short => Nat.lt_of_lt_of_le short hneed
  · exact .silent (hpath.trans idle.path.symm) call.named_journal
      (fun e he hkind => by
        obtain rfl := Except.error.inj he
        cases hkind)

/-- The limit does not matter to a visit with nothing open where it is at least four times the
height of the node.
-/
theorem NamedVisit.result_of_enough {v : NamedVisit} (nothingOpen : v.walker.state.stack = [])
    {first second : Nat} (hfirst : 4 * v.node.height ≤ first)
    (hsecond : 4 * v.node.height ≤ second)
    : { v with walker := v.walker.limited first }.result
      = { v with walker := v.walker.limited second }.result := by
  obtain ⟨w, node, name⟩ := v
  cases h : w.registry.get? name with
  | none => simp only [result, limited, h]
  | some handler =>
      cases handler with
      | script => simp only [result, limited, h]
      | production p =>
          have hneed : (Visit.of p node).need ≤ 4 * node.height := Visit.need_le _
          simp only [result, limited, h, Visit.start]
          rw [show w.state.stack = [] from nothingOpen]
          exact Visit.run_of_enough w.config first second (Visit.proper_of p node)
            (Nat.le_trans hneed hfirst) (Nat.le_trans hneed hsecond) w.state

theorem Idle.result_of_enough {w : Walker} (idle : w.Idle) (call : Call) {first second : Nat}
    (hfirst : 4 * call.node.height ≤ first) (hsecond : 4 * call.node.height ≤ second)
    : (call.named (w.limited first)).result = (call.named (w.limited second)).result := by
  cases call with
  | visit node name =>
      exact NamedVisit.result_of_enough (v := (Call.visit node name).named w) idle.stack hfirst
        hsecond
  | visitGrammar root =>
      exact NamedVisit.result_of_enough (v := (Call.visitGrammar root).named w) rfl hfirst hsecond

/-- Under another limit a walker is as idle. -/
theorem Idle.limited {w : Walker} (idle : w.Idle) (maxDepth : Nat) : (w.limited maxDepth).Idle :=
  ⟨idle.registry, idle.visits, idle.stack, idle.path, idle.ebnfDepth⟩

/-- Calls leave the settings as they are and the walker idle, by induction on them. -/
theorem serveAll_config {w : Walker} (idle : w.Idle) (calls : List Call)
    : ∃ after, w.serveAll calls = some after ∧ after.Idle ∧ after.config = w.config := by
  induction calls generalizing w with
  | nil => exact ⟨w, rfl, idle, rfl⟩
  | cons call calls ih =>
      obtain ⟨outcome, after, served, idleAfter, -⟩ := serve_nests idle call
      obtain ⟨last, hlast, idleLast, hconfig⟩ := ih idleAfter
      refine ⟨last, ?_, idleLast, hconfig.trans ?_⟩
      · rw [serveAll, served]
        exact hlast
      · rw [idle.serve_eq call] at served
        cases served
        rfl

/-- Whatever a walker was called for before, the walk of a tree never has more productions open than
the limit or than four times the height of the tree, and no callback sees a longer path. The walk
ends, it ends at the depth limit or reports it only if the limit is less than four times the height,
and any two limits that are not less give the same walk.
-/
theorem depth_bounded (config : WalkerConfig) (earlier : List Call) (call : Call)
    : ∃ w outcome after events reports,
        (create config).serveAll earlier = some w
        ∧ w.serve call = some (outcome, after)
        ∧ after.state.events = w.state.events ++ events
        ∧ after.state.diagnostics = w.state.diagnostics ++ reports
        ∧ (∀ e ∈ events, e.context.path.length ≤ min config.maxDepth (4 * call.node.height))
        ∧ (∀ before,
            before <+: events
            → (openVisits (stillOpen [] before)).length
              ≤ min config.maxDepth (4 * call.node.height))
        ∧ (∀ e,
            outcome = .error e
            → e.kind = .recursionLimit
            → config.maxDepth < 4 * call.node.height ∧ e = .recursionLimit config.maxDepth)
        ∧ (∀ d ∈ reports,
            d.kind = .recursionLimit
            → config.maxDepth < 4 * call.node.height
              ∧ d = (WalkError.recursionLimit config.maxDepth).diagnostic)
        ∧ ∀ first second,
            4 * call.node.height ≤ first
            → 4 * call.node.height ≤ second
            → ((w.limited first).serve call).map (fun served => (served.1, served.2.state))
              = ((w.limited second).serve call).map (fun served => (served.1, served.2.state)) := by
  obtain ⟨w, hserved, idle, rfl⟩ := serveAll_config (idle_create config) earlier
  have within := idle.result_staysWithin call
  obtain ⟨events, reports, hevents, hreports, hpaths, hlimits⟩ := within.conclude.logs
  obtain ⟨outcome, after, served, -, nests⟩ := serve_nests idle call
  rw [idle.serve_eq call] at served
  cases served
  have nested : WellNested [] events := by
    obtain ⟨word, hword, nested⟩ := nests.word
    rw [List.append_cancel_left (hevents.symm.trans hword)]
    exact nested
  refine ⟨w, _, _, events, reports, hserved, idle.serve_eq call, hevents, hreports, hpaths, ?_,
    within.ends, hlimits, ?_⟩
  · intro before hbefore
    exact nested.length_openVisits_le (Nat.zero_le _) hpaths hbefore
  · intro first second hfirst hsecond
    rw [(idle.limited first).serve_eq, (idle.limited second).serve_eq,
      idle.result_of_enough call hfirst hsecond]
    rfl

end Walker

end GrammarFrontend
