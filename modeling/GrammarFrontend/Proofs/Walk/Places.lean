import GrammarFrontend.Proofs.Walk.Depth
import GrammarFrontend.Proofs.Walk.Instructions
import GrammarFrontend.Proofs.Walk.Reporting
import GrammarFrontend.Proofs.Walk.Restoration

/-! Where walks fail and what places their errors get. The trace of a part of a walk tells each
error as it is raised, with the productions that are open there up to the one that it is recovered
from. It is found along with the walk, and the walk ends and reports as the trace says.
-/

namespace GrammarFrontend

-----------------------------------------------------------------------------------------
-- Traces
-----------------------------------------------------------------------------------------

/-- An error as it is raised, in a state, with the visits that are open there, the innermost first,
up to the one that it is followed to.
-/
structure Failure where
  error : WalkError
  state : WalkState
  opened : List Visit

/-- An error that a walk goes on after, and what was attempted there. -/
structure Recovery where
  attempted : Plan
  failure : Failure

/-- What a part of a walk recovers from, in order, and how it fails if it does. -/
structure Trace where
  recovered : List Recovery
  failure? : Option Failure

namespace Failure

/-- The error where it has come out of the visits that it is followed through. -/
def escaped (f : Failure) : WalkError := f.error.locate (f.opened.findSome? (·.node.span))

/-- The failure of a visit that is due to its plan. -/
def within (f : Failure) (v : Visit) : Failure := { f with opened := f.opened ++ [v] }

end Failure

namespace Trace

def clean : Trace := { recovered := [], failure? := none }

/-- What comes after a part that does not fail. -/
def after (t first : Trace) : Trace := { t with recovered := first.recovered ++ t.recovered }

def within (t : Trace) (v : Visit) : Trace := { t with failure? := t.failure?.map (·.within v) }

/-- An attempt, where the walk goes on after errors. -/
def attempted (t : Trace) (plan : Plan) : Trace where
  recovered := t.recovered ++ t.failure?.toList.map (fun failure => { attempted := plan, failure })
  failure? := none

/-- How a part of a walk ends. -/
def outcome (t : Trace) : Outcome :=
  match t.failure? with
  | none => .ok ()
  | some f => .error f.escaped

/-- What a part of a walk reports. -/
def reports (t : Trace) : List Diagnostic := t.recovered.map (·.failure.escaped.diagnostic)

end Trace

/-- The trace of a plan, given what carries out visits and their traces. -/
def Plan.trace (resumes : Bool) (go : Visit → WalkState → Outcome × WalkState)
    (inner : Visit → WalkState → Trace)
    : Plan → WalkState → Trace
  | .fail e, s => { recovered := [], failure? := some { error := e, state := s, opened := [] } }
  | .seq first next, s =>
      match first.run resumes go s with
      | (.ok (), middle) =>
          (next.trace resumes go inner middle).after (first.trace resumes go inner s)
      | (.error _, _) => first.trace resumes go inner s
  | .visit v, s => inner v s
  | .attempt plan, s =>
      let t := plan.trace resumes go inner s
      if resumes then t.attempted plan else t
  | .inRule name node body, s => body.trace resumes go inner (s.setRule (.opening name node))
  | .inAlternative alt body, s => body.trace resumes go inner (s.announce (.enterAlternative alt))
  | .inSuffix body, s => body.trace resumes go inner (s.setEbnfDepth (s.context.ebnfDepth + 1))
  | .done, _ | .announce _, _ | .announceOption _ _, _ | .announceCommand _ _, _
  | .setGrammar _, _ | .setMode _, _ | .nextAlternative _, _ => .clean

/-- The trace of a visit with room for that many open productions. -/
def Visit.trace (config : WalkerConfig) : (room : Nat) → Visit → WalkState → Trace
  | 0, _, s =>
      let failure : Failure :=
        { error := .recursionLimit config.maxDepth, state := s, opened := [] }
      { recovered := [], failure? := some failure }
  | room + 1, v, s =>
      let inside :=
        v.plan.trace config.resumesOnMismatch (run config room) (trace config room) (s.enter v)
      inside.within v

-----------------------------------------------------------------------------------------
-- Walks and their traces
-----------------------------------------------------------------------------------------

namespace WalkError

/-- An error that is given two places has the first of them that there is. -/
theorem locate_locate (e : WalkError) (first second : Option Span)
    : (e.locate first).locate second = e.locate (first.or second) := by
  unfold locate
  cases e with
  | mismatch p expected found span => cases span <;> cases first <;> rfl
  | unknownProduction | recursionLimit => rfl

theorem locate_none (e : WalkError) : e.locate none = e := by
  unfold locate
  split <;> rfl

end WalkError

theorem Failure.escaped_within (f : Failure) (v : Visit)
    : (f.within v).escaped = f.escaped.locate v.node.span := by
  rw [escaped, escaped, WalkError.locate_locate, within, List.findSome?_append]
  cases h : v.node.span <;> simp [h]

namespace Trace

variable {t : Trace}

theorem outcome_eq_ok (h : .ok () = t.outcome) : t.failure? = none := by
  unfold outcome at h
  split at h
  · assumption
  · cases h

theorem outcome_eq_error {e : WalkError} (h : .error e = t.outcome)
    : ∃ f, t.failure? = some f ∧ e = f.escaped := by
  unfold outcome at h
  split at h
  · cases h
  · rename_i f hf
    exact ⟨f, hf, Except.error.inj h⟩

theorem reports_after (first : Trace) : (t.after first).reports = first.reports ++ t.reports :=
  List.map_append

/-- What a failure comes to that is due to the plan of a visit. -/
theorem outcome_within (v : Visit)
    : (t.within v).outcome = t.outcome.mapError (WalkError.locate v.node.span) := by
  unfold outcome within
  cases t.failure? with
  | none => rfl
  | some f => exact congrArg Except.error (f.escaped_within v)

end Trace

/-- A part of a walk ends and reports as the trace says. -/
structure WalkState.RunsAs (s : WalkState) (t : Trace) (result : Outcome × WalkState) : Prop where
  outcome : result.1 = t.outcome
  diagnostics : result.2.diagnostics = s.diagnostics ++ t.reports

namespace WalkState

variable {s middle after : WalkState} {t first : Trace} {outcome : Outcome}

/-- A part that neither fails nor reports. -/
theorem RunsAs.clean (h : after.diagnostics = s.diagnostics)
    : s.RunsAs .clean (.ok (), after) :=
  ⟨rfl, by rw [h]; exact (List.append_nil _).symm⟩

/-- A part that fails at once. -/
theorem RunsAs.fail (e : WalkError)
    : s.RunsAs { recovered := [], failure? := some { error := e, state := s, opened := [] } }
        (.error e, s) :=
  ⟨congrArg Except.error e.locate_none.symm, (List.append_nil _).symm⟩

/-- One part after another that does not fail. -/
theorem RunsAs.trans {result : Outcome × WalkState} (hf : s.RunsAs first (.ok (), middle))
    (hs : middle.RunsAs t result)
    : s.RunsAs (t.after first) result := by
  refine ⟨hs.outcome, ?_⟩
  rw [hs.diagnostics, hf.diagnostics, t.reports_after, List.append_assoc]

/-- Changes around a part that leave what is reported as it is do not matter. -/
theorem RunsAs.congr {other : WalkState} {result : Outcome × WalkState}
    (h : other.RunsAs t result) (hs : other.diagnostics = s.diagnostics)
    (hafter : after.diagnostics = result.2.diagnostics)
    : s.RunsAs t (result.1, after) :=
  ⟨h.outcome, by rw [hafter, h.diagnostics, hs]⟩

/-- Where the walk goes on after errors, an attempt reports the one that it fails with. -/
theorem RunsAs.attempted {e : WalkError} (h : s.RunsAs t (.error e, after)) (plan : Plan)
    : s.RunsAs (t.attempted plan) (.ok (), after.report e) := by
  obtain ⟨f, hfailure, rfl⟩ := Trace.outcome_eq_error h.outcome
  refine ⟨rfl, ?_⟩
  have hreports : (t.attempted plan).reports = t.reports ++ [f.escaped.diagnostic] := by
    simp [Trace.attempted, Trace.reports, hfailure]
  rw [after.report_diagnostics, h.diagnostics, hreports, List.append_assoc]

/-- Where nothing fails, there is nothing to recover from. -/
theorem RunsAs.succeeded (h : s.RunsAs t (.ok (), after)) (plan : Plan)
    : s.RunsAs (t.attempted plan) (.ok (), after) := by
  have hfailure := Trace.outcome_eq_ok h.outcome
  refine ⟨rfl, ?_⟩
  have hreports : (t.attempted plan).reports = t.reports := by
    simp [Trace.attempted, Trace.reports, hfailure]
  rw [h.diagnostics, hreports]

end WalkState

/-- A plan runs as its trace says if its visits do, by induction on the plan. -/
theorem Plan.run_runsAs {resumes : Bool} {go : Visit → WalkState → Outcome × WalkState}
    {inner : Visit → WalkState → Trace}
    (hgo : ∀ (v : Visit) (s : WalkState), s.RunsAs (inner v s) (go v s)) (plan : Plan)
    (s : WalkState)
    : s.RunsAs (plan.trace resumes go inner s) (plan.run resumes go s) := by
  induction plan generalizing s with
  | done | setGrammar | setMode | nextAlternative => exact .clean rfl
  | announce | announceOption | announceCommand => exact .clean (s.announce_diagnostics _)
  | fail e => exact .fail e
  | visit v => exact hgo v s
  | seq first next ihFirst ihNext =>
      have hf := ihFirst s
      rw [run, trace]
      generalize first.run resumes go s = result at hf ⊢
      obtain ⟨outcome, middle⟩ := result
      cases outcome with
      | ok => exact hf.trans (ihNext middle)
      | error e => exact hf
  | attempt plan ih =>
      have hp := ih s
      rw [run, trace]
      generalize plan.run resumes go s = result at hp ⊢
      obtain ⟨outcome, after⟩ := result
      cases resumes with
      | false => cases outcome <;> exact hp
      | true =>
          cases outcome with
          | ok => exact hp.succeeded plan
          | error e => exact hp.attempted plan
  | inRule name node body ih => exact (ih (s.setRule (.opening name node))).congr rfl rfl
  | inSuffix body ih => exact (ih (s.setEbnfDepth (s.context.ebnfDepth + 1))).congr rfl rfl
  | inAlternative alt body ih =>
      exact (ih (s.announce (.enterAlternative alt))).congr (s.announce_diagnostics _)
        (WalkState.announce_diagnostics _ _)

/-- A visit runs as its trace says, whatever room it has, by induction on the room. -/
theorem Visit.run_runsAs (config : WalkerConfig) (room : Nat) (v : Visit) (s : WalkState)
    : s.RunsAs (v.trace config room s) (v.run config room s) := by
  induction room generalizing v s with
  | zero => exact .fail _
  | succ room ih =>
      have hp := @Plan.run_runsAs config.resumesOnMismatch _ _ ih v.plan (s.enter v)
      refine ⟨?_, ?_⟩
      · rw [trace, Trace.outcome_within, ← hp.outcome]
        rfl
      · exact (hp.congr (s.enter_diagnostics v) (WalkState.exit_diagnostics _ v)).diagnostics

-----------------------------------------------------------------------------------------
-- What traces tell
-----------------------------------------------------------------------------------------

/-- The failure is followed out of a visit that has these nodes open around it: it was raised with
the visits open that it was followed through, which is all but one that there was no room for, and
the innermost of them raises it if it is a mismatch.
-/
structure Failure.ComesOutOf (f : Failure) (v : Visit) (around : List Node) : Prop where
  stack : f.state.stack = f.opened.map (·.node) ++ around
  outermost : f.opened = [] ∨ ∃ inner, f.opened = inner ++ [v]
  raised
    : f.error.kind = .structuralMismatch
      → ∃ u offender, f.opened.head? = some u ∧ u.Raises offender f.error

/-- What is attempted is a visit, and the failure is followed out of it. -/
def Recovery.IsOfVisit (r : Recovery) : Prop :=
  ∃ u around, r.attempted.Attempts u ∧ r.failure.ComesOutOf u around

/-- The trace of a visit that has these nodes open around it. -/
structure Trace.IsOf (t : Trace) (v : Visit) (around : List Node) : Prop where
  recovered : ∀ r ∈ t.recovered, r.IsOfVisit
  failure : ∀ f, t.failure? = some f → f.ComesOutOf v around

/-- What comes out of a visit inside of another one comes out of that. -/
theorem Failure.ComesOutOf.within {f : Failure} {u v : Visit} {around : List Node}
    (h : f.ComesOutOf u (v.node :: around))
    : (f.within v).ComesOutOf v around := by
  refine ⟨?_, .inr ⟨f.opened, rfl⟩, ?_⟩
  · show f.state.stack = (f.opened ++ [v]).map (·.node) ++ around
    rw [h.stack, List.map_append, List.append_assoc]
    rfl
  · intro isMismatch
    obtain ⟨w, offender, hw, raises⟩ := h.raised isMismatch
    refine ⟨w, offender, ?_, raises⟩
    show (f.opened ++ [v]).head? = some w
    rw [List.head?_append, hw]
    rfl

namespace Trace

variable {t first : Trace} {u v : Visit} {around : List Node}

theorem isOf_clean : (clean.within v).IsOf v around := by
  constructor <;> simp [within, clean]

theorem IsOf.within (h : t.IsOf u (v.node :: around)) : (t.within v).IsOf v around := by
  refine ⟨h.recovered, ?_⟩
  intro f hf
  obtain ⟨inner, hinner, rfl⟩ := Option.map_eq_some_iff.mp hf
  exact (h.failure inner hinner).within

theorem IsOf.after (hf : (first.within v).IsOf v around) (h : (t.within v).IsOf v around)
    : ((t.after first).within v).IsOf v around :=
  ⟨List.forall_mem_append.mpr ⟨hf.recovered, h.recovered⟩, h.failure⟩

/-- An attempt of a visit. -/
theorem IsOf.attempted {plan : Plan} (h : (t.within v).IsOf v around) (attempts : plan.Attempts u)
    (hfailure : ∀ f, t.failure? = some f → f.ComesOutOf u (v.node :: around))
    : ((t.attempted plan).within v).IsOf v around := by
  refine ⟨List.forall_mem_append.mpr ⟨h.recovered, ?_⟩, by simp [Trace.within, Trace.attempted]⟩
  intro r hr
  obtain ⟨f, hf, rfl⟩ := List.mem_map.mp hr
  exact ⟨u, _, attempts, hfailure f (Option.mem_toList.mp hf)⟩

end Trace

/-- What an attempt of a visit fails with is what the visit fails with. -/
theorem Plan.Attempts.failure {plan : Plan} {u : Visit} (attempts : plan.Attempts u)
    {resumes : Bool} {go : Visit → WalkState → Outcome × WalkState}
    {inner : Visit → WalkState → Trace} {s : WalkState} {f : Failure}
    (h : (plan.trace resumes go inner s).failure? = some f)
    : ∃ t : WalkState, t.stack = s.stack ∧ (inner u t).failure? = some f := by
  cases attempts with
  | visit => exact ⟨s, rfl, h⟩
  | alternative alt =>
      let moved := s.setRule (s.context.rule.moveTo alt)
      refine ⟨moved, rfl, ?_⟩
      have hseq : ((Plan.seq (.visit u) .done).trace resumes go inner moved).failure? = some f := h
      rw [trace] at hseq
      split at hseq
      · cases hseq
      · exact hseq

/-- The trace of a plan tells what it should, by induction on the plan. -/
theorem Plan.trace_isOf {resumes : Bool} {go : Visit → WalkState → Outcome × WalkState}
    {inner : Visit → WalkState → Trace}
    (hinner : ∀ (u : Visit) (s : WalkState), u.Proper → (inner u s).IsOf u s.stack)
    (restores : ∀ (u : Visit) (s : WalkState), s.Restores u.production.isRuleBlock (go u s).2)
    {v : Visit} {around : List Node} {plan : Plan} (takes : plan.Every v.Takes)
    (descends : plan.Descends v) {s : WalkState} (hs : s.stack = v.node :: around)
    : ((plan.trace resumes go inner s).within v).IsOf v around := by
  induction plan generalizing s with
  | done | announce | announceOption | announceCommand | setGrammar | setMode | nextAlternative =>
      exact Trace.isOf_clean
  | fail e =>
      obtain ⟨offender, raises⟩ := takes
      refine ⟨by simp [trace, Trace.within], ?_⟩
      intro f hf
      obtain rfl := Option.some.inj hf
      exact ⟨hs, .inr ⟨[], rfl⟩, fun _ => ⟨v, offender, rfl, raises⟩⟩
  | visit u => exact (hs ▸ hinner u s descends.1).within
  | seq first next ihFirst ihNext =>
      have hf := ihFirst takes.1 descends.1 hs
      have restored := (first.run_restores resumes restores s).stack
      rw [trace]
      generalize first.run resumes go s = result at restored ⊢
      obtain ⟨outcome, middle⟩ := result
      cases outcome with
      | ok => exact hf.after (ihNext takes.2 descends.2 (restored.trans hs))
      | error e => exact hf
  | attempt plan ih =>
      obtain ⟨⟨u, attempts⟩, takes⟩ := takes
      have hp := ih takes descends hs
      rw [trace]
      cases resumes with
      | false => exact hp
      | true =>
          refine hp.attempted attempts ?_
          intro f hf
          obtain ⟨t, ht, hfailure⟩ := attempts.failure hf
          have proper : u.Proper := by
            cases attempts with
            | visit => exact descends.1
            | alternative => exact descends.2.1.1
          rw [← hs, ← ht]
          exact (hinner u t proper).failure f hfailure
  | inRule name node body ih => exact ih (s := s.setRule (.opening name node)) takes descends hs
  | inSuffix body ih =>
      exact ih (s := s.setEbnfDepth (s.context.ebnfDepth + 1)) takes descends hs
  | inAlternative alt body ih =>
      exact ih (s := s.announce (.enterAlternative alt)) takes descends hs

/-- The trace of a visit tells what it should, whatever room there is, by induction on the room. -/
theorem Visit.trace_isOf (config : WalkerConfig) (room : Nat) {v : Visit} (proper : v.Proper)
    (s : WalkState)
    : (v.trace config room s).IsOf v s.stack := by
  induction room generalizing v s with
  | zero =>
      refine ⟨by simp [trace], ?_⟩
      intro f hf
      obtain rfl := Option.some.inj hf
      exact ⟨rfl, .inl rfl, fun isMismatch => by cases isMismatch⟩
  | succ room ih =>
      exact Plan.trace_isOf (fun u t proper => ih proper t) (run_restores config room)
        (v.plan_takes proper) (v.plan_descends proper) rfl

-----------------------------------------------------------------------------------------
-- Places
-----------------------------------------------------------------------------------------

/-- How a failure that is followed out of a visit gets its place. The visits open where it is
raised, up to that one, are on the stack. The place of a mismatch is the first that there is among
those of the offending node, if it is about one, and of the nodes of these visits, from the
innermost; it has none exactly if none of these nodes has a token. An error of another kind has no
place.
-/
structure Failure.IsPlaced (f : Failure) (v : Visit) (around : List Node) : Prop where
  stack : f.state.stack = f.opened.map (·.node) ++ around
  mismatch
    : f.error.kind = .structuralMismatch
      → ∃ u offender,
          f.opened.head? = some u
          ∧ f.opened.getLast? = some v
          ∧ u.Raises offender f.error
          ∧ f.escaped.diagnostic.span
            = (offender.toList ++ f.opened.map (·.node)).findSome? Node.span
          ∧ (f.escaped.diagnostic.span = none
            ↔ ∀ n ∈ offender.toList ++ f.opened.map (·.node), n.token = none)
  other : f.error.kind ≠ .structuralMismatch → f.escaped.diagnostic.span = none

theorem WalkError.diagnostic_span_of_other {e : WalkError} (h : e.kind ≠ .structuralMismatch)
    : e.diagnostic.span = none := by
  cases e with
  | mismatch => exact (h rfl).elim
  | unknownProduction | recursionLimit => rfl

/-- A mismatch has the place of its offender, or else the one that it is given. -/
theorem Visit.Raises.span {v : Visit} {offender : Option Node} {e : WalkError}
    (h : v.Raises offender e) (place : Option Span)
    : (e.locate place).diagnostic.span = (offender.toList.findSome? Node.span).or place := by
  cases h with
  | missing => rfl
  | @found _ _ offender =>
      show _ = (List.findSome? Node.span [offender]).or place
      cases hspan : offender.span <;> simp [WalkError.locate, WalkError.diagnostic, hspan]

theorem Failure.ComesOutOf.isPlaced {f : Failure} {v : Visit} {around : List Node}
    (h : f.ComesOutOf v around)
    : f.IsPlaced v around := by
  refine ⟨h.stack, ?_, ?_⟩
  · intro isMismatch
    obtain ⟨u, offender, hu, raises⟩ := h.raised isMismatch
    have hlast : f.opened.getLast? = some v := by
      rcases h.outermost with hnil | ⟨inner, hinner⟩
      · rw [hnil] at hu
        cases hu
      · rw [hinner, List.getLast?_concat]
    have hspan
        : f.escaped.diagnostic.span
          = (offender.toList ++ f.opened.map (·.node)).findSome? Node.span := by
      rw [escaped, raises.span, List.findSome?_append, List.findSome?_map]
      rfl
    refine ⟨u, offender, hu, hlast, raises, hspan, ?_⟩
    rw [hspan, List.findSome?_eq_none_iff]
    simp [Node.span]
  · intro other
    refine WalkError.diagnostic_span_of_other ?_
    rw [escaped, WalkError.locate_kind]
    exact other

-----------------------------------------------------------------------------------------
-- Walks of walkers
-----------------------------------------------------------------------------------------

namespace Walker

/-- The trace of a visit, where every entry is a production. -/
def NamedVisit.trace (v : NamedVisit) : Trace :=
  match v.walker.registry.get? v.name with
  | some (.production p) =>
      let s := v.walker.state
      (Visit.of p v.node).trace v.walker.config (v.walker.config.maxDepth - s.stack.length) s
  | _ =>
      let failure : Failure :=
        { error := .unknownProduction v.name, state := v.walker.state, opened := [] }
      { recovered := [], failure? := some failure }

theorem NamedVisit.result_runsAs (v : NamedVisit) : v.walker.state.RunsAs v.trace v.result := by
  rw [result, trace]
  cases v.walker.registry.get? v.name with
  | none => exact .fail _
  | some handler =>
      cases handler with
      | script => exact .fail _
      | production p => exact Visit.run_runsAs _ _ _ _

/-- The trace of a call is that of the production that it names. -/
theorem Idle.trace_isOf {w : Walker} (idle : w.Idle) (call : Call)
    : ∃ p,
        (∀ q : Production, (call.named w).name = q.name → q = p)
        ∧ (call.named w).trace.IsOf (.of p call.node) [] := by
  have hstack := idle.named_stack call
  rw [NamedVisit.trace]
  rcases idle.named_entry call with ⟨p, named, entry⟩ | ⟨unnamed, entry⟩
  · refine ⟨p, named, ?_⟩
    rw [entry, ← hstack, call.named_node]
    exact Visit.trace_isOf _ _ (Visit.proper_of p call.node) _
  · rw [entry]
    refine ⟨.grammarSpec, fun q hq => (unnamed q hq).elim, by simp, ?_⟩
    intro f hf
    obtain rfl := Option.some.inj hf
    exact ⟨hstack, .inl rfl, fun isMismatch => by cases isMismatch⟩

/-- Whatever a walker was called for before, the trace of a call tells how it ends and what it
reports: each error that it recovers from, in their order, and then the one that it ends with. Each
error that it recovers from has come out of the visit that was attempted, the one that it ends with
has come out of the first visit, and all of them get their places on this way.
-/
theorem mismatches_placed (config : WalkerConfig) (earlier : List Call) (call : Call)
    : ∃ w outcome after trace p,
        (create config).serveAll earlier = some w
        ∧ w.serve call = some (outcome, after)
        ∧ trace = (call.named w).trace
        ∧ outcome = trace.outcome
        ∧ after.state.diagnostics = w.state.diagnostics ++ trace.reports ++ escaped outcome
        ∧ (∀ r ∈ trace.recovered,
            ∃ v around, r.attempted.Attempts v ∧ r.failure.IsPlaced v around)
        ∧ (∀ q : Production, (call.named w).name = q.name → q = p)
        ∧ ∀ f, trace.failure? = some f → f.IsPlaced (.of p call.node) [] := by
  obtain ⟨w, hserved, idle, rfl⟩ := serveAll_config (idle_create config) earlier
  obtain ⟨p, named, isOf⟩ := idle.trace_isOf call
  have runs := (call.named w).result_runsAs
  have hdiagnostics : (call.named w).walker.state.diagnostics = w.state.diagnostics := by
    rw [WalkState.diagnostics, call.named_journal]
    rfl
  refine ⟨w, _, _, _, p, hserved, idle.serve_eq call, rfl, runs.outcome, ?_, ?_, named, ?_⟩
  · show ((call.named w).result.2.conclude _).diagnostics = _
    rw [WalkState.conclude_diagnostics, runs.diagnostics, hdiagnostics]
  · intro r hr
    obtain ⟨v, around, attempts, comesOut⟩ := isOf.recovered r hr
    exact ⟨v, around, attempts, comesOut.isPlaced⟩
  · intro f hf
    exact (isOf.failure f hf).isPlaced

end Walker

end GrammarFrontend
