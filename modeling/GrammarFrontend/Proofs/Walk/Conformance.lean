import GrammarFrontend.Proofs.Walk.Entries

/-! Conformance of a node to a production: every reading on the way succeeds, for the node and for
all nodes visited from it. It does not speak of states, of recovery or of the depth limit; a run
with nothing to report shows it, and a run of what conforms fails only by the depth limit.
-/

namespace GrammarFrontend

-----------------------------------------------------------------------------------------
-- Conformance
-----------------------------------------------------------------------------------------

/-- No reading of the plan ends with an error, and all its visits are good. -/
@[simp]
def Plan.Conforms (good : Visit → Prop) : Plan → Prop
  | .fail _ => False
  | .seq first next => first.Conforms good ∧ next.Conforms good
  | .visit v => good v
  | .attempt plan | .inRule _ _ plan | .inAlternative _ plan | .inSuffix plan => plan.Conforms good
  | .done | .announce _ | .announceOption _ _ | .announceCommand _ _ | .setGrammar _ | .setMode _
  | .nextAlternative _ => True

/-- A plan still conforms if more visits are good, by induction on the plan. -/
theorem Plan.Conforms.mono {good better : Visit → Prop} (h : ∀ v, good v → better v)
    {plan : Plan} (conforms : plan.Conforms good)
    : plan.Conforms better := by
  induction plan with
  | fail => exact conforms
  | seq first next ihFirst ihNext => exact ⟨ihFirst conforms.1, ihNext conforms.2⟩
  | visit v => exact h v conforms
  | attempt plan ih => exact ih conforms
  | inRule name node body ih => exact ih conforms
  | inAlternative alt body ih => exact ih conforms
  | inSuffix body ih => exact ih conforms
  | done | announce | announceOption | announceCommand | setGrammar | setMode | nextAlternative =>
      trivial

/-- The node of a visit conforms to its production if the plan does, where the visits of the plan
conform in turn.
-/
inductive Visit.Conforms : Visit → Prop
  | intro {v : Visit} {good : Visit → Prop} (inside : ∀ u, good u → u.Conforms)
    (plan : v.plan.Conforms good)
    : v.Conforms

/-- A visit conforms exactly if its plan does with visits that conform. -/
theorem Visit.conforms_iff {v : Visit} : v.Conforms ↔ v.plan.Conforms Visit.Conforms := by
  constructor
  · intro h
    cases h with
    | intro inside plan => exact plan.mono inside
  · intro plan
    exact .intro (fun _ h => h) plan

-----------------------------------------------------------------------------------------
-- What runs show
-----------------------------------------------------------------------------------------

namespace WalkState

@[simp]
theorem announce_diagnostics (s : WalkState) (callback : Callback)
    : (s.announce callback).diagnostics = s.diagnostics := by
  simp [announce, diagnostics]

@[simp]
theorem enter_diagnostics (s : WalkState) (v : Visit) : (s.enter v).diagnostics = s.diagnostics :=
  announce_diagnostics _ _

@[simp]
theorem exit_diagnostics (s : WalkState) (v : Visit) : (s.exit v).diagnostics = s.diagnostics :=
  s.announce_diagnostics _

@[simp]
theorem report_diagnostics (s : WalkState) (e : WalkError)
    : (s.report e).diagnostics = s.diagnostics ++ [e.diagnostic] := by
  simp [report, diagnostics]

end WalkState

theorem WalkError.diagnostic_kind (e : WalkError) : e.diagnostic.kind = e.kind := by
  cases e <;> rfl

theorem WalkError.locate_kind (span : Option Span) (e : WalkError)
    : (e.locate span).kind = e.kind := by
  unfold locate
  split <;> rfl

/-- The end of a walk is no error but the depth limit. -/
def OnlyLimited (outcome : Outcome) : Prop := ∀ e, outcome = .error e → e.kind = .recursionLimit

/-- A part of a walk that begins in a state decides a condition but for the depth limit. If it ends
well and reports nothing, then the condition holds; and if the condition holds, then all that it
ends with or reports is the depth limit.
-/
def WalkState.Decides (s : WalkState) (condition : Prop) (result : Outcome × WalkState) : Prop :=
  ∃ reports,
    result.2.diagnostics = s.diagnostics ++ reports
    ∧ (result.1 = .ok () → reports = [] → condition)
    ∧ (condition → OnlyLimited result.1 ∧ ∀ d ∈ reports, d.kind = .recursionLimit)

namespace WalkState

/-- A part that ends well and reports nothing decides what always holds. -/
theorem Decides.silent {s : WalkState} {result : Outcome × WalkState} {condition : Prop}
    (holds : condition) (hok : result.1 = .ok ())
    (hdiagnostics : result.2.diagnostics = s.diagnostics)
    : s.Decides condition result := by
  refine ⟨[], by rw [hdiagnostics, List.append_nil], fun _ _ => holds, fun _ => ⟨?_, by simp⟩⟩
  intro e he
  rw [hok] at he
  cases he

/-- A part that only fails decides what never holds, or anything if it fails at the depth limit. -/
theorem Decides.fail {s : WalkState} {e : WalkError} {condition : Prop}
    (h : condition → e.kind = .recursionLimit)
    : s.Decides condition (.error e, s) := by
  refine ⟨[], (List.append_nil _).symm, fun hok => (by cases hok), fun holds => ⟨?_, by simp⟩⟩
  intro error he
  obtain rfl := Except.error.inj he
  exact h holds

/-- Deciding depends on the diagnostics of the states only, and not on where an error is. -/
theorem Decides.congr {s t : WalkState} {result changed : Outcome × WalkState} {condition : Prop}
    (h : s.Decides condition result) (hs : t.diagnostics = s.diagnostics)
    (hdiagnostics : changed.2.diagnostics = result.2.diagnostics)
    (hok : changed.1 = .ok () → result.1 = .ok ())
    (hlimited : OnlyLimited result.1 → OnlyLimited changed.1)
    : t.Decides condition changed := by
  obtain ⟨reports, hreports, sound, complete⟩ := h
  refine ⟨reports, by rw [hdiagnostics, hreports, hs], ?_, ?_⟩
  · intro ok nothing
    exact sound (hok ok) nothing
  · intro holds
    obtain ⟨limited, reportsLimited⟩ := complete holds
    exact ⟨hlimited limited, reportsLimited⟩

end WalkState

/-- A plan decides whether it conforms if its visits do, by induction on the plan. What one sibling
reports shows in the end, because reports are only added.
-/
theorem Plan.run_decides (resumes : Bool) {go : Visit → WalkState → Outcome × WalkState}
    {good : Visit → Prop} (hgo : ∀ (v : Visit) (s : WalkState), s.Decides (good v) (go v s))
    (plan : Plan) (s : WalkState)
    : s.Decides (plan.Conforms good) (plan.run resumes go s) := by
  induction plan generalizing s with
  | done | setGrammar | setMode | nextAlternative => exact .silent trivial rfl rfl
  | announce | announceOption | announceCommand =>
      exact .silent trivial rfl (s.announce_diagnostics _)
  | fail e => exact .fail False.elim
  | visit v => exact hgo v s
  | seq first next ihFirst ihNext =>
      obtain ⟨reports, hreports, sound, complete⟩ := ihFirst s
      rw [run]
      split
      · rename_i after h
        rw [h] at hreports sound complete
        obtain ⟨more, hmore, soundNext, completeNext⟩ := ihNext after
        refine ⟨reports ++ more, by rw [hmore, hreports, List.append_assoc], ?_, ?_⟩
        · intro ok nothing
          obtain ⟨hnil, hnilNext⟩ := List.append_eq_nil_iff.mp nothing
          exact ⟨sound rfl hnil, soundNext ok hnilNext⟩
        · intro holds
          obtain ⟨conforms, conformsNext⟩ := holds
          obtain ⟨limited, moreLimited⟩ := completeNext conformsNext
          refine ⟨limited, ?_⟩
          intro d hd
          rcases List.mem_append.mp hd with hd | hd
          · exact (complete conforms).2 d hd
          · exact moreLimited d hd
      · rename_i failed
        refine ⟨reports, hreports, ?_, fun conforms => complete conforms.1⟩
        intro ok
        exact (failed _ (Prod.ext ok rfl)).elim
  | attempt plan ih =>
      obtain ⟨reports, hreports, sound, complete⟩ := ih s
      rw [run]
      split
      · rename_i e after h
        rw [h] at hreports sound complete
        cases resumes with
        | true =>
            refine ⟨reports ++ [e.diagnostic], ?_, by simp, ?_⟩
            · rw [← List.append_assoc, ← hreports]
              exact after.report_diagnostics e
            · intro conforms
              obtain ⟨limited, reportsLimited⟩ := complete conforms
              refine ⟨fun _ he => (by cases he), ?_⟩
              intro d hd
              rcases List.mem_append.mp hd with hd | hd
              · exact reportsLimited d hd
              · obtain rfl := List.mem_singleton.mp hd
                rw [e.diagnostic_kind]
                exact limited e rfl
        | false => exact ⟨reports, hreports, fun ok => (by cases ok), complete⟩
      · exact ⟨reports, hreports, sound, complete⟩
  | inRule name node body ih =>
      exact (ih (s.setRule (.opening name node))).congr rfl rfl id id
  | inAlternative alt body ih =>
      exact (ih (s.announce (.enterAlternative alt))).congr (s.announce_diagnostics _).symm
        (WalkState.announce_diagnostics _ _) id id
  | inSuffix body ih =>
      exact (ih (s.setEbnfDepth (s.context.ebnfDepth + 1))).congr rfl rfl id id

/-- A visit decides whether its node conforms, whatever room it has, by induction on the room. -/
theorem Visit.run_decides (config : WalkerConfig) (room : Nat) (v : Visit) (s : WalkState)
    : s.Decides v.Conforms (v.run config room s) := by
  induction room generalizing v s with
  | zero => exact .fail (fun _ => rfl)
  | succ room ih =>
      rw [Visit.conforms_iff]
      have decides := v.plan.run_decides config.resumesOnMismatch ih (s.enter v)
      rw [run]
      generalize v.plan.run config.resumesOnMismatch (run config room) (s.enter v) = result
        at decides ⊢
      obtain ⟨outcome, after⟩ := result
      refine decides.congr (s.enter_diagnostics v).symm (after.exit_diagnostics v) ?_ ?_
      · intro ok
        cases outcome with
        | ok => rfl
        | error e => cases ok
      · intro limited e he
        cases outcome with
        | ok => cases he
        | error inner =>
            obtain rfl : inner.locate v.node.span = e := Except.error.inj he
            rw [WalkError.locate_kind]
            exact limited inner rfl

-----------------------------------------------------------------------------------------
-- Walks
-----------------------------------------------------------------------------------------

/-- What a walk shows: the reports of its one visit and then the error that the visit ends with. -/
theorem walk_of_start (tree : Node) {config : Config} {p : Production}
    (hstart : config.walker.startProduction = p.name)
    : let result :=
        (Visit.of p tree).start config.walker (.initial config.walker.defaultMode)
      (walk tree config).completed = result.1.isOk
      ∧ (walk tree config).diagnostics
        = match result.1 with
          | .ok () => result.2.diagnostics
          | .error e => result.2.diagnostics ++ [e.diagnostic] := by
  have hget : (Walker.create config.walker).registry.get? config.walker.startProduction
      = some (.production p) := by
    rw [hstart]
    exact Registry.full_get?_name p
  have hvisit := Walker.visit_of_production hget 0 tree
  unfold walk
  rw [show Walker.visitGrammar 1 tree (.create config.walker) = _ from hvisit]
  generalize hresult
    : (Visit.of p tree).start config.walker (.initial config.walker.defaultMode) = result
  obtain ⟨outcome, after⟩ := result
  rw [show (Visit.of p tree).start (Walker.create config.walker).config
    (Walker.create config.walker).state = _ from hresult]
  cases outcome with
  | ok => exact ⟨rfl, rfl⟩
  | error e => exact ⟨rfl, after.report_diagnostics e⟩

/-- A walk that starts with a production and never reaches the depth limit is completed without a
report exactly if the tree conforms to the production.
-/
theorem walk_clean_iff {tree : Node} {config : Config} {p : Production}
    (hstart : config.walker.startProduction = p.name)
    (hlimit : ∀ d ∈ (walk tree config).diagnostics, d.kind ≠ .recursionLimit)
    : (walk tree config).completed = true ∧ (walk tree config).diagnostics = []
      ↔ (Visit.of p tree).Conforms := by
  obtain ⟨hcompleted, hdiagnostics⟩ := walk_of_start tree hstart
  obtain ⟨reports, hreports, sound, complete⟩
      : WalkState.Decides _ (Visit.of p tree).Conforms
          ((Visit.of p tree).start config.walker (.initial config.walker.defaultMode)) :=
    Visit.run_decides _ _ _ _
  rw [hdiagnostics] at hlimit ⊢
  rw [hcompleted]
  generalize (Visit.of p tree).start config.walker (.initial config.walker.defaultMode) = result
    at *
  obtain ⟨outcome, after⟩ := result
  have hafter : after.diagnostics = reports := hreports
  cases outcome with
  | ok =>
      rw [hafter] at hlimit ⊢
      constructor
      · intro clean
        exact sound rfl clean.2
      · intro conforms
        refine ⟨rfl, List.eq_nil_iff_forall_not_mem.mpr ?_⟩
        intro d hd
        exact hlimit d hd ((complete conforms).2 d hd)
  | error e =>
      constructor
      · intro clean
        cases clean.1
      · intro conforms
        -- An error would be the depth limit, which the walk reports at its end.
        have hkind : e.kind = .recursionLimit := (complete conforms).1 e rfl
        exact absurd (e.diagnostic_kind.trans hkind) (hlimit e.diagnostic (by simp))

end GrammarFrontend
