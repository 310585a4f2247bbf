import GrammarFrontend.Proofs.Walk.Brackets
import GrammarFrontend.Proofs.Walk.Conformance
import GrammarFrontend.Proofs.Walk.Constructs

/-! What a walk without errors says of the constructs that it comes by. It is found from the plans
alone, given what is said in each visit; where that is known to be right for every node that
conforms, a walk that ends well and reports nothing says just that.
-/

namespace GrammarFrontend

-----------------------------------------------------------------------------------------
-- Plans
-----------------------------------------------------------------------------------------

/-- What a plan says if nothing fails, given what its visits say. -/
@[simp]
def Plan.echo (said : Visit → List Notice) : Plan → List Notice
  | .seq first next => first.echo said ++ next.echo said
  | .visit v => said v
  | .attempt plan | .inRule _ _ plan | .inSuffix plan => plan.echo said
  | .announce callback => callback.notice?.toList
  | .inAlternative alt plan => .entered alt :: (plan.echo said ++ [.left alt])
  | .done | .fail _ | .announceOption _ _ | .announceCommand _ _ | .setGrammar _ | .setMode _
  | .nextAlternative _ => []

namespace Plan

variable {said : Visit → List Notice}

@[simp]
theorem echo_steps {plans : List Plan} : (steps plans).echo said = plans.flatMap (·.echo said) := by
  induction plans with
  | nil => rfl
  | cons plan plans ih => rw [steps, echo, ih, List.flatMap_cons]

@[simp]
theorem echo_each {plans : List Plan} : (each plans).echo said = plans.flatMap (·.echo said) := by
  rw [each, echo_steps, List.flatMap_map]
  rfl

@[simp]
theorem echo_eachRequired {p : Production} {expected : NodeKind} {plans : List Plan}
    : (eachRequired p expected plans).echo said = plans.flatMap (·.echo said) := by
  cases plans with
  | nil => rfl
  | cons plan plans => exact echo_each

@[simp]
theorem echo_ite {c : Prop} [Decidable c] {first second : Plan}
    : (if c then first else second).echo said
      = if c then first.echo said else second.echo said := by
  split <;> rfl

@[simp]
theorem echo_visitAs {p : Production} {n : Node} : (visitAs p n).echo said = said (.of p n) := rfl

/-- A reading says nothing if nothing is said where it goes on. -/
@[simp]
theorem echo_ofReading_bind {α : Type} {reading : Except WalkError α}
    {next : α → Except WalkError Plan}
    : (ofReading (reading >>= next)).echo said = []
      ↔ ∀ a, reading = .ok a → (ofReading (next a)).echo said = [] := by
  cases reading with
  | error e => exact ⟨by simp, fun _ => rfl⟩
  | ok a =>
      refine ⟨?_, fun h => h a rfl⟩
      intro h b hb
      obtain rfl := Except.ok.inj hb
      exact h

@[simp]
theorem echo_ofReading_map {α : Type} {reading : Except WalkError α} {plan : α → Plan}
    : (ofReading (plan <$> reading)).echo said = []
      ↔ ∀ a, reading = .ok a → (plan a).echo said = [] := by
  cases reading with
  | error e => exact ⟨by simp, fun _ => rfl⟩
  | ok a =>
      refine ⟨?_, fun h => h a rfl⟩
      intro h b hb
      obtain rfl := Except.ok.inj hb
      exact h

end Plan

theorem noticesOf_append (first second : List Event)
    : noticesOf (first ++ second) = noticesOf first ++ noticesOf second :=
  List.filterMap_append

/-- What a part of a walk says, unless it fails or reports something. -/
def WalkState.Says (s : WalkState) (word : List Notice) (result : Outcome × WalkState) : Prop :=
  ∃ reports,
    result.2.diagnostics = s.diagnostics ++ reports
    ∧ (result.1 = .ok () → reports = [] → noticesOf result.2.events = noticesOf s.events ++ word)

namespace WalkState

/-- An announcement adds the notice of its callback, if it has one. -/
theorem noticesOf_announce (s : WalkState) (callback : Callback)
    : noticesOf (s.announce callback).events = noticesOf s.events ++ callback.notice?.toList := by
  rw [announce_events, noticesOf_append]
  cases h : callback.notice? <;> simp [noticesOf, h]

/-- Entering and leaving a production says nothing. -/
theorem noticesOf_enter (s : WalkState) (v : Visit)
    : noticesOf (s.enter v).events = noticesOf s.events := by
  rw [enter, noticesOf_announce]
  exact List.append_nil _

theorem noticesOf_exit (s : WalkState) (v : Visit)
    : noticesOf (s.exit v).events = noticesOf s.events :=
  (s.noticesOf_announce (.exit v.production v.node)).trans (List.append_nil _)

theorem optionCallback_notice? (s : WalkState) (id value : Node)
    : (s.optionCallback id value).notice? = none := by
  unfold optionCallback
  split
  · split <;> rfl
  · rfl

theorem commandCallback_notice? (s : WalkState) (id : Node) (arg : Option Node)
    : (s.commandCallback id arg).notice? = none := by
  cases arg <;> rfl

/-- A part that reports nothing and says this in any case. -/
theorem Says.of_notices {s : WalkState} {word : List Notice} {result : Outcome × WalkState}
    (hdiagnostics : result.2.diagnostics = s.diagnostics)
    (hnotices : noticesOf result.2.events = noticesOf s.events ++ word)
    : s.Says word result :=
  ⟨[], by rw [hdiagnostics, List.append_nil], fun _ _ => hnotices⟩

end WalkState

/-- A plan says what it should if its visits do, by induction on the plan. A sibling that fails
makes a report or makes the plan fail.
-/
theorem Plan.run_echoes (resumes : Bool) {go : Visit → WalkState → Outcome × WalkState}
    {said : Visit → List Notice} (hgo : ∀ (v : Visit) (s : WalkState), s.Says (said v) (go v s))
    (plan : Plan) (s : WalkState)
    : s.Says (plan.echo said) (plan.run resumes go s) := by
  induction plan generalizing s with
  | done | setGrammar | setMode | nextAlternative =>
      exact .of_notices rfl (List.append_nil _).symm
  | fail e => exact ⟨[], (List.append_nil _).symm, fun ok => (by cases ok)⟩
  | announce callback => exact .of_notices (s.announce_diagnostics _) (s.noticesOf_announce _)
  | announceOption id value =>
      refine .of_notices (s.announce_diagnostics _) ?_
      rw [run, s.noticesOf_announce, s.optionCallback_notice?]
      rfl
  | announceCommand id arg =>
      refine .of_notices (s.announce_diagnostics _) ?_
      rw [run, s.noticesOf_announce, s.commandCallback_notice?]
      rfl
  | visit v => exact hgo v s
  | seq first next ihFirst ihNext =>
      obtain ⟨reports, hreports, hnotices⟩ := ihFirst s
      rw [run]
      split
      · rename_i after h
        rw [h] at hreports hnotices
        obtain ⟨more, hmore, hnoticesMore⟩ := ihNext after
        refine ⟨reports ++ more, by rw [hmore, hreports, List.append_assoc], ?_⟩
        intro ok nothing
        obtain ⟨hnil, hnilMore⟩ := List.append_eq_nil_iff.mp nothing
        rw [hnoticesMore ok hnilMore, hnotices rfl hnil, echo, List.append_assoc]
      · rename_i failed
        refine ⟨reports, hreports, ?_⟩
        intro ok
        exact (failed _ (Prod.ext ok rfl)).elim
  | attempt plan ih =>
      obtain ⟨reports, hreports, hnotices⟩ := ih s
      rw [run]
      split
      · rename_i e after h
        rw [h] at hreports
        cases resumes with
        | true =>
            refine ⟨reports ++ [e.diagnostic], ?_, fun _ nothing => (by simp at nothing)⟩
            rw [← List.append_assoc, ← hreports]
            exact after.report_diagnostics e
        | false => exact ⟨reports, hreports, fun ok => (by cases ok)⟩
      · exact ⟨reports, hreports, hnotices⟩
  | inRule name node body ih => exact ih (s.setRule (.opening name node))
  | inAlternative alt body ih =>
      obtain ⟨reports, hreports, hnotices⟩ := ih (s.announce (.enterAlternative alt))
      rw [s.announce_diagnostics] at hreports
      refine ⟨reports, (WalkState.announce_diagnostics _ _).trans hreports, ?_⟩
      intro ok nothing
      rw [run, WalkState.noticesOf_announce, hnotices ok nothing, s.noticesOf_announce, echo,
        List.append_assoc, List.append_assoc]
      rfl
  | inSuffix body ih => exact ih (s.setEbnfDepth (s.context.ebnfDepth + 1))

-----------------------------------------------------------------------------------------
-- Visits
-----------------------------------------------------------------------------------------

/-- Visits say what they should, whatever room they have, if the plan of every node that conforms
echoes it. The induction is on the room; that a node conforms is seen from its clean run.
-/
theorem Visit.run_echoes (config : WalkerConfig) {said : Visit → List Notice}
    (hsaid : ∀ v : Visit, v.Conforms → v.plan.echo said = said v) (room : Nat) (v : Visit)
    (s : WalkState)
    : s.Says (said v) (v.run config room s) := by
  induction room generalizing v s with
  | zero => exact ⟨[], (List.append_nil _).symm, fun ok => (by cases ok)⟩
  | succ room ih =>
      obtain ⟨reports, hreports, sound, -⟩ := v.run_decides config (room + 1) s
      refine ⟨reports, hreports, ?_⟩
      intro ok nothing
      rw [← hsaid v (sound ok nothing)]
      obtain ⟨inner, hinner, hnotices⟩ := v.plan.run_echoes config.resumesOnMismatch ih (s.enter v)
      rw [run] at hreports ok ⊢
      generalize v.plan.run config.resumesOnMismatch (run config room) (s.enter v) = result at *
      obtain ⟨outcome, after⟩ := result
      have hsame : inner = reports := by
        refine List.append_cancel_left (hinner.symm.trans ?_)
        rw [s.enter_diagnostics, ← hreports]
        exact (after.exit_diagnostics v).symm
      have hok : outcome = .ok () := by
        cases outcome with
        | ok => rfl
        | error e => cases ok
      rw [after.noticesOf_exit, hnotices hok (hsame.trans nothing), s.noticesOf_enter]

end GrammarFrontend
