import GrammarFrontend.Proofs.Walk.Recognition.Element

/-! What rules conform to. -/

namespace GrammarFrontend.TreeGrammar

open Form Slot Shape

attribute [local simp] Visit.plan Visit.of Form.kind Form.slots? and_assoc

variable {n : Node}

-----------------------------------------------------------------------------------------
-- Blocks of rules
-----------------------------------------------------------------------------------------

theorem accepts_outerAlternative : Accepts .outerAlternative alternatives n := by
  intro parts element
  rw [Visit.conforms_iff]
  simp [Plan.outerAlternative, (accepts_inRule n).1]

theorem accepts_lexerOuterAlternative : Accepts .lexerOuterAlternative lexerAlternatives n := by
  intro parts element
  rw [Visit.conforms_iff]
  simp [Plan.lexerOuterAlternative, (accepts_inLexerRule n).2.2.1]

theorem accepts_ruleBlock : Accepts .ruleBlock [ruleBlock] n := by
  intro parts element
  rw [Visit.conforms_iff, oneOf_singleton, derives_iff]
  simp [Plan.ruleBlock, Plan.outerAlternatives, accepts_outerAlternative]

theorem accepts_lexerRuleBlock : Accepts .lexerRuleBlock [lexerRuleBlock] n := by
  intro parts element
  rw [Visit.conforms_iff, oneOf_singleton, derives_iff]
  simp [Plan.lexerRuleBlock, Plan.outerAlternatives, accepts_lexerOuterAlternative]

-----------------------------------------------------------------------------------------
-- Parts of rules
-----------------------------------------------------------------------------------------

theorem accepts_ruleModifier : Accepts .ruleModifier ruleModifiers n := by
  intro parts element
  rw [Visit.conforms_iff]
  simp [Plan.ruleModifier, ruleModifiers]

theorem accepts_ruleReturns : Accepts .ruleReturns [returns] n := by
  intro parts element
  rw [Visit.conforms_iff, oneOf_singleton, derives_iff]
  simp [Plan.ruleReturns, Plan.argActionOf]

theorem accepts_locals : Accepts .locals [locals] n := by
  intro parts element
  rw [Visit.conforms_iff, oneOf_singleton, derives_iff]
  simp [Plan.locals, Plan.argActionOf]

theorem accepts_throwsSpec : Accepts .throwsSpec [throws] n := by
  intro parts element
  rw [Visit.conforms_iff, oneOf_singleton, derives_iff]
  simp only [Visit.plan, Plan.throwsSpec, Plan.ofReading_bind_conforms, requireKind_eq_ok,
    List.mem_singleton, exists_const, Form.kind, Form.slots?, Option.mem_some_iff, forall_eq',
    yields_many1_last, oneOf_singleton, derives_token]
  refine and_congr_right (fun _ => ?_)
  split
  case h_1 hempty => simp [hempty]
  case h_2 hfound hfilled =>
    refine iff_of_false (by simp) (fun h => ?_)
    have hkind := List.find?_some hfound
    simp [h.2 _ (List.mem_of_find?_eq_some hfound)] at hkind
  case h_3 hnone hfilled =>
    refine iff_of_true trivial ⟨hfilled, ?_⟩
    simpa using hnone

theorem accepts_exceptionHandler : Accepts .exceptionHandler [catchClause] n := by
  intro parts element
  rw [Visit.conforms_iff, oneOf_singleton, derives_iff]
  simp [Plan.exceptionHandler]

theorem accepts_finallyClause : Accepts .finallyClause [finallyClause] n := by
  intro parts element
  rw [Visit.conforms_iff, oneOf_singleton, derives_iff]
  simp [Plan.finallyClause]

/-- The handlers of a rule are visited at its node. -/
theorem conforms_exceptionGroup {handlers : List Node} {element : Node}
    : Visit.Conforms ⟨.exceptionGroup, n, handlers, element⟩
      ↔ Yields [many [catchClause], opt [finallyClause]] handlers := by
  rw [Visit.conforms_iff, yields_many_iff_takeRun [.catchClause] (by decide) (by decide),
    yields_opt]
  simp only [Visit.plan, Plan.exceptionGroup, Plan.steps_conforms, List.forall_mem_cons,
    Plan.each_conforms, List.forall_mem_map, Plan.visitAs_conforms, Visit.of,
    forall_conforms_iff (fun _ _ => accepts_exceptionHandler)]
  refine and_congr_right (fun _ => ?_)
  generalize (takeRun [.catchClause] handlers).2 = tail
  rcases tail with _ | ⟨last, _ | ⟨extra, more⟩⟩
  · simp
  · simp [accepts_finallyClause]
  · simp

/-- The modifiers of a rule are visited without their list, which has no production of its own. -/
theorem yields_opt_modifiers {more : List Slot} {nodes : List Node}
    (hfirst : .ruleModifiers ∉ firstKinds more)
    : Yields (opt [modifiers] :: more) nodes
      ↔ (∀ child ∈ Plan.childrenOf (takeIf .ruleModifiers nodes).1, OneOf ruleModifiers child)
        ∧ Yields more (takeIf .ruleModifiers nodes).2 := by
  rw [yields_opt_iff_takeIf .ruleModifiers rfl hfirst]
  refine and_congr_left (fun _ => ?_)
  cases hlist : (takeIf .ruleModifiers nodes).1 with
  | none => simp [Plan.childrenOf]
  | some list => simp [Plan.childrenOf, derives_iff, takeIf_kind hlist]

/-- Nothing but options blocks and named actions is read as a part of a header. -/
theorem conforms_ruleHeaderPart {nodes : List Node}
    (h : n ∈ (takeRun [.options, .namedAction] nodes).1)
    : (Plan.ruleHeaderPart n).Conforms Visit.Conforms ↔ OneOf [options, ruleAction] n := by
  rw [Plan.ruleHeaderPart]
  have hkind : n.kind = .options ∨ n.kind = .namedAction := by simpa using takeRun_kind h
  rcases hkind with hk | hk
  · simp only [hk, beq_self_eq_true, if_true]
    exact (accepts_optionsSpec _ _).trans (oneOf_congr hk rfl)
  · simp only [hk, show (NodeKind.namedAction == NodeKind.options) = false from rfl]
    exact (accepts_ruleAction _ _).trans (oneOf_congr hk rfl)

theorem accepts_lexerRule : Accepts .lexerRule [lexerRule] n := by
  intro parts element
  rw [Visit.conforms_iff, oneOf_singleton, derives_iff]
  have hslots {nodes : List Node}
      : Yields [opt [token .docComment], opt [modifiers], one [lexerRuleBlock]] nodes
        ↔ (∀ child ∈
              Plan.childrenOf (takeIf .ruleModifiers (takeIf .docComment nodes).2).1,
              OneOf ruleModifiers child)
          ∧ Yields [one [lexerRuleBlock]]
              (takeIf .ruleModifiers (takeIf .docComment nodes).2).2 := by
    rw [yields_opt_token .docComment (by decide), yields_opt_modifiers (by decide)]
  have hblock {child : Node}
      : child.kind = .block ∧ Derives lexerRuleBlock child ↔ Derives lexerRuleBlock child :=
    and_iff_right_of_imp Derives.kind_eq
  simp [Plan.lexerRule, accepts_ruleModifier, accepts_lexerRuleBlock, hslots, hblock]

/-- A parser rule reads the parts of its header in a fixed order, and then its block and its
handlers.
-/
theorem accepts_parserRule : Accepts .parserRule [parserRule] n := by
  intro parts element
  have hheader {nodes : List Node}
      : (∀ part ∈ (takeRun [.options, .namedAction] nodes).1,
          (Plan.ruleHeaderPart part).Conforms Visit.Conforms)
        ↔ ∀ part ∈ (takeRun [.options, .namedAction] nodes).1, OneOf [options, ruleAction] part :=
    forall₂_congr (fun part hpart => conforms_ruleHeaderPart hpart)
  have hblock : ruleBlock.kind = .block := rfl
  rw [Visit.conforms_iff, oneOf_singleton, derives_iff]
  simp only [Visit.plan, Plan.parserRule, bind_pure_comp, Plan.ofReading_bind_conforms,
    Plan.ofReading_map_conforms, Plan.Conforms, Plan.steps_conforms, requireKind_eq_ok,
    expect_eq_ok, Prod.exists, List.mem_singleton, exists_const, List.forall_mem_cons, forall_eq,
    List.forall_mem_map, Option.mem_toList, Plan.visitAs_conforms, Visit.of, accepts_ruleModifier _,
    accepts_ruleReturns _, accepts_throwsSpec _, accepts_locals _, accepts_ruleBlock _,
    conforms_exceptionGroup, hheader, and_true, true_and, and_assoc, Form.kind, Form.slots?,
    Option.mem_some_iff, forall_eq', yields_one, oneOf_singleton, derives_token]
  refine and_congr_right (fun _ => exists_congr (fun id => exists_congr (fun rest => ?_)))
  refine and_congr_right (fun _ => and_congr_right (fun _ => ?_))
  -- The parts before the block are of different kinds, so that each is read where it may stand.
  rw [yields_opt_token .docComment (by decide), yields_opt_modifiers (by decide),
    yields_opt_token .argAction (by decide), yields_opt_iff_takeIf .returns rfl (by decide),
    yields_opt_iff_takeIf .throws rfl (by decide), yields_opt_iff_takeIf .locals rfl (by decide),
    yields_many_iff_takeRun [.options, .namedAction] (by decide) (by decide)]
  simp [kind_and_derives hblock]

-----------------------------------------------------------------------------------------
-- Sections of rules
-----------------------------------------------------------------------------------------

/-- The first child tells the two sorts of rules apart. -/
theorem conforms_ruleOfSection
    : (Plan.ruleOfSection n).Conforms Visit.Conforms ↔ OneOf [parserRule, lexerRule] n := by
  have hfirst {form : Form} {slots : List Slot} (hslots : form.slots? = some slots)
      {first : Node} {rest : List Node} (hchildren : n.children = first :: rest)
      (derives : Derives form n)
      : first.kind ∈ firstKinds slots := by
    have yields := (derives_iff.mp derives).2 slots hslots
    rw [hchildren] at yields
    exact yields.kind_mem
  rw [Plan.ruleOfSection, oneOf_cons, oneOf_singleton]
  split
  · rename_i first rest hchildren
    by_cases hk : first.kind = .tokenRef
    · have hnot : ¬ Derives parserRule n := by
        intro derives
        have hmem := hfirst rfl hchildren derives
        simp [hk, firstKinds] at hmem
      simp [hk, hnot, accepts_lexerRule]
    · have hnot : ¬ Derives lexerRule n := by
        intro derives
        have hmem := hfirst rfl hchildren derives
        simp [hk, firstKinds] at hmem
      simp [hk, hnot, accepts_parserRule]
  · rename_i hchildren
    have hnot : ¬ Derives lexerRule n := by
      rw [derives_iff]
      simp [hchildren]
    simp [hnot, accepts_parserRule]

theorem accepts_rules : Accepts .rules [rules] n := by
  intro parts element
  rw [Visit.conforms_iff, oneOf_singleton, derives_iff]
  simp [Plan.rules, conforms_ruleOfSection]

theorem accepts_modeSection : Accepts .modeSection [mode] n := by
  intro parts element
  rw [Visit.conforms_iff, oneOf_singleton, derives_iff]
  simp [Plan.modeSection, accepts_lexerRule]

end GrammarFrontend.TreeGrammar
