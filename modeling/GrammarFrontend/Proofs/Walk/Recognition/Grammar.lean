import GrammarFrontend.Proofs.Walk.Recognition.Rule

/-! What whole grammars conform to. -/

namespace GrammarFrontend

namespace TreeGrammar

open Form Slot Shape

attribute [local simp] Visit.plan Visit.of Form.kind Form.slots? and_assoc

variable {n : Node}

theorem accepts_delegateGrammar : Accepts .delegateGrammar delegates n := by
  intro parts element
  rw [Visit.conforms_iff]
  simp only [Visit.plan, Plan.delegateGrammar]
  split <;> simp_all [derives_iff, delegates]

theorem accepts_delegateGrammars : Accepts .delegateGrammars [imports] n := by
  intro parts element
  rw [Visit.conforms_iff, oneOf_singleton, derives_iff]
  simp [Plan.delegateGrammars, accepts_delegateGrammar]

theorem accepts_tokenSpec : Accepts .tokenSpec [token .id] n := by
  intro parts element
  rw [Visit.conforms_iff]
  simp [Plan.tokenSpec]

theorem accepts_tokensSpec : Accepts .tokensSpec [tokensSpec] n := by
  intro parts element
  rw [Visit.conforms_iff, oneOf_singleton, derives_iff]
  simp [Plan.tokensSpec, accepts_tokenSpec]

theorem accepts_channelSpec : Accepts .channelSpec [token .id] n := by
  intro parts element
  rw [Visit.conforms_iff]
  simp [Plan.channelSpec]

theorem accepts_channelsSpec : Accepts .channelsSpec [channels] n := by
  intro parts element
  rw [Visit.conforms_iff, oneOf_singleton, derives_iff]
  simp [Plan.channelsSpec, accepts_channelSpec]

/-- A named action announces itself with or without a scope, which makes no difference here. -/
theorem accepts_namedAction : Accepts .namedAction [namedAction] n := by
  intro parts element
  rw [Visit.conforms_iff, oneOf_singleton, derives_iff]
  have hslots {nodes : List Node}
      : Yields [opt [token .id], one [token .action]] nodes
        ↔ Yields [one [token .action]] (takeIf .id nodes).2 :=
    yields_opt_token .id (by decide)
  simp only [Visit.plan, Plan.namedAction, bind_pure_comp, Plan.ofReading_bind_conforms,
    Plan.ofReading_map_conforms, requireKind_eq_ok, finish_eq_ok, Prod.exists, expect_eq_ok,
    List.mem_singleton, exists_const, and_assoc, Form.kind, Form.slots?, Option.mem_some_iff,
    forall_eq', yields_one, oneOf_singleton, derives_token, hslots, yields_nil]
  refine and_congr_right (fun _ => exists_congr (fun first => exists_congr (fun rest => ?_)))
  cases (takeIf .id rest).1 <;> simp

theorem accepts_prequelConstruct : Accepts .prequelConstruct prequels n := by
  intro parts element
  rw [Visit.conforms_iff]
  simp only [Visit.plan, Plan.prequelConstruct]
  split
  case h_1 hk => exact (accepts_optionsSpec _ _).trans (oneOf_congr hk rfl)
  case h_2 hk => exact (accepts_delegateGrammars _ _).trans (oneOf_congr hk rfl)
  case h_3 hk => exact (accepts_tokensSpec _ _).trans (oneOf_congr hk rfl)
  case h_4 hk => exact (accepts_channelsSpec _ _).trans (oneOf_congr hk rfl)
  case h_5 hk => exact (accepts_namedAction _ _).trans (oneOf_congr hk rfl)
  case h_6 => exact iff_of_false id (not_oneOf (by simp_all [prequels]))

/-- The constructs before the rules are visited at the root. -/
theorem conforms_prequelConstructs {parts : List Node} {element : Node}
    : Visit.Conforms ⟨.prequelConstructs, n, parts, element⟩
      ↔ ∀ prequel ∈ parts, OneOf prequels prequel := by
  rw [Visit.conforms_iff]
  simp [Plan.prequelConstructs, accepts_prequelConstruct]

theorem accepts_grammarSpec : Accepts .grammarSpec [grammar] n := by
  intro parts element
  rw [Visit.conforms_iff, oneOf_singleton, derives_iff]
  have hslots {nodes : List Node}
      : Yields [many prequels, one [rules], many [mode]] nodes
        ↔ (∀ prequel ∈ (takeRun Plan.prequelKinds nodes).1, OneOf prequels prequel)
          ∧ Yields [one [rules], many [mode]] (takeRun Plan.prequelKinds nodes).2 :=
    yields_many_iff_takeRun Plan.prequelKinds (by decide) (by decide)
  have hrules : rules.kind = .rules := rfl
  simp [Plan.grammarSpec, conforms_prequelConstructs, accepts_rules, accepts_modeSection, hslots,
    kind_and_derives hrules]

end TreeGrammar

-----------------------------------------------------------------------------------------
-- Walks of grammars
-----------------------------------------------------------------------------------------

/-- A walk accepts exactly the trees of the tree grammar. If it starts with the grammar and never
reaches the depth limit, then it is completed without a report exactly if the tree derives from the
grammar, whether it resumes after a mismatch or not.
-/
theorem walk_accepts_iff (tree : Node) (config : Config)
    (hstart : config.walker.startProduction = Production.grammarSpec.name)
    (hlimit : ∀ d ∈ (walk tree config).diagnostics, d.kind ≠ .recursionLimit)
    : (walk tree config).completed = true ∧ (walk tree config).diagnostics = []
      ↔ TreeGrammar.Derives .grammar tree := by
  rw [walk_clean_iff hstart hlimit]
  exact (TreeGrammar.accepts_grammarSpec _ _).trans TreeGrammar.oneOf_singleton

/-- A grammar with one rule, which refers to one token. -/
def oneRuleGrammar : Node :=
  .grammar .combined [
    .leaf .id "G",
    .withChildren .rules [
      .rule [.leaf .ruleRef "r", .withChildren .block [.withChildren .alt [.leaf .tokenRef "T"]]]
    ]
  ]

/-- The grammar with one rule derives from the tree grammar, because a walk with the usual settings
accepts it.
-/
theorem derives_oneRuleGrammar
    : Config.walker {} = { startProduction := Production.grammarSpec.name }
      ∧ (∀ d ∈ (walk oneRuleGrammar {}).diagnostics, d.kind ≠ .recursionLimit)
      ∧ TreeGrammar.Derives .grammar oneRuleGrammar := by
  have hlimit : ∀ d ∈ (walk oneRuleGrammar {}).diagnostics, d.kind ≠ .recursionLimit := by decide
  exact ⟨rfl, hlimit, (walk_accepts_iff oneRuleGrammar {} rfl hlimit).mp (by decide)⟩

end GrammarFrontend
