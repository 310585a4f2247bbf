import GrammarFrontend.Proofs.Walk.Announcement.Element
import GrammarFrontend.Proofs.Walk.Announcement.Rule
import GrammarFrontend.Proofs.Walk.Nesting
import GrammarFrontend.Proofs.Walk.Recognition.Grammar

/-! Every construct of a grammar that conforms is announced exactly once and in document order. What
each production says is put together here, and a walk that reports nothing says what the grammar
says.
-/

namespace GrammarFrontend

-----------------------------------------------------------------------------------------
-- Sections of rules
-----------------------------------------------------------------------------------------

namespace Node

/-- What is said of a child of a grammar. -/
def wordInGrammar (n : Node) : List Notice :=
  if n.kind == .rules || n.kind == .mode then n.rulesOfSection.flatMap wordOfRule else []

theorem wordInGrammar_of_other {n : Node} (h : n.kind ∉ [.rules, .mode])
    : n.wordInGrammar = [] := by
  simp_all [wordInGrammar]

theorem wordOfGrammar_eq (tree : Node)
    : tree.wordOfGrammar = tree.children.flatMap wordInGrammar := by
  rw [wordOfGrammar, rulesOfGrammar, List.flatMap_assoc, flatMap_filter]
  rfl

end Node

namespace Plan

theorem rules_gives (n : Node) : (rules n).Gives (n.rulesOfSection.flatMap Node.wordOfRule) := by
  refine gives_requireKind ?_
  intro _ conforms
  have hplans := each_conforms.mp (steps_conforms.mp conforms _ (.tail _ (.head _)))
  have hall : n.rulesOfSection = n.children := by
    rw [Node.rulesOfSection, List.filter_eq_self]
    intro child hchild
    have hform := TreeGrammar.conforms_ruleOfSection.mp (hplans _ (List.mem_map_of_mem hchild))
    simpa [TreeGrammar.Form.kind] using hform.kind_mem
  rw [hall]
  exact (List.append_nil _).trans (echo_siblings (fun child _ => ruleOfSection_echo child))

theorem modeSection_gives (n : Node)
    : (modeSection n).Gives (n.rulesOfSection.flatMap Node.wordOfRule) := by
  refine gives_requireKind ?_
  intro _
  refine gives_expect_one ?_
  intro id rest hchildren hid conforms
  have hplans := each_conforms.mp (steps_conforms.mp conforms _ (.tail _ (.tail _ (.head _))))
  have hall : n.rulesOfSection = rest := by
    rw [Node.rulesOfSection, hchildren, List.filter_cons_of_neg (by simp_all), List.filter_eq_self]
    intro child hchild
    have hconform : (Visit.of .lexerRule child).Conforms := hplans _ (List.mem_map_of_mem hchild)
    simpa [TreeGrammar.Form.kind] using TreeGrammar.accepts_lexerRule.kind_mem hconform
  rw [hall]
  exact (List.append_nil _).trans (echo_siblings (fun _ _ => rfl))

/-- Rules stand in the section of rules and in the modes after it. -/
theorem grammarSpec_gives (n : Node) : (grammarSpec n).Gives n.wordOfGrammar := by
  refine gives_requireKind ?_
  intro _
  refine gives_expect_one ?_
  intro id rest hchildren hid
  have hnothing : id.wordInGrammar = [] := Node.wordInGrammar_of_other (by simp [hid])
  have hprequels : ∀ kind ∈ prequelKinds, kind ∉ [.rules, .mode] := by decide
  rw [Node.wordOfGrammar_eq, hchildren, List.flatMap_cons, hnothing, List.nil_append,
    Shape.flatMap_takeRun prequelKinds
      (fun _ h => Node.wordInGrammar_of_other (hprequels _ h))]
  refine .beside rfl <| .beside rfl <| .beside rfl <| .beside rfl <| .last (gives_expect_one ?_)
  intro rules modes hsections hrules conforms
  have hrest : (Shape.takeRun prequelKinds rest).2 = rules :: modes := hsections
  have hplans := each_conforms.mp (steps_conforms.mp conforms _ (.tail _ (.head _)))
  have hmodes
      : (each (modes.map (visitAs .modeSection))).echo Visit.word
        = modes.flatMap Node.wordInGrammar := by
    refine echo_siblings ?_
    intro mode hmode
    have hconform : (Visit.of .modeSection mode).Conforms := hplans _ (List.mem_map_of_mem hmode)
    have hkind : mode.kind = .mode := by
      simpa [TreeGrammar.Form.kind] using TreeGrammar.accepts_modeSection.kind_mem hconform
    simp [Node.wordInGrammar, Visit.word, Visit.of, hkind]
  have hrulesWord : rules.wordInGrammar = rules.rulesOfSection.flatMap Node.wordOfRule := by
    simp [Node.wordInGrammar, hrules]
  rw [hrest, List.flatMap_cons, ← hmodes, hrulesWord]
  exact congrArg (_ ++ ·) (List.append_nil _)

end Plan

/-- The plan of a node that conforms says what the visit of the node says. -/
theorem Visit.echo_plan (v : Visit) (conforms : v.Conforms)
    : v.plan.echo Visit.word = v.word := by
  have hplan := Visit.conforms_iff.mp conforms
  obtain ⟨p, n, parts, element⟩ := v
  cases p
  case grammarSpec => exact Plan.grammarSpec_gives n hplan
  case rules => exact Plan.rules_gives n hplan
  case modeSection => exact Plan.modeSection_gives n hplan
  case lexerRule => exact Plan.lexerRule_gives n hplan
  case parserRule => exact Plan.parserRule_gives n hplan
  case lexerRuleBlock | ruleBlock => exact Plan.outerAlternatives_gives (fun _ => rfl) n hplan
  case lexerOuterAlternative => exact Plan.lexerOuterAlternative_gives n hplan
  case outerAlternative => exact Plan.outerAlternative_gives n hplan
  case lexerAlternative => exact Plan.lexerAlternative_gives n hplan
  case lexerElements | alternative => exact Plan.alternativeOf_gives (fun _ => rfl) n hplan
  case lexerElement => exact Plan.lexerElement_gives n hplan
  case lexerBlock => exact Plan.lexerBlock_gives n hplan
  case lexerAtom => exact Plan.lexerAtom_gives n hplan
  case element => exact Plan.element_gives n hplan
  case labeledElement => exact Plan.labeledElement_gives n hplan
  case subrule | lexerSubrule => exact Plan.suffixedBlock_gives (fun _ => rfl) n hplan
  case atom => exact Plan.atom_gives n hplan
  case blockSet => exact Plan.blockSet_gives n hplan
  case setElement => exact Plan.setElement_gives n hplan
  case block => exact Plan.block_gives n hplan
  case ruleReference => exact Plan.ruleReference_gives n hplan
  case terminal => exact Plan.terminalOf_gives .terminal n hplan
  all_goals exact Visit.echo_beside (by simp)

-----------------------------------------------------------------------------------------
-- Walks
-----------------------------------------------------------------------------------------

namespace Walker

/-- A walk of a whole grammar that ends well and reports nothing announces every construct of the
tree exactly once and in document order: each rule is found and finished before the next one, as a
lexer rule or as a parser rule by the kind of its first child; each alternative is entered, in
order, and left; and each reference in the place of an element is announced as what it is.
-/
theorem visitGrammar_announces {w after : Walker} {tree : Node}
    (entry : w.registry.get? w.config.startProduction = some (.production .grammarSpec))
    (accepted : w.serve (.visitGrammar tree) = some (.ok (), after))
    (silent : after.state.diagnostics = w.state.diagnostics)
    : ∃ events, after.state.events = w.state.events ++ events ∧ tree.AnnouncedBy events := by
  have hsaid
      : w.beginning.Says tree.wordOfGrammar
          ((Visit.of .grammarSpec tree).start w.config w.beginning) :=
    Visit.run_echoes w.config Visit.echo_plan _ (.of .grammarSpec tree) w.beginning
  have nests
      : w.beginning.Nests [] ((Visit.of .grammarSpec tree).start w.config w.beginning).2 :=
    Visit.run_nesting w.config _ [] (.of .grammarSpec tree) w.beginning ⟨rfl, rfl⟩
  rw [serve_visitGrammar_of_production entry tree] at accepted
  generalize (Visit.of .grammarSpec tree).start w.config w.beginning = result at *
  obtain ⟨outcome, state⟩ := result
  have hconclude := Option.some.inj accepted
  cases outcome with
  | error e => cases congrArg Prod.fst hconclude
  | ok =>
      obtain rfl : { w with state } = after := congrArg Prod.snd hconclude
      obtain ⟨reports, hreports, hnotices⟩ := hsaid
      obtain ⟨events, hevents, -⟩ := nests.word
      have hnothing : reports = [] :=
        List.append_cancel_left (hreports.symm.trans (silent.trans (List.append_nil _).symm))
      refine ⟨events, hevents, Node.announcedBy_of_notices ?_⟩
      have hboth := hnotices rfl hnothing
      rw [hevents, noticesOf_append] at hboth
      exact List.append_cancel_left hboth

/-- A grammar with a rule that has a label, a subrule, a complement and a qualified name in it, a
lexer rule with a command, and a rule in a mode.
-/
def mixedGrammar : Node :=
  .grammar .combined [
    .leaf .id "G",
    .withChildren .rules [
      .rule [
        .leaf .ruleRef "r",
        .withChildren .block [
          .withChildren .alt [
            .withChildren .assign [.leaf .id "x", .leaf .tokenRef "T"],
            .withChildren .closure [
              .withChildren .block [
                .withChildren .alt [.leaf .ruleRef "r"],
                .withChildren .alt [.leaf .epsilon ""]
              ]
            ]
          ],
          .withChildren .alt [
            .withChildren .complement [.withChildren .set [.leaf .stringLiteral "'a'"]],
            .withChildren .dot [.leaf .id "G", .leaf .ruleRef "q"],
            .leaf .wildcard "."
          ]
        ]
      ],
      .rule [
        .leaf .tokenRef "T",
        .withChildren .block [
          .withChildren .lexerAltAction [
            .withChildren .alt [
              .withChildren .range [.leaf .stringLiteral "'a'", .leaf .stringLiteral "'z'"]
            ],
            .leaf .id "skip"
          ]
        ]
      ]
    ],
    .withChildren .mode [
      .leaf .id "M",
      .rule [
        .leaf .tokenRef "U",
        .withChildren .block [.withChildren .alt [.leaf .tokenRef "T"]]
      ]
    ]
  ]

/-- All constructs of a grammar that has one of nearly every sort are announced. -/
theorem visitGrammar_announces_mixedGrammar
    : ∃ after,
        (create {}).registry.get? (create {}).config.startProduction
          = some (.production .grammarSpec)
        ∧ (create {}).serve (.visitGrammar mixedGrammar) = some (.ok (), after)
        ∧ after.state.diagnostics = (create {}).state.diagnostics
        ∧ ∃ events,
            after.state.events = (create {}).state.events ++ events
            ∧ mixedGrammar.AnnouncedBy events :=
  ⟨_, rfl, rfl, rfl, visitGrammar_announces rfl rfl rfl⟩

end Walker

end GrammarFrontend
