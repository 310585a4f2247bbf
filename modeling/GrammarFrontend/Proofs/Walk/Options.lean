import GrammarFrontend.Proofs.Walk.Unfolding

/-! Options and what they belong to. An option is announced where it is visited, once, as one of the
grammar, of a rule or of a block. The walk finds the owner among the nodes on its stack and the
listener finds it on the path, and both find what the productions around the option say.
-/

namespace GrammarFrontend

-----------------------------------------------------------------------------------------
-- Owners
-----------------------------------------------------------------------------------------

/-- What an option belongs to. -/
inductive OptionOwner where
  | grammar
  | rule
  | block (node : Node)

namespace OptionOwner

def callback : OptionOwner → Node → Node → Callback
  | grammar => .grammarOption
  | rule => .ruleOption
  | block node => .blockOption node

/-- The options at a node belong to an owner if these productions are open around them in the walk
of a tree: those of its prequels, a rule that has them as a child, or a block that does, inside of
an alternative.
-/
inductive IsAround (tree options : Node) : OptionOwner → List (Production × Node) → Prop
  | grammar (isGrammar : tree.kind = .grammar) (isPrequel : options ∈ tree.prequels)
    : IsAround tree options grammar
        [(.prequelConstruct, options), (.prequelConstructs, tree), (.grammarSpec, tree)]
  | rule {node : Node} {outer : List (Production × Node)} (isRule : node.kind = .rule)
    (isChild : options ∈ node.children)
    : IsAround tree options rule ((.parserRule, node) :: outer)
  | block {p q : Production} {node alt : Node} {between outer : List (Production × Node)}
    (isBlockOf : p.isBlock = true) (isBlock : node.kind = .block)
    (isChild : options ∈ node.children) (isAlternativeOf : q.isAlternative = true)
    (isAlternative : alt.kind = .alt)
    : IsAround tree options (block node) ((p, node) :: between ++ (q, alt) :: outer)

end OptionOwner

theorem Production.isElement_of_isBlock {p : Production} (isBlock : p.isBlock = true)
    : p.isElement = true := by
  revert isBlock
  cases p <;> decide

namespace Visit

theorem Leads.isElement {u v : Visit} (leads : u.Leads v)
    (isElement : v.production.isElement = true)
    : u.production.isElement = true ∨ u.production.isAlternative = true ∧ u.node.kind = .alt := by
  unfold Leads at leads
  split at leads
  case h_6 => exact leads isElement
  all_goals
    rename_i hp
    rw [hp] at isElement
    cases isElement

/-- In the walk of a grammar there is a visit around every other one than the first. -/
theorem Nested.outer {v : Visit} {tree : Node} {opened : List Visit}
    (nested : (Visit.of .grammarSpec tree).Nested (v :: opened))
    (notFirst : v.production ≠ .grammarSpec)
    : ∃ u outer,
        opened = u :: outer ∧ u.Leads v ∧ (Visit.of .grammarSpec tree).Nested (u :: outer) := by
  obtain _ | ⟨led, nested⟩ := nested
  cases opened with
  | nil =>
      obtain rfl : v = _ := led
      exact (notFirst rfl).elim
  | cons u outer => exact ⟨u, outer, rfl, led, nested⟩

/-- Nothing visits the root of a grammar. -/
theorem Nested.root {v : Visit} {tree : Node} {opened : List Visit}
    (nested : (Visit.of .grammarSpec tree).Nested (v :: opened))
    (isFirst : v.production = .grammarSpec)
    : v = Visit.of .grammarSpec tree ∧ opened = [] := by
  obtain _ | ⟨led, nested⟩ := nested
  cases opened with
  | nil => exact ⟨led, rfl⟩
  | cons u outer =>
      have impossible : u.Leads v := led
      rw [Leads, isFirst] at impossible
      exact impossible.elim

/-- What is open around an element of an alternative in the walk of a grammar has the alternative in
it, by induction on what is open.
-/
theorem Nested.alternative {v : Visit} {tree : Node} {opened : List Visit}
    (nested : (Visit.of .grammarSpec tree).Nested (v :: opened))
    (isElement : v.production.isElement = true)
    : ∃ between alt outer,
        opened = between ++ alt :: outer
        ∧ alt.production.isAlternative = true
        ∧ alt.node.kind = .alt := by
  induction opened generalizing v with
  | nil =>
      obtain _ | ⟨rfl : v = _, -⟩ := nested
      cases isElement
  | cons u opened ih =>
      obtain _ | ⟨leads, nestedOuter⟩ := nested
      rcases Leads.isElement leads isElement with hu | ⟨hu, isAlternative⟩
      · obtain ⟨between, alt, outer, rfl, halt⟩ := ih nestedOuter hu
        exact ⟨u :: between, alt, outer, rfl, halt⟩
      · exact ⟨[], u, opened, rfl, hu, isAlternative⟩

/-- An option in the walk of a grammar is among options that belong to the grammar, a rule or a
block, and its callback says so.
-/
theorem Nested.owner {v : Visit} {tree : Node} {opened : List Visit}
    (nested : (Visit.of .grammarSpec tree).Nested (v :: opened))
    (isOption : v.production = .optionDef)
    : ∃ options outer owner,
        opened.map (fun v => (v.production, v.node)) = (.optionsSpec, options) :: outer
        ∧ options.kind = .options
        ∧ v.node ∈ options.children
        ∧ OptionOwner.IsAround tree options owner outer
        ∧ optionAmong (opened.map (·.node)) = owner.callback := by
  obtain ⟨list, opened, rfl, leads, nested⟩ :=
    nested.outer (by rw [isOption]; decide)
  obtain ⟨isList, isOptions, isMember⟩
      : list.production = .optionsSpec
        ∧ list.node.kind = .options
        ∧ v.node ∈ list.node.children := by
    simpa [isOption] using leads
  obtain ⟨u, opened, rfl, leads, nested⟩ :=
    nested.outer (by rw [isList]; decide)
  have leads
      : u.production = .prequelConstruct ∧ list.node = u.node
        ∨ u.production = .parserRule ∧ u.node.kind = .rule ∧ list.node ∈ u.node.children
        ∨ u.production.isBlock = true ∧ u.node.kind = .block ∧ list.node ∈ u.node.children := by
    simpa [isList] using leads
  have notOwner : [NodeKind.rule, .block].contains list.node.kind = false := by
    rw [isOptions]
    rfl
  refine ⟨list.node, (u :: opened).map (fun v => (v.production, v.node)), ?_⟩
  rw [List.map_cons, isList]
  rcases leads with ⟨hu, same⟩ | ⟨hu, isRule, isChild⟩ | ⟨hu, isBlock, isChild⟩
  · obtain ⟨prequels, opened, rfl, leads, nested⟩ :=
      nested.outer (by rw [hu]; decide)
    obtain ⟨hprequels, isPart⟩
        : prequels.production = .prequelConstructs ∧ u.node ∈ prequels.parts := by
      simpa [hu] using leads
    obtain ⟨root, opened, rfl, leads, nested⟩ :=
      nested.outer (by rw [hprequels]; decide)
    obtain ⟨isRoot, isGrammar, atRoot, parts⟩
        : root.production = .grammarSpec
          ∧ root.node.kind = .grammar
          ∧ prequels.node = root.node
          ∧ prequels.parts = root.node.prequels := by
      simpa [hprequels] using leads
    obtain ⟨rfl, rfl⟩ := nested.root isRoot
    refine ⟨.grammar, rfl, isOptions, isMember, ?_, ?_⟩
    · rw [List.map_cons, List.map_cons, hu, ← same, hprequels, atRoot]
      exact .grammar isGrammar (by rw [same]; exact parts ▸ isPart)
    · have notOwnerTree : [NodeKind.rule, .block].contains tree.kind = false := by
        rw [show tree.kind = .grammar from isGrammar]
        rfl
      have htree : (of .grammarSpec tree).node = tree := rfl
      simp only [List.map_cons, List.map_nil, optionAmong_cons_of_other notOwner, ← same, atRoot,
        htree, optionAmong_cons_of_other notOwnerTree]
      rfl
  · refine ⟨.rule, rfl, isOptions, isMember, ?_, ?_⟩
    · rw [List.map_cons, hu]
      exact .rule isRule isChild
    · rw [List.map_cons, List.map_cons, optionAmong_cons_of_other notOwner,
        optionAmong_cons_of_rule isRule]
      rfl
  · obtain ⟨between, alt, outer, rfl, isAlternativeOf, isAlternative⟩ :=
      nested.alternative (Production.isElement_of_isBlock hu)
    refine ⟨.block u.node, rfl, isOptions, isMember, ?_, ?_⟩
    · rw [List.map_cons, List.map_append, List.map_cons]
      exact .block hu isBlock isChild isAlternativeOf isAlternative
    · rw [List.map_cons, List.map_cons, optionAmong_cons_of_other notOwner,
        optionAmong_cons_of_block isBlock]
      rfl

end Visit

-----------------------------------------------------------------------------------------
-- Walks of walkers
-----------------------------------------------------------------------------------------

theorem WalkState.conclude_events (s : WalkState) (outcome : Outcome)
    : (s.conclude outcome).events = s.events := by
  cases outcome with
  | ok => rfl
  | error e => exact s.report_events e

namespace Walker

/-- The visit of a call adds a word inside of nothing, from the production that the call names. -/
theorem Idle.result_expands {w : Walker} (idle : w.Idle) (call : Call)
    : ∃ p,
        (∀ q : Production, (call.named w).name = q.name → q = p)
        ∧ w.state.Expands w.config.maxDepth (.of p call.node) [] (call.named w).result.2 := by
  have hevents : (call.named w).walker.state.events = w.state.events := by
    rw [WalkState.events, call.named_journal]
    rfl
  have inside : (call.named w).walker.state.IsInside [] :=
    ⟨idle.named_stack call, idle.named_path call⟩
  rw [NamedVisit.result]
  rcases idle.named_entry call with ⟨p, named, entry⟩ | ⟨unnamed, entry⟩
  · have led : (Visit.of p call.node).LedBy (.of p call.node) [] := rfl
    obtain ⟨events, hadded, unfolds⟩ :=
      Visit.run_expands w.config _ (Visit.proper_of p call.node) led inside (Nat.add_zero _)
    refine ⟨p, named, events, ?_, unfolds⟩
    rw [entry, call.named_node, call.named_config, ← hevents, ← hadded]
    show ((Visit.of p call.node).start _ _).2.events = _
    rw [Visit.start, inside.stack]
    rfl
  · rw [entry]
    exact ⟨.grammarSpec, fun q hq => (unnamed q hq).elim, .silent hevents⟩

/-- Whatever a walker was called for before, options are classified by where they stand. In the walk
of a grammar, every option that is entered is a member of options that belong to the grammar, to a
rule or to a block in an alternative. It is announced once if it is accepted, with the callback for
what it belongs to, and nothing else is announced in it but its value. In every walk each callback
of an option is announced there, and the kind of rule or block that the listener finds on the path
is that of the callback.
-/
theorem options_classified (config : WalkerConfig) (earlier : List Call) (call : Call)
    : ∃ w outcome after events,
        (create config).serveAll earlier = some w
        ∧ w.serve call = some (outcome, after)
        ∧ after.state.events = w.state.events ++ events
        ∧ ((call.named w).name = Production.grammarSpec.name
          → ∀ before option entered rest,
              events = before ++ ⟨.enter .optionDef option, entered⟩ :: rest
              → ∃ options outer owner left more,
                  openVisits (stillOpen [] before) = (.optionsSpec, options) :: outer
                  ∧ entered.path = option.kind :: options.kind :: outer.map (·.2.kind)
                  ∧ options.kind = .options
                  ∧ option ∈ options.children
                  ∧ OptionOwner.IsAround call.node options owner outer
                  ∧ rest
                    = optionWord config.maxDepth option owner.callback entered
                      ++ ⟨.exit .optionDef option, left⟩ :: more)
        ∧ (∀ e ∈ events,
            ∀ owner,
              e.callback.optionOwner? = some owner
              → ClosesOption events e ∧ e.context.nearestAncestor [.rule, .block] = owner)
        ∧ ∀ option s,
            ((Visit.of .optionDef option).start config s).1 = .ok ()
            ↔ option.option?.isSome = true ∧ s.stack.length + 1 < config.maxDepth := by
  obtain ⟨w, hserved, idle, rfl⟩ := serveAll_config (idle_create config) earlier
  obtain ⟨p, named, events, hevents, unfolds⟩ := idle.result_expands call
  refine ⟨w, _, _, events, hserved, idle.serve_eq call, ?_, ?_, ?_, ?_⟩
  · exact (WalkState.conclude_events _ _).trans hevents
  · intro fromGrammar before option entered rest split
    obtain rfl := named _ fromGrammar
    obtain ⟨around, hopen, enters⟩ := unfolds.entersOption .nil split [] rfl
    obtain ⟨v, isOption, rfl, nested⟩ := enters.nested
    obtain ⟨options, outer, owner, houter, isOptions, isMember, isAround, hcallback⟩ :=
      nested.owner isOption
    obtain ⟨left, more, hrest⟩ := enters.word
    refine ⟨options, outer, owner, left, more, hopen.trans houter, ?_, isOptions, isMember,
      isAround, hcallback ▸ hrest⟩
    have hkinds := congrArg (List.map (fun visit : Production × Node => visit.2.kind)) houter
    rw [List.map_map, List.map_cons] at hkinds
    exact enters.path.trans (congrArg (v.node.kind :: ·) hkinds)
  · intro e he owner howner
    have closes := unfolds.closesOption he (by simp [howner])
    refine ⟨closes, ?_⟩
    obtain ⟨before, option, entered, value, inside, left, more, split⟩ := closes
    obtain ⟨around, -, enters⟩ := unfolds.entersOption .nil split [] rfl
    obtain ⟨last, later, hrest⟩ := enters.word
    rcases optionWord_cases w.config.maxDepth option (optionAmong (around.map (·.node))) entered
      with h | ⟨id, read, _, h⟩
    · rw [h] at hrest
      cases hrest
    · rw [h] at hrest
      cases hrest
      rw [Context.nearestAncestor, enters.path]
      rw [optionAmong_owner, List.map_map] at howner
      exact Option.some.inj howner
  · intro option s
    rw [Visit.start, Visit.run_optionDef_eq_ok rfl, Nat.lt_sub_iff_add_lt, Nat.add_comm 1]
    rfl

end Walker

/-- Options with one member. -/
def oneOption (name value : String) : Node :=
  .withChildren .options [.withChildren .assign [.leaf .id name, .leaf .id value]]

/-- A grammar with an option of its own, of a rule and of a block in the alternative of the rule. -/
def threeOptionsGrammar : Node :=
  .grammar .combined [
    .leaf .id "G",
    oneOption "language" "Java",
    .withChildren .rules [
      .rule [
        .leaf .ruleRef "r",
        oneOption "k" "two",
        .withChildren .block [
          .withChildren .alt [
            .withChildren .block [oneOption "greedy" "no", .withChildren .alt [.leaf .tokenRef "T"]]
          ]
        ]
      ]
    ]
  ]

example
    : (walk threeOptionsGrammar {}).events.filterMap (·.callback.optionOwner?)
      = [none, some .rule, some .block] := by
  rfl

end GrammarFrontend
