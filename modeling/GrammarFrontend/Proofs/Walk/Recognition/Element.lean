import GrammarFrontend.Proofs.Walk.Readings
import Mathlib.Tactic.Simproc.ExistsAndEq

/-! What alternatives and elements conform to. The productions below a block or an alternative come
back to blocks and alternatives, so that these are settled together by induction on the size of the
node; all others follow from the productions that they visit.
-/

namespace GrammarFrontend.TreeGrammar

open Form Slot Shape

attribute [local simp] Visit.plan Visit.of Form.kind Form.slots? and_assoc

-----------------------------------------------------------------------------------------
-- Options
-----------------------------------------------------------------------------------------

variable {n : Node}

theorem accepts_optionValue
    : Accepts .optionValue [token .id, token .stringLiteral, token .int] n := by
  intro parts element
  rw [Visit.conforms_iff]
  simp [Plan.optionValue, Plan.optionValueKinds]

theorem accepts_optionDef : Accepts .optionDef [option] n := by
  intro parts element
  rw [Visit.conforms_iff]
  simp [derives_iff, Plan.optionDef, accepts_optionValue, Plan.optionValueKinds]

theorem accepts_optionsSpec : Accepts .optionsSpec [options] n := by
  intro parts element
  rw [Visit.conforms_iff, oneOf_singleton, derives_iff]
  simp [Plan.optionsSpec, accepts_optionDef]

theorem accepts_elementOption : Accepts .elementOption [token .id, elementAssign] n := by
  intro parts element
  rw [Visit.conforms_iff]
  simp only [Visit.plan, Plan.elementOption]
  split <;> simp_all [derives_iff]

theorem accepts_elementOptions : Accepts .elementOptions [elementOptions] n := by
  intro parts element
  rw [Visit.conforms_iff, oneOf_singleton, derives_iff]
  simp [Plan.elementOptions, accepts_elementOption]

/-- Options at the front of an element are read if they are there, and the nodes after them are what
is left for the rest.
-/
theorem yields_leadingOptions {more : List Slot} {nodes : List Node}
    (hfirst : .elementOptions ∉ firstKinds more)
    : Yields (opt [elementOptions] :: more) nodes
      ↔ (Plan.leadingOptions n nodes).1.Conforms Visit.Conforms
        ∧ Yields more (Plan.leadingOptions n nodes).2 := by
  rw [yields_opt_iff_takeIf .elementOptions rfl hfirst]
  simp [Plan.leadingOptions, Plan.optionsOf, accepts_elementOptions]

theorem yields_options_last {nodes : List Node}
    : Yields [opt [elementOptions]] nodes
      ↔ (Plan.leadingOptions n nodes).1.Conforms Visit.Conforms
        ∧ (Plan.leadingOptions n nodes).2 = [] := by
  rw [yields_leadingOptions (by decide), yields_nil]

-----------------------------------------------------------------------------------------
-- Atoms
-----------------------------------------------------------------------------------------

theorem accepts_range : Accepts .range [range] n := by
  intro parts element
  rw [Visit.conforms_iff, oneOf_singleton, derives_iff]
  simp [Plan.range]

/-- A token or a literal has nothing but options. -/
theorem conforms_terminalOf {p : Production}
    : (Plan.terminalOf p n).Conforms Visit.Conforms ↔ OneOf terminals n := by
  have hplan
      : (Plan.terminalOf p n).Conforms Visit.Conforms
        ↔ (n.kind = .stringLiteral ∨ n.kind = .tokenRef)
          ∧ Yields [opt [elementOptions]] n.children := by
    simp [Plan.terminalOf, ← yields_options_last]
  rw [hplan, or_and_right]
  simp [terminals, derives_iff]

theorem accepts_terminal : Accepts .terminal terminals n := by
  intro parts element
  rw [Visit.conforms_iff]
  exact conforms_terminalOf

theorem accepts_setElement : Accepts .setElement setElements n := by
  intro parts element
  rw [Visit.conforms_iff]
  simp only [Visit.plan, Plan.setElement]
  split
  case h_1 hk => exact conforms_terminalOf.trans (oneOf_congr hk rfl)
  case h_2 hk => exact conforms_terminalOf.trans (oneOf_congr hk rfl)
  case h_3 hk => exact (accepts_range _ _).trans (oneOf_congr hk rfl)
  case h_4 hk => exact iff_of_true trivial (oneOf_of_token (by simp [setElements]) hk)
  case h_5 => exact iff_of_false id (not_oneOf (by simp_all [setElements, terminals]))

theorem accepts_blockSet : Accepts .blockSet [set] n := by
  intro parts element
  rw [Visit.conforms_iff, oneOf_singleton, derives_iff]
  simp [Plan.blockSet, accepts_setElement]

theorem conforms_wildcard (hk : n.kind = .wildcard)
    : (Plan.wildcard n).Conforms Visit.Conforms ↔ Derives wildcard n := by
  rw [derives_iff]
  simp [Plan.wildcard, hk, ← yields_options_last]

theorem accepts_ruleReference : Accepts .ruleReference [ruleReference] n := by
  intro parts element
  rw [Visit.conforms_iff, oneOf_singleton, derives_iff]
  simp [Plan.ruleReference, ← yields_options_last, yields_opt_token, firstKinds]

/-- What can be complemented is a set, or a block where one is allowed. -/
theorem conforms_complementOf {p : Production} {allowsBlock : Bool}
    : (Plan.complementOf p allowsBlock n).Conforms Visit.Conforms
      ↔ ∃ target,
          n.children = [target]
          ∧ (Derives set target
            ∨ allowsBlock = true ∧ target.kind = .block ∧ (Visit.of .block target).Conforms) := by
  have hplan
      : (Plan.complementOf p allowsBlock n).Conforms Visit.Conforms
        ↔ ∃ target,
            n.children = [target]
            ∧ target.kind ∈ (if allowsBlock then [.set, .block] else [.set] : List NodeKind)
            ∧ if target.kind = .block then (Visit.of .block target).Conforms
              else Derives set target := by
    simp [Plan.complementOf, accepts_blockSet]
  rw [hplan]
  refine exists_congr (fun target => and_congr_right (fun _ => ?_))
  by_cases hblock : target.kind = .block
  · have hset : ¬ Derives set target := fun derives => by simp [derives.kind_eq] at hblock
    cases allowsBlock <;> simp [hblock, hset]
  · have hset : Derives set target → target.kind = .set := Derives.kind_eq
    cases allowsBlock <;> simpa [hblock] using hset

/-- Where no block is allowed, only a set can be complemented. -/
theorem conforms_complementOf_set {p : Production} (hk : n.kind = .complement)
    : (Plan.complementOf p false n).Conforms Visit.Conforms ↔ Derives notSet n := by
  rw [conforms_complementOf, derives_iff]
  simp [hk]

/-- A qualified name names a terminal or refers to a rule. -/
theorem conforms_qualified (hk : n.kind = .dot)
    : (Plan.qualified n).Conforms Visit.Conforms ↔ Derives qualified n := by
  have hplan
      : (Plan.qualified n).Conforms Visit.Conforms
        ↔ ∃ id target,
            n.children = [id, target]
            ∧ id.kind = .id
            ∧ target.kind ∈ [.stringLiteral, .tokenRef, .ruleRef]
            ∧ if target.kind = .ruleRef then Derives ruleReference target
              else OneOf terminals target := by
    simp [Plan.qualified, accepts_terminal, accepts_ruleReference]
  have htarget {target : Node}
      : (target.kind ∈ [.stringLiteral, .tokenRef, .ruleRef]
          ∧ if target.kind = .ruleRef then Derives ruleReference target else OneOf terminals target)
        ↔ OneOf (terminals ++ [ruleReference]) target := by
    rw [oneOf_append, oneOf_singleton]
    by_cases hrule : target.kind = .ruleRef
    · have hother : ¬ OneOf terminals target := not_oneOf (by simp [hrule, terminals])
      simp [hrule, hother]
    · have hother : ¬ Derives ruleReference target := fun h => hrule h.kind_eq
      have hkind (h : OneOf terminals target)
          : target.kind = .stringLiteral ∨ target.kind = .tokenRef := by
        simpa [terminals] using h.kind_mem
      simpa [hrule, hother] using hkind
  simp only [hplan, htarget]
  simp [derives_iff, hk]

theorem accepts_atom : Accepts .atom atoms n := by
  intro parts element
  rw [Visit.conforms_iff]
  simp only [Visit.plan, Plan.atom]
  split
  case h_1 hk => exact (conforms_complementOf_set hk).trans (derives_iff_oneOf hk rfl)
  case h_2 hk => exact (accepts_blockSet _ _).trans (oneOf_congr hk rfl)
  case h_3 hk => exact (conforms_wildcard hk).trans (derives_iff_oneOf hk rfl)
  case h_4 hk => exact (conforms_qualified hk).trans (derives_iff_oneOf hk rfl)
  case h_5 hk => exact (accepts_terminal _ _).trans (oneOf_congr hk rfl)
  case h_6 hk => exact (accepts_terminal _ _).trans (oneOf_congr hk rfl)
  case h_7 hk => exact (accepts_ruleReference _ _).trans (oneOf_congr hk rfl)
  case h_8 => exact iff_of_false id (not_oneOf (by simp_all [atoms, terminals]))

theorem accepts_lexerAtom : Accepts .lexerAtom lexerAtoms n := by
  intro parts element
  rw [Visit.conforms_iff]
  simp only [Visit.plan, Plan.lexerAtom]
  split
  case h_1 hk => exact (accepts_terminal _ _).trans (oneOf_congr hk rfl)
  case h_2 hk => exact (accepts_terminal _ _).trans (oneOf_congr hk rfl)
  case h_3 hk => exact (conforms_complementOf_set hk).trans (derives_iff_oneOf hk rfl)
  case h_4 hk => exact (accepts_blockSet _ _).trans (oneOf_congr hk rfl)
  case h_5 hk => exact (conforms_wildcard hk).trans (derives_iff_oneOf hk rfl)
  case h_6 hk => exact iff_of_true trivial (oneOf_of_token (by simp [lexerAtoms]) hk)
  case h_7 hk => exact (accepts_range _ _).trans (oneOf_congr hk rfl)
  case h_8 hk => exact (accepts_ruleReference _ _).trans (oneOf_congr hk rfl)
  case h_9 => exact iff_of_false id (not_oneOf (by simp_all [lexerAtoms, terminals]))

/-- An action or a predicate has nothing but options. -/
theorem accepts_actionElement : Accepts .actionElement actions n := by
  intro parts element
  have hplan
      : (Plan.actionElement n).Conforms Visit.Conforms
        ↔ (n.kind = .action ∨ n.kind = .sempred) ∧ Yields [opt [elementOptions]] n.children := by
    simp [Plan.actionElement, ← yields_options_last]
  rw [Visit.conforms_iff, Visit.plan, hplan, or_and_right]
  simp [actions, derives_iff]

-----------------------------------------------------------------------------------------
-- Alternatives and blocks
-----------------------------------------------------------------------------------------

/-- An alternative is empty or made of items, where the items below the node are accepted. -/
theorem conforms_alternativeOf {p item : Production} {items : List Form}
    (hitems : ∀ child ∈ n.children, Accepts item items child)
    (hfirst : .elementOptions ∉ firstKinds [many1 items])
    : (Plan.alternativeOf p item n).Conforms Visit.Conforms
      ↔ n.kind = .alt
        ∧ (Yields [opt [elementOptions], one [token .epsilon]] n.children
          ∨ Yields [opt [elementOptions], many1 items] n.children) := by
  rw [yields_leadingOptions (n := n) (by decide), yields_leadingOptions (n := n) hfirst,
    ← and_or_left]
  have hrest : ∀ child ∈ (Plan.leadingOptions n n.children).2, Accepts item items child :=
    fun child hchild => hitems child ((takeIf_suffix _ _).subset hchild)
  have hempty {nodes : List Node}
      : Yields [one [token .epsilon]] nodes ↔ ∃ child, nodes = [child] ∧ child.kind = .epsilon := by
    simp
  simp only [Plan.alternativeOf, bind_pure_comp, Plan.ofReading_map_conforms, requireKind_eq_ok,
    List.mem_singleton, exists_const, Plan.Conforms, Plan.steps_conforms, List.forall_mem_cons,
    forall_eq, hempty, yields_many1_last]
  refine and_congr_right (fun _ => and_congr_right (fun _ => ?_))
  generalize (Plan.leadingOptions n n.children).2 = rest at *
  split
  case h_1 h =>
    obtain rfl := List.map_eq_nil_iff.mp h
    simp
  case h_2 h => exact iff_of_true trivial (.inl (List.map_eq_singleton_iff.mp h))
  case h_3 hfilled hother =>
    have hne : rest ≠ [] := by
      intro hrest
      exact hfilled (by rw [hrest, List.map_nil])
    have hno : ¬ ∃ child, rest = [child] ∧ child.kind = .epsilon := by
      intro hempty
      obtain ⟨child, hrest, hchild⟩ := hempty
      exact hother (by rw [hrest, List.map_singleton, hchild])
    simp [hne, hno, forall_conforms_iff hrest]

theorem accepts_alternative (h : ∀ child ∈ n.children, Accepts .element elements child)
    : Accepts .alternative alternatives n := by
  intro parts element
  rw [Visit.conforms_iff]
  simp only [Visit.plan, Plan.alternative]
  rw [conforms_alternativeOf h (by decide)]
  rw [alternatives, oneOf_cons, oneOf_singleton, derives_iff, derives_iff, and_or_left]
  simp

/-- Between lexer elements an empty one may stand, also alone. -/
theorem accepts_lexerElements (h : ∀ child ∈ n.children, Accepts .lexerElement lexerItems child)
    : Accepts .lexerElements [lexerElements] n := by
  intro parts element
  have hempty {nodes : List Node}
      : Yields [one [token .epsilon]] nodes → Yields [many1 lexerItems] nodes := by
    intro hone
    obtain ⟨child, rest, rfl, head, more⟩ := yields_one.mp hone
    obtain rfl := yields_nil.mp more
    simp_all [lexerItems]
  rw [Visit.conforms_iff, oneOf_singleton, derives_iff]
  simp only [Visit.plan, Plan.lexerElements]
  rw [conforms_alternativeOf h (by decide), or_iff_right_of_imp]
  · simp
  · intro hyields
    rcases yields_opt.mp hyields with more | more
    · exact .skip (hempty more)
    · obtain ⟨options, rest, hsplit, head, more⟩ := yields_one.mp more
      exact .take (yields_one.mpr ⟨options, rest, hsplit, head, hempty more⟩)

theorem accepts_ruleAction : Accepts .ruleAction [ruleAction] n := by
  intro parts element
  rw [Visit.conforms_iff, oneOf_singleton, derives_iff]
  simp [Plan.ruleAction]

theorem accepts_block (h : ∀ child ∈ n.children, Accepts .alternative alternatives child)
    : Accepts .block [block] n := by
  intro parts element
  have hoptions := takeIf_suffix .options n.children
  have hactions := takeRun_suffix [.namedAction] (takeIf .options n.children).2
  have haction :=
    takeIf_suffix .action (takeRun [.namedAction] (takeIf .options n.children).2).2
  have hrest
      : ∀ child ∈ (takeIf .action (takeRun [.namedAction] (takeIf .options n.children).2).2).2,
          Accepts .alternative alternatives child :=
    fun child hchild => h child (((haction.trans hactions).trans hoptions).subset hchild)
  have hslots
      : Yields [opt [options], many [ruleAction], opt [token .action], many1 alternatives]
          n.children
        ↔ (∀ child ∈ (takeIf .options n.children).1, OneOf [options] child)
          ∧ (∀ child ∈ (takeRun [.namedAction] (takeIf .options n.children).2).1,
              OneOf [ruleAction] child)
          ∧ Yields [many1 alternatives]
              (takeIf .action (takeRun [.namedAction] (takeIf .options n.children).2).2).2 := by
    rw [yields_opt_iff_takeIf .options rfl (by decide),
      yields_many_iff_takeRun [.namedAction] (by decide) (by decide),
      yields_opt_token .action (by decide)]
  rw [Visit.conforms_iff, oneOf_singleton, derives_iff]
  simp [Plan.block, accepts_optionsSpec, accepts_ruleAction, hslots, forall_conforms_iff hrest]

theorem accepts_lexerBlock
    (h : ∀ child ∈ n.children, Accepts .lexerAlternative lexerAlternatives child)
    : Accepts .lexerBlock [lexerBlock] n := by
  intro parts element
  have hrest
      : ∀ child ∈ (takeIf .options n.children).2,
          Accepts .lexerAlternative lexerAlternatives child :=
    fun child hchild => h child ((takeIf_suffix .options n.children).subset hchild)
  have hslots
      : Yields [opt [options], many1 lexerAlternatives] n.children
        ↔ (∀ child ∈ (takeIf .options n.children).1, OneOf [options] child)
          ∧ Yields [many1 lexerAlternatives] (takeIf .options n.children).2 := by
    rw [yields_opt_iff_takeIf .options rfl (by decide)]
  rw [Visit.conforms_iff, oneOf_singleton, derives_iff]
  simp [Plan.lexerBlock, accepts_optionsSpec, hslots, forall_conforms_iff hrest]

theorem accepts_ebnfSuffix
    : Accepts .ebnfSuffix [token .optional, token .closure, token .positiveClosure] n := by
  intro parts element
  rw [Visit.conforms_iff]
  simp [Plan.ebnfSuffix]

theorem accepts_blockSuffix
    : Accepts .blockSuffix [token .optional, token .closure, token .positiveClosure] n := by
  intro parts element
  rw [Visit.conforms_iff]
  simp [Plan.blockSuffix, accepts_ebnfSuffix]

/-- A subrule is a block of its own or a suffix around one, where the forms with a suffix are known
for the node.
-/
theorem conforms_suffixedBlock {p : Production} {inner : Form} {suffixed : NodeKind → Form}
    (hinner : inner.kind = .block)
    (hsuffixed : ∀ suffix,
      Derives (suffixed suffix) n
      ↔ n.kind = suffix ∧ ∃ child, n.children = [child] ∧ Derives inner child)
    (hblock : ∀ child, child = n ∨ child ∈ n.children → Accepts p [inner] child)
    : (Plan.suffixedBlock p n).Conforms Visit.Conforms
      ↔ OneOf [inner, suffixed .optional, suffixed .closure, suffixed .positiveClosure] n := by
  simp only [oneOf_cons, hsuffixed, oneOf_nil, or_false, ← or_and_right]
  unfold Plan.suffixedBlock
  split
  · rename_i hsuffix
    have hchild
        : (∃ child,
            n.children = [child]
            ∧ child.kind = .block
            ∧ Visit.Conforms ⟨p, child, child.children, child⟩)
          ↔ ∃ child, n.children = [child] ∧ Derives inner child := by
      refine exists_congr (fun child => and_congr_right (fun hchildren => ?_))
      have haccepts := hblock child (.inr (by simp [hchildren]))
      rw [haccepts, oneOf_singleton]
      exact and_iff_right_of_imp (fun derives => derives.kind_eq.trans hinner)
    have hnot : ¬ Derives inner n := by
      intro derives
      rw [derives.kind_eq, hinner] at hsuffix
      cases hsuffix
    simp [accepts_blockSuffix, hnot, hchild]
  · rename_i hsuffix
    have hnot : ¬ (n.kind = .optional ∨ n.kind = .closure ∨ n.kind = .positiveClosure) := by
      intro h
      rcases h with h | h | h <;> rw [h] at hsuffix <;> exact hsuffix rfl
    rw [or_iff_left (fun h => hnot h.1)]
    exact (hblock n (.inl rfl) _ _).trans oneOf_singleton

theorem accepts_subrule (h : ∀ child, child = n ∨ child ∈ n.children → Accepts .block [block] child)
    : Accepts .subrule subrules n := by
  intro parts element
  rw [Visit.conforms_iff]
  exact conforms_suffixedBlock rfl (fun suffix => by simp [derives_iff]) h

theorem accepts_lexerSubrule
    (h : ∀ child, child = n ∨ child ∈ n.children → Accepts .lexerBlock [lexerBlock] child)
    : Accepts .lexerSubrule lexerSubrules n := by
  intro parts element
  rw [Visit.conforms_iff]
  exact conforms_suffixedBlock rfl (fun suffix => by simp [derives_iff]) h

-----------------------------------------------------------------------------------------
-- Elements
-----------------------------------------------------------------------------------------

theorem accepts_labeledElement (h : ∀ child ∈ n.children, Accepts .element elements child)
    : Accepts .labeledElement [labeled .assign, labeled .plusAssign] n := by
  intro parts element
  rw [Visit.conforms_iff]
  rcases hchildren : n.children with _ | ⟨id, _ | ⟨target, rest⟩⟩
  · simp [Plan.labeledElement, derives_iff, hchildren]
  · simp [Plan.labeledElement, derives_iff, hchildren]
  · have htarget := h target (by simp [hchildren])
    simp [Plan.labeledElement, derives_iff, hchildren, htarget, or_and_right]

/-- In an element of its own, a set or a block can be complemented. -/
theorem conforms_complementOf_block {p : Production} (hk : n.kind = .complement)
    (h : ∀ child ∈ n.children, Accepts .block [block] child)
    : (Plan.complementOf p true n).Conforms Visit.Conforms ↔ OneOf elements n := by
  have hset (derives : Derives notSet n) : Derives notSetOrBlock n := by
    obtain ⟨hkind, yields⟩ := derives_iff.mp derives
    obtain ⟨target, rest, hchildren, hone, more⟩ := yields_one.mp (yields _ rfl)
    refine derives_iff.mpr ⟨hkind, ?_⟩
    simp_all
  have hform : OneOf elements n ↔ Derives notSetOrBlock n := by
    rw [oneOf_iff_filter hk, show elements.filter _ = [notSetOrBlock, notSet] from rfl, oneOf_cons,
      oneOf_singleton]
    exact or_iff_left_of_imp hset
  have hchild {child : Node} (hchildren : n.children = [child])
      : child.kind = .block ∧ (Visit.of .block child).Conforms ↔ Derives block child := by
    rw [Visit.of, h child (by simp [hchildren]), oneOf_singleton]
    exact and_iff_right_of_imp Derives.kind_eq
  have hyields
      : Yields [one [set, block]] n.children
        ↔ ∃ child, n.children = [child] ∧ (Derives set child ∨ Derives block child) := by
    simp
  rw [conforms_complementOf, hform, derives_iff]
  simp only [hk, Form.kind, Form.slots?, Option.mem_some_iff, forall_eq', true_and, hyields]
  refine exists_congr (fun child => and_congr_right (fun hchildren => ?_))
  rw [hchild hchildren]

theorem accepts_element
    (hblock : ∀ child, child = n ∨ child ∈ n.children → Accepts .block [block] child)
    (helement : ∀ child ∈ n.children, Accepts .element elements child)
    : Accepts .element elements n := by
  intro parts element
  rw [Visit.conforms_iff]
  simp only [Visit.plan, Plan.element]
  split
  case h_1 hk => exact (accepts_labeledElement helement _ _).trans (oneOf_congr hk rfl)
  case h_2 hk => exact (accepts_labeledElement helement _ _).trans (oneOf_congr hk rfl)
  case h_3 hk => exact (accepts_subrule hblock _ _).trans (oneOf_congr hk rfl)
  case h_4 hk => exact (accepts_subrule hblock _ _).trans (oneOf_congr hk rfl)
  case h_5 hk => exact (accepts_subrule hblock _ _).trans (oneOf_congr hk rfl)
  case h_6 hk => exact (accepts_subrule hblock _ _).trans (oneOf_congr hk rfl)
  case h_7 hk => exact (accepts_actionElement _ _).trans (oneOf_congr hk rfl)
  case h_8 hk => exact (accepts_actionElement _ _).trans (oneOf_congr hk rfl)
  case h_9 hk => exact (accepts_range _ _).trans (oneOf_congr hk rfl)
  case h_10 hk =>
    exact conforms_complementOf_block hk (fun child hchild => hblock child (.inr hchild))
  case h_11 =>
    have hother
        : ¬ OneOf
            ([labeled .assign, labeled .plusAssign, notSetOrBlock, range] ++ subrules ++ actions)
            n :=
      not_oneOf (by simp_all [subrules, actions])
    exact (accepts_atom _ _).trans (by rw [elements, oneOf_append, or_iff_right hother])

theorem accepts_lexerCommandExpr : Accepts .lexerCommandExpr [token .id, token .int] n := by
  intro parts element
  rw [Visit.conforms_iff]
  simp [Plan.lexerCommandExpr]

theorem accepts_lexerCommand : Accepts .lexerCommand [token .id, lexerActionCall] n := by
  intro parts element
  rw [Visit.conforms_iff]
  simp only [Visit.plan, Plan.lexerCommand]
  split <;> simp_all [derives_iff, accepts_lexerCommandExpr]

theorem accepts_lexerAlternative
    (h : ∀ child, child = n ∨ child ∈ n.children → Accepts .lexerElements [lexerElements] child)
    : Accepts .lexerAlternative lexerAlternatives n := by
  intro parts element
  rw [Visit.conforms_iff]
  simp only [Visit.plan, Plan.lexerAlternative]
  split
  case h_1 hk =>
    have hform : Derives lexerAltAction n ↔ OneOf lexerAlternatives n := derives_iff_oneOf hk rfl
    rw [← hform, derives_iff]
    rcases hchildren : n.children with _ | ⟨first, commands⟩
    · simp
    · have hfirst := h first (.inr (by simp [hchildren]))
      have hkind : lexerElements.kind = .alt := rfl
      simp [hk, accepts_lexerCommand, hfirst, kind_and_derives hkind]
  case h_2 hk => exact (h n (.inl rfl) _ _).trans (oneOf_congr hk rfl)
  case h_3 => exact iff_of_false id (not_oneOf (by simp_all [lexerAlternatives]))

theorem accepts_lexerElement
    (h : ∀ child, child = n ∨ child ∈ n.children → Accepts .lexerBlock [lexerBlock] child)
    : Accepts .lexerElement lexerItems n := by
  intro parts element
  rw [Visit.conforms_iff]
  simp only [Visit.plan, Plan.lexerElement]
  split
  case h_1 hk => exact (accepts_actionElement _ _).trans (oneOf_congr hk rfl)
  case h_2 hk => exact (accepts_actionElement _ _).trans (oneOf_congr hk rfl)
  case h_3 hk => exact iff_of_true trivial (oneOf_of_token (by simp [lexerItems]) hk)
  case h_4 hk => exact (accepts_lexerSubrule h _ _).trans (oneOf_congr hk rfl)
  case h_5 hk => exact (accepts_lexerSubrule h _ _).trans (oneOf_congr hk rfl)
  case h_6 hk => exact (accepts_lexerSubrule h _ _).trans (oneOf_congr hk rfl)
  case h_7 hk => exact (accepts_lexerSubrule h _ _).trans (oneOf_congr hk rfl)
  case h_8 =>
    have hother : ¬ OneOf ([token .epsilon] ++ actions ++ lexerSubrules) n :=
      not_oneOf (by simp_all [lexerSubrules, actions])
    exact (accepts_lexerAtom _ _).trans (by rw [lexerItems, oneOf_append, or_iff_right hother])

-----------------------------------------------------------------------------------------
-- All nodes
-----------------------------------------------------------------------------------------

/-- The children of a node are smaller than the node. -/
theorem sizeOf_lt_of_child {child : Node} (h : child ∈ n.children) : sizeOf child < sizeOf n := by
  have hlt := List.sizeOf_lt_of_mem h
  obtain ⟨kind, token, text, children, payload⟩ := n
  simp only [Node.mk.sizeOf_spec]
  simp only at hlt
  omega

/-- Alternatives, blocks and elements are accepted as they should be, by strong induction on the
size of the node. A block needs the alternatives below it, an alternative the elements below it, and
an element the block that it may be itself.
-/
theorem accepts_inRule (n : Node)
    : Accepts .alternative alternatives n
      ∧ Accepts .block [block] n
      ∧ Accepts .element elements n := by
  have below
      : ∀ child ∈ n.children,
          Accepts .alternative alternatives child
          ∧ Accepts .block [block] child
          ∧ Accepts .element elements child :=
    fun child hchild => accepts_inRule child
  have helements : ∀ child ∈ n.children, Accepts .element elements child :=
    fun child hchild => (below child hchild).2.2
  have hblock := accepts_block (fun child hchild => (below child hchild).1)
  refine ⟨accepts_alternative helements, hblock, accepts_element ?_ helements⟩
  intro child hchild
  rcases hchild with rfl | hchild
  · exact hblock
  · exact (below child hchild).2.1
termination_by sizeOf n
decreasing_by exact sizeOf_lt_of_child hchild

/-- Lexer elements, blocks and alternatives are accepted as they should be, by strong induction on
the size of the node.
-/
theorem accepts_inLexerRule (n : Node)
    : Accepts .lexerElements [lexerElements] n
      ∧ Accepts .lexerBlock [lexerBlock] n
      ∧ Accepts .lexerAlternative lexerAlternatives n
      ∧ Accepts .lexerElement lexerItems n := by
  have below
      : ∀ child ∈ n.children,
          Accepts .lexerElements [lexerElements] child
          ∧ Accepts .lexerBlock [lexerBlock] child
          ∧ Accepts .lexerAlternative lexerAlternatives child
          ∧ Accepts .lexerElement lexerItems child :=
    fun child hchild => accepts_inLexerRule child
  have hlexerElements := accepts_lexerElements (fun child hchild => (below child hchild).2.2.2)
  have hblock := accepts_lexerBlock (fun child hchild => (below child hchild).2.2.1)
  refine ⟨hlexerElements, hblock, accepts_lexerAlternative ?_, accepts_lexerElement ?_⟩
  · intro child hchild
    rcases hchild with rfl | hchild
    · exact hlexerElements
    · exact (below child hchild).1
  · intro child hchild
    rcases hchild with rfl | hchild
    · exact hblock
    · exact (below child hchild).2.1
termination_by sizeOf n
decreasing_by exact sizeOf_lt_of_child hchild

end GrammarFrontend.TreeGrammar
