import GrammarFrontend.Proofs.Walk.Announcement.Basic
import GrammarFrontend.Proofs.Walk.Recognition.Element

/-! What is said of elements and alternatives, and of the blocks that they stand in. Each production
is one step into the tree, and no production leaves out or repeats what is below it.
-/

namespace GrammarFrontend.Plan

attribute [local simp] Visit.word Visit.of Callback.notice?

-----------------------------------------------------------------------------------------
-- Atoms
-----------------------------------------------------------------------------------------

/-- A token or a literal is announced as what it is. -/
theorem terminalOf_gives (p : Production) (n : Node) : (terminalOf p n).Gives n.word := by
  refine gives_requireKind ?_
  intro hkinds
  have hkind : n.kind = .stringLiteral ∨ n.kind = .tokenRef := by simpa using hkinds
  have hword
      : (if n.kind == .stringLiteral then Callback.stringRef n else .tokenRef n).notice?.toList
        = n.word := by
    rcases hkind with hk | hk <;> simp [hk, Node.word_of_reference hk rfl]
  rw [← hword]
  exact gives_optionsThen

theorem wildcard_gives {n : Node} (hk : n.kind = .wildcard) : (wildcard n).Gives n.word := by
  rw [Node.word_of_reference hk rfl]
  exact gives_optionsThen

theorem ruleReference_gives (n : Node) : (ruleReference n).Gives n.word := by
  refine gives_requireKind_one ?_
  intro hk
  rw [Node.word_of_reference hk rfl]
  exact gives_optionsThen

/-- Of a complement is said what is said of what it complements. -/
theorem complementOf_gives {p : Production} {allowsBlock : Bool} {n : Node}
    (hk : n.kind = .complement)
    : (complementOf p allowsBlock n).Gives n.word := by
  refine gives_expect ?_
  intro target rest hchildren _
  refine gives_finish ?_
  rintro rfl
  rw [Node.word_of_composite hk rfl (by simp), hchildren]
  intro _
  show echo Visit.word (if _ then _ else _) = _
  rw [echo_ite]
  split <;> simp

/-- Of a qualified name is said what is said of its target. -/
theorem qualified_gives {n : Node} (hk : n.kind = .dot) : (qualified n).Gives n.word := by
  refine gives_expect_one ?_
  intro id rest hchildren hid
  refine gives_expect ?_
  intro target more hrest _
  refine gives_finish ?_
  rintro rfl
  have hnothing : id.word = [] := Node.word_of_other hid rfl rfl
  rw [Node.word_of_composite hk rfl (by simp), hchildren, hrest]
  intro _
  show echo Visit.word (if _ then _ else _) = _
  rw [echo_ite]
  split <;> simp [hnothing]

/-- Of a set is said what is said of its elements. -/
theorem blockSet_gives (n : Node) : (blockSet n).Gives n.word := by
  refine gives_requireKind_one ?_
  intro hk
  rw [Node.word_of_composite hk rfl (by simp)]
  exact eachRequired_gives (fun _ => rfl) _

theorem setElement_gives (n : Node) : (setElement n).Gives n.word := by
  unfold setElement
  split
  case h_1 | h_2 => exact terminalOf_gives _ n
  case h_3 hk => exact fun _ => (Node.word_of_other hk rfl rfl).symm
  case h_4 hk => exact fun _ => (Node.word_of_other hk rfl rfl).symm
  case h_5 => exact False.elim

theorem atom_gives (n : Node) : (atom n).Gives n.word := by
  unfold atom
  -- A visit of the same node as something narrower says the same.
  split
  case h_1 hk => exact complementOf_gives hk
  case h_2 | h_5 | h_6 | h_7 => exact fun _ => rfl
  case h_3 hk => exact wildcard_gives hk
  case h_4 hk => exact qualified_gives hk
  case h_8 => exact False.elim

theorem lexerAtom_gives (n : Node) : (lexerAtom n).Gives n.word := by
  unfold lexerAtom
  split
  case h_1 | h_2 | h_4 | h_8 => exact fun _ => rfl
  case h_3 hk => exact complementOf_gives hk
  case h_5 hk => exact wildcard_gives hk
  case h_6 hk | h_7 hk => exact fun _ => (Node.word_of_other hk rfl rfl).symm
  case h_9 => exact False.elim

-----------------------------------------------------------------------------------------
-- Elements
-----------------------------------------------------------------------------------------

/-- A suffix says nothing of its own. -/
theorem suffixedBlock_gives {p : Production}
    (hinner : ∀ inner : Node, Visit.word (.of p inner) = inner.word) (n : Node)
    : (suffixedBlock p n).Gives n.word := by
  rw [suffixedBlock]
  split
  · rename_i hsuffix
    have hword : n.word = n.children.flatMap Node.word := by
      cases hk : n.kind <;> simp [hk, NodeKind.isEbnfSuffix] at hsuffix <;>
        exact Node.word_of_composite hk rfl (by simp)
    refine .beside rfl (.last (gives_expect ?_))
    intro inner rest hchildren _
    refine gives_finish ?_
    rintro rfl
    rw [hword, hchildren, List.flatMap_singleton]
    exact fun _ => hinner inner
  · exact fun _ => hinner n

theorem labeledElement_gives (n : Node) : (labeledElement n).Gives n.word := by
  refine gives_requireKind ?_
  intro hkinds
  have hk : n.kind = .assign ∨ n.kind = .plusAssign := by simpa using hkinds
  have hword : n.word = n.children.flatMap Node.word := by
    rcases hk with hk | hk <;> exact Node.word_of_composite hk rfl (by simp)
  rw [hword]
  refine gives_expect_one ?_
  intro id rest hchildren hid
  have hnothing : id.word = [] := Node.word_of_other hid rfl rfl
  rw [hchildren, List.flatMap_cons, hnothing, List.nil_append]
  cases rest with
  | nil => exact False.elim
  | cons element rest =>
      refine gives_finish ?_
      rintro rfl _
      rfl

theorem element_gives (n : Node) : (element n).Gives n.word := by
  unfold element
  split
  case h_1 | h_2 | h_3 | h_4 | h_5 | h_6 | h_11 => exact fun _ => rfl
  case h_7 hk | h_8 hk | h_9 hk => exact fun _ => (Node.word_of_other hk rfl rfl).symm
  case h_10 hk => exact complementOf_gives hk

theorem lexerElement_gives (n : Node) : (lexerElement n).Gives n.word := by
  unfold lexerElement
  split
  case h_1 hk | h_2 hk | h_3 hk => exact fun _ => (Node.word_of_other hk rfl rfl).symm
  case h_4 | h_5 | h_6 | h_7 | h_8 => exact fun _ => rfl

-----------------------------------------------------------------------------------------
-- Alternatives and blocks
-----------------------------------------------------------------------------------------

/-- An alternative is entered and left around its items. Its options say nothing, and neither does
the node that stands for no items.
-/
theorem alternativeOf_gives {p item : Production}
    (hitem : ∀ child : Node, Visit.word (.of item child) = child.word) (n : Node)
    : (alternativeOf p item n).Gives n.word := by
  refine gives_requireKind_one ?_
  intro hk
  have hchildren
      : n.children.flatMap Node.word = (leadingOptions n n.children).2.flatMap Node.word :=
    Shape.flatMap_takeIf .elementOptions (fun _ h => Node.word_of_other h rfl rfl) n.children
  have hoptions : (leadingOptions n n.children).1.echo Visit.word = [] := echo_leadingOptions
  rw [Node.word_of_alt hk, hchildren]
  generalize leadingOptions n n.children = leading at *
  obtain ⟨options, rest⟩ := leading
  intro conforms
  refine congrArg (fun notices => Notice.entered n :: (notices ++ [.left n])) ?_
  refine Gives.beside hoptions (Gives.last ?_) conforms
  intro hitems
  split at hitems
  case h_1 h => exact hitems.elim
  case h_2 h =>
    obtain ⟨child, rfl, hchild⟩ := List.map_eq_singleton_iff.mp h
    simp [Node.word_of_other hchild rfl rfl]
  case h_3 => exact echo_siblings (fun child _ => hitem child)

/-- Commands say nothing of constructs. -/
theorem lexerAlternative_gives (n : Node) : (lexerAlternative n).Gives n.word := by
  unfold lexerAlternative
  split
  case h_1 hk =>
    refine gives_expect ?_
    intro elements commands hchildren _ conforms
    have hplans := (eachRequired_conforms.mp (steps_conforms.mp conforms _ (.tail _ (.head _)))).2
    have hcommands : commands.flatMap Node.word = [] := by
      rw [List.flatMap_eq_nil_iff]
      intro command hcommand
      have hconform : (Visit.of .lexerCommand command).Conforms :=
        hplans _ (List.mem_map_of_mem hcommand)
      have hkind : command.kind = .id ∨ command.kind = .lexerActionCall := by
        simpa [TreeGrammar.Form.kind] using TreeGrammar.accepts_lexerCommand.kind_mem hconform
      rcases hkind with hkind | hkind <;> exact Node.word_of_other hkind rfl rfl
    rw [Node.word_of_composite hk rfl (by simp), hchildren, List.flatMap_cons, hcommands]
    exact congrArg (elements.word ++ ·) (by simp)
  case h_2 => exact fun _ => rfl
  case h_3 => exact False.elim

/-- What stands before the alternatives of a block says nothing. -/
theorem block_gives (n : Node) : (block n).Gives n.word := by
  refine gives_requireKind_one ?_
  intro hk
  rw [Node.word_of_composite hk rfl (by simp),
    Shape.flatMap_takeIf .options (fun _ h => Node.word_of_other h rfl rfl),
    Shape.flatMap_takeRun [.namedAction]
      (fun _ h => Node.word_of_other (List.mem_singleton.mp h) rfl rfl),
    Shape.flatMap_takeIf .action (fun _ h => Node.word_of_other h rfl rfl)]
  exact .beside (by simp) (.beside (by simp) (.last (eachRequired_gives (fun _ => rfl) _)))

theorem lexerBlock_gives (n : Node) : (lexerBlock n).Gives n.word := by
  refine gives_requireKind_one ?_
  intro hk
  rw [Node.word_of_composite hk rfl (by simp),
    Shape.flatMap_takeIf .options (fun _ h => Node.word_of_other h rfl rfl)]
  exact .beside (by simp) (.last (eachRequired_gives (fun _ => rfl) _))

/-- Of the outer alternatives of a block is said what is said of the block. -/
theorem outerAlternatives_gives {p outer : Production}
    (houter : ∀ alt : Node, Visit.word (.of outer alt) = alt.word) (n : Node)
    : (outerAlternatives p outer n).Gives n.word := by
  refine gives_requireKind_one ?_
  intro hk
  rw [Node.word_of_composite hk rfl (by simp)]
  refine eachRequired_gives ?_ n.children
  intro alt
  rw [echo_steps, List.flatMap_cons, List.flatMap_singleton, echo_visitAs, houter]
  rfl

theorem lexerOuterAlternative_gives (n : Node) : (lexerOuterAlternative n).Gives n.word :=
  fun _ => List.append_nil _

theorem outerAlternative_gives (n : Node) : (outerAlternative n).Gives n.word :=
  fun _ => List.append_nil _

end GrammarFrontend.Plan
