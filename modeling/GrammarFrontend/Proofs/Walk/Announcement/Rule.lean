import GrammarFrontend.Proofs.Walk.Announcement.Basic
import GrammarFrontend.Proofs.Walk.Recognition.Rule

/-! What is said of rules: each is found, its block is gone through, and it is finished. Its name,
its header and its handlers say nothing.
-/

namespace GrammarFrontend

attribute [local simp] Visit.word Visit.of Callback.notice?

-----------------------------------------------------------------------------------------
-- Children of rules
-----------------------------------------------------------------------------------------

namespace Node

/-- What is said of a child of a rule. -/
def wordInRule (n : Node) : List Notice := if n.kind == .block then n.word else []

theorem wordInRule_of_other {n : Node} (h : n.kind ≠ .block) : n.wordInRule = [] := by
  simp [wordInRule, h]

theorem wordInRule_of_block {n : Node} (h : n.kind = .block) : n.wordInRule = n.word := by
  simp [wordInRule, h]

theorem flatMap_filter {α : Type} (p : Node → Bool) (f : Node → List α) (nodes : List Node)
    : (nodes.filter p).flatMap f = nodes.flatMap (fun n => if p n then f n else []) := by
  induction nodes with
  | nil => rfl
  | cons n nodes ih =>
      rw [List.filter_cons, List.flatMap_cons, ← ih]
      split <;> rfl

/-- The name of a rule says of which sort the rule is, and the rest has its block. -/
theorem wordOfRule_eq {rule id : Node} {rest : List Node} (hchildren : rule.children = id :: rest)
    (hid : id.kind ≠ .block)
    : rule.wordOfRule
      = .found (some id.kind) rule
        :: (rest.flatMap wordInRule ++ [.finished (some id.kind) rule]) := by
  have hname : rule.nameKind? = some id.kind := by rw [nameKind?, hchildren, List.head?_cons]; rfl
  have hblocks : rule.blocks.flatMap word = rest.flatMap wordInRule := by
    calc rule.blocks.flatMap word
      _ = rule.children.flatMap wordInRule := flatMap_filter _ _ _
      _ = rest.flatMap wordInRule := by
          rw [hchildren, List.flatMap_cons, wordInRule_of_other hid, List.nil_append]
  rw [wordOfRule, hname, hblocks]

/-- What is no block before the rest says nothing in a rule. -/
theorem wordInRule_takeIf (kind : NodeKind) (h : kind ≠ .block) (nodes : List Node)
    : nodes.flatMap wordInRule = (Shape.takeIf kind nodes).2.flatMap wordInRule :=
  Shape.flatMap_takeIf kind (fun _ hn => wordInRule_of_other (hn ▸ h)) nodes

theorem wordInRule_takeRun (kinds : List NodeKind) (h : .block ∉ kinds) (nodes : List Node)
    : nodes.flatMap wordInRule = (Shape.takeRun kinds nodes).2.flatMap wordInRule :=
  Shape.flatMap_takeRun kinds (fun _ hn => wordInRule_of_other (fun hk => h (hk ▸ hn))) nodes

end Node

-----------------------------------------------------------------------------------------
-- Rules
-----------------------------------------------------------------------------------------

namespace Plan

theorem lexerRule_gives (n : Node) : (lexerRule n).Gives n.wordOfRule := by
  refine gives_requireKind ?_
  intro _
  refine gives_expect_one ?_
  intro id rest hchildren hid
  rw [Node.wordOfRule_eq hchildren (by simp [hid]), hid,
    Node.wordInRule_takeIf .docComment (by decide),
    Node.wordInRule_takeIf .ruleModifiers (by decide)]
  refine Gives.beside (by simp) (.last (gives_expect_one ?_))
  intro block more hlast hblock
  refine gives_finish ?_
  rintro rfl
  have hrest : (Shape.takeIf .ruleModifiers (Shape.takeIf .docComment rest).2).2 = [block] := hlast
  rw [hrest, List.flatMap_singleton, Node.wordInRule_of_block hblock]
  exact fun _ => rfl

/-- Handlers that conform say nothing. -/
theorem handlers_flatMap {n : Node} {handlers : List Node} {element : Node}
    (conforms : Visit.Conforms ⟨.exceptionGroup, n, handlers, element⟩)
    : handlers.flatMap Node.wordInRule = [] := by
  have hslots := TreeGrammar.conforms_exceptionGroup.mp conforms
  rw [TreeGrammar.yields_many_iff_takeRun [.catchClause] (by decide) (by decide)] at hslots
  rw [Node.wordInRule_takeRun [.catchClause] (by decide)]
  rcases TreeGrammar.yields_opt.mp hslots.2 with hnone | hsome
  · rw [TreeGrammar.yields_nil.mp hnone, List.flatMap_nil]
  · obtain ⟨last, rest, hlast, hform, hrest⟩ := TreeGrammar.yields_one.mp hsome
    have hkind : last.kind = .finallyClause := (TreeGrammar.oneOf_singleton.mp hform).kind_eq
    rw [hlast, TreeGrammar.yields_nil.mp hrest, List.flatMap_singleton]
    exact Node.wordInRule_of_other (by simp [hkind])

/-- A rule is found before its block and finished after it and after its handlers. -/
theorem blockAndHandlers_gives {n id : Node} {header : Node → RuleHeader}
    (hheader : ∀ block, (header block).rule = n) (rest : List Node)
    : (ofReading do
        let (block, handlers) ← Shape.expect .parserRule [.block] rest
        return steps [
          announce (.discoverRule (header block)),
          visitAs .ruleBlock block,
          visit { production := .exceptionGroup, node := n, parts := handlers, element := n },
          announce (.finishRule n id block)
        ]).Gives
          (.found (some .ruleRef) n
            :: (rest.flatMap Node.wordInRule ++ [.finished (some .ruleRef) n])) := by
  refine gives_expect_one ?_
  intro block handlers hrest hblock conforms
  have hhandlers := handlers_flatMap (steps_conforms.mp conforms _ (.tail _ (.tail _ (.head _))))
  rw [hrest, List.flatMap_cons, hhandlers, List.append_nil,
    Node.wordInRule_of_block hblock, ← hheader block]
  rfl

/-- Nothing in the header of a rule says anything. -/
theorem parserRule_gives (n : Node) : (parserRule n).Gives n.wordOfRule := by
  refine gives_requireKind ?_
  intro _
  refine gives_expect_one ?_
  intro id rest hchildren hid
  rw [Node.wordOfRule_eq hchildren (by simp [hid]), hid,
    Node.wordInRule_takeIf .docComment (by decide),
    Node.wordInRule_takeIf .ruleModifiers (by decide),
    Node.wordInRule_takeIf .argAction (by decide), Node.wordInRule_takeIf .returns (by decide),
    Node.wordInRule_takeIf .throws (by decide), Node.wordInRule_takeIf .locals (by decide),
    Node.wordInRule_takeRun [.options, .namedAction] (by decide)]
  refine Gives.beside (by simp) <| .beside (by simp) <| .beside (by simp) <| .beside (by simp) <|
    .beside (by simp [ruleHeaderPart]) <| .last (blockAndHandlers_gives ?_ _)
  exact fun _ => rfl

/-- What is said in the visit of a rule does not depend on the sort of the rule. -/
theorem ruleOfSection_echo (n : Node) : (ruleOfSection n).echo Visit.word = n.wordOfRule := by
  unfold ruleOfSection
  split
  · rw [echo_ite]
    exact ite_self _
  · rfl

end Plan

end GrammarFrontend
