import GrammarFrontend.Tree.Node

/-! The text of a tree on one line tells its shape and the text of every node, as long as the texts
are words. What is left open while such a text is read is a stack of siblings; reading the text of a
tree adds the tree to its siblings, whatever follows it.
-/

namespace GrammarFrontend

-----------------------------------------------------------------------------------------
-- What the text of a tree can tell
-----------------------------------------------------------------------------------------

/-- The shape of a tree, with the text of each node. -/
inductive Outline where
  | node (text : List Char) (children : List Outline)

namespace Outline

/-- Characters that stand in the texts of nodes and nowhere else. -/
def isWordChar (c : Char) : Bool := c != ' ' && c != '(' && c != ')'

/-- A text that can be told apart from what stands around it. -/
structure IsWord (text : List Char) : Prop where
  filled : text ≠ []
  plain : ∀ c ∈ text, isWordChar c = true

instance (text : List Char) : Decidable (IsWord text) :=
  decidable_of_iff (text ≠ [] ∧ text.all isWordChar = true)
    ⟨fun h => ⟨h.1, List.all_eq_true.mp h.2⟩, fun h => ⟨h.filled, List.all_eq_true.mpr h.plain⟩⟩

/-- No word goes on here. -/
def AtWordEnd (text : List Char) : Prop := ∀ c ∈ text.head?, isWordChar c = false

end Outline

namespace Node

mutual

/-- The shape of a tree and the texts of its nodes. -/
def outline (n : Node) : Outline :=
  match n with
  | ⟨_, _, text, children, _⟩ => .node text.toList (outlineAll children)

def outlineAll : List Node → List Outline
  | [] => []
  | n :: nodes => outline n :: outlineAll nodes

end

mutual

/-- The nodes of a tree, each before the nodes below it. -/
def nodes (n : Node) : List Node :=
  match n with
  | ⟨kind, token, text, children, payload⟩ =>
      ⟨kind, token, text, children, payload⟩ :: nodesAll children

def nodesAll : List Node → List Node
  | [] => []
  | n :: rest => nodes n ++ nodesAll rest

end

/-- The texts of all nodes are words. -/
def Legible (n : Node) : Prop := ∀ m ∈ n.nodes, Outline.IsWord m.text.toList

instance (n : Node) : Decidable n.Legible :=
  inferInstanceAs (Decidable (∀ m ∈ n.nodes, Outline.IsWord m.text.toList))

/-- The number of nodes that have children. -/
def branchCount (n : Node) : Nat := n.nodes.countP (!·.children.isEmpty)

/-- Two trees have nodes at the same paths, and the nodes at one path have the same text. -/
def SameTexts (a b : Node) : Prop :=
  ∀ path, (a.descend path).map (·.text) = (b.descend path).map (·.text)

theorem outline_eq (n : Node) : n.outline = .node n.text.toList (n.children.map outline) := by
  obtain ⟨kind, token, text, children, payload⟩ := n
  rw [outline, Outline.node.injEq]
  refine ⟨rfl, ?_⟩
  induction children with
  | nil => rfl
  | cons n nodes ih => rw [outlineAll, ih, List.map_cons]

/-- The outline of a tree tells the text at the end of every path, by induction on the path. -/
theorem sameTexts_of_outline {a b : Node} (h : a.outline = b.outline) : a.SameTexts b := by
  intro path
  induction path generalizing a b with
  | nil =>
      rw [outline_eq, outline_eq, Outline.node.injEq] at h
      exact congrArg some (String.toList_inj.mp h.1)
  | cons i path ih =>
      rw [outline_eq, outline_eq, Outline.node.injEq] at h
      have hchild := congrArg (fun outlines : List Outline => outlines[i]?) h.2
      simp only [List.getElem?_map] at hchild
      rw [descend, descend, child?, child?]
      cases ha : a.children[i]? with
      | none =>
          rw [ha, Option.map_none, eq_comm, Option.map_eq_none_iff] at hchild
          rw [hchild]
      | some child =>
          rw [ha, Option.map_some, eq_comm, Option.map_eq_some_iff] at hchild
          obtain ⟨other, hother, he⟩ := hchild
          rw [hother]
          exact ih he.symm

end Node

-----------------------------------------------------------------------------------------
-- Reading trees
-----------------------------------------------------------------------------------------

namespace Outline

/-- Siblings, the latest first, and after them the word that was just read, if there is one. -/
def withWord (siblings : List Outline) (word : List Char) : List Outline :=
  if word.isEmpty then siblings else .node word.reverse [] :: siblings

/-- The node of these siblings, the latest first: the first word is its text, the others its
children.
-/
def close? (siblings : List Outline) : Option Outline :=
  match siblings.reverse with
  | .node name [] :: children => some (.node name children)
  | _ => none

/-- Reads trees one after another. The siblings read so far and the word that is being read are kept
with the latest first, and so are the siblings of the nodes that are open.
-/
def readAll (outer : List (List Outline)) (siblings : List Outline) (word : List Char)
    : List Char → Option (List Outline)
  | [] => if outer.isEmpty then some (withWord siblings word).reverse else none
  | c :: text =>
      if isWordChar c then readAll outer siblings (c :: word) text
      else if c = ' ' then readAll outer (withWord siblings word) [] text
      else if c = '(' then readAll (withWord siblings word :: outer) [] [] text
      else
        match outer, close? (withWord siblings word) with
        | before :: outer, some tree => readAll outer (tree :: before) [] text
        | _, _ => none

/-- Reads the text of one tree. -/
def read? (text : List Char) : Option Outline :=
  match readAll [] [] [] text with
  | some [tree] => some tree
  | _ => none

variable (outer : List (List Outline)) (siblings : List Outline)

theorem readAll_space (text : List Char)
    : readAll outer siblings [] (' ' :: text) = readAll outer siblings [] text :=
  rfl

theorem readAll_open (text : List Char)
    : readAll outer siblings [] ('(' :: text) = readAll (siblings :: outer) [] [] text :=
  rfl

theorem readAll_close (name : List Char) (children : List Outline) (text : List Char)
    : readAll (siblings :: outer) (children.reverse ++ [.node name []]) [] (')' :: text)
      = readAll outer (.node name children :: siblings) [] text := by
  have hclose : close? (children.reverse ++ [.node name []]) = some (.node name children) := by
    simp [close?]
  simp [readAll, isWordChar, withWord, hclose]

/-- The characters of a word are collected, by induction on them. -/
theorem readAll_word {front : List Char} (plain : ∀ c ∈ front, isWordChar c = true)
    (word text : List Char)
    : readAll outer siblings word (front ++ text)
      = readAll outer siblings (front.reverse ++ word) text := by
  induction front generalizing word with
  | nil => rfl
  | cons c front ih =>
      obtain ⟨hc, plain⟩ := List.forall_mem_cons.mp plain
      have hstep
          : readAll outer siblings word (c :: (front ++ text))
            = readAll outer siblings (c :: word) (front ++ text) := by
        rw [readAll.eq_def]
        simp only [hc, if_true]
      rw [List.cons_append, hstep, ih plain, List.reverse_cons, List.append_assoc,
        List.singleton_append]

/-- Where no word goes on, the one that was being read is one more sibling. -/
theorem readAll_wordEnd {text : List Char} (ends : AtWordEnd text) (word : List Char)
    : readAll outer siblings word text = readAll outer (withWord siblings word) [] text := by
  have hword : withWord (withWord siblings word) [] = withWord siblings word := rfl
  cases text with
  | nil => rfl
  | cons c text =>
      have hc := ends c rfl
      simp [readAll, hc, hword]

/-- A whole word is a tree without children. -/
theorem readAll_isWord {front text : List Char} (isWord : IsWord front) (ends : AtWordEnd text)
    : readAll outer siblings [] (front ++ text)
      = readAll outer (.node front [] :: siblings) [] text := by
  rw [readAll_word outer siblings isWord.plain, List.append_nil,
    readAll_wordEnd outer siblings ends, withWord, if_neg, List.reverse_reverse]
  simpa using isWord.filled

end Outline

namespace Node

open Outline

theorem nodesAll_eq_flatMap (nodes : List Node) : nodesAll nodes = nodes.flatMap Node.nodes := by
  induction nodes with
  | nil => rfl
  | cons n nodes ih => rw [nodesAll, ih, List.flatMap_cons]

theorem nodes_eq (n : Node) : n.nodes = n :: n.children.flatMap nodes := by
  obtain ⟨kind, token, text, children, payload⟩ := n
  rw [nodes, nodesAll_eq_flatMap]

theorem Legible.isWord {n : Node} (h : n.Legible) : IsWord n.text.toList := by
  refine h n ?_
  rw [nodes_eq]
  exact List.mem_cons_self

theorem Legible.child {n child : Node} (h : n.Legible) (hchild : child ∈ n.children)
    : child.Legible := by
  intro m hm
  refine h m ?_
  rw [nodes_eq]
  exact List.mem_cons_of_mem _ (List.mem_flatMap.mpr ⟨child, hchild, hm⟩)

theorem render_of_leaf {n : Node} (h : n.children = []) : n.render = n.text.toList := by
  obtain ⟨kind, token, text, children, payload⟩ := n
  obtain rfl : children = [] := h
  rfl

theorem render_of_branch {n : Node} (h : n.children ≠ [])
    : n.render = '(' :: (n.text.toList ++ (renderAll n.children ++ [')'])) := by
  obtain ⟨kind, token, text, children, payload⟩ := n
  obtain ⟨child, children, rfl⟩ := List.exists_cons_of_ne_nil h
  simp [render]

/-- What comes after the text of a node with children is a blank. -/
theorem renderAll_atWordEnd {nodes : List Node} (h : nodes ≠ []) (text : List Char)
    : AtWordEnd (renderAll nodes ++ text) := by
  cases nodes with
  | nil => exact absurd rfl h
  | cons n nodes =>
      intro c hc
      obtain rfl : ' ' = c := Option.some.inj hc
      rfl

theorem atWordEnd_close (text : List Char) : AtWordEnd (')' :: text) := by
  intro c hc
  obtain rfl : ')' = c := Option.some.inj hc
  rfl

mutual

/-- Reading the text of a tree adds its outline to the siblings, whatever follows, by induction on
the tree. The text of an inner node is read first, then the children as siblings of their own, and
the closing parenthesis puts the node among its siblings.
-/
theorem readAll_render (n : Node) (legible : n.Legible) (outer : List (List Outline))
    (siblings : List Outline) {text : List Char} (ends : AtWordEnd text)
    : readAll outer siblings [] (n.render ++ text)
      = readAll outer (n.outline :: siblings) [] text := by
  by_cases leaf : n.children = []
  · rw [render_of_leaf leaf, outline_eq, leaf]
    exact readAll_isWord outer siblings legible.isWord ends
  · have inner := readAll_renderAll n.children (fun child => legible.child) (siblings :: outer)
      [.node n.text.toList []] (atWordEnd_close text)
    calc readAll outer siblings [] (n.render ++ text)
        = readAll (siblings :: outer) [] []
            (n.text.toList ++ (renderAll n.children ++ ')' :: text)) := by
          rw [render_of_branch leaf, ← readAll_open]
          simp
      _ = readAll (siblings :: outer) [.node n.text.toList []] []
            (renderAll n.children ++ ')' :: text) :=
          readAll_isWord _ _ legible.isWord (renderAll_atWordEnd leaf _)
      _ = readAll (siblings :: outer)
            ((n.children.map outline).reverse ++ [.node n.text.toList []]) [] (')' :: text) := inner
      _ = readAll outer (.node n.text.toList (n.children.map outline) :: siblings) [] text :=
          readAll_close outer siblings _ _ text
      _ = readAll outer (n.outline :: siblings) [] text := by rw [outline_eq]
termination_by sizeOf n
decreasing_by
  obtain ⟨kind, token, name, children, payload⟩ := n
  simp only [Node.mk.sizeOf_spec]
  omega

/-- The same of siblings, by induction on them. -/
theorem readAll_renderAll (nodes : List Node) (legible : ∀ n ∈ nodes, n.Legible)
    (outer : List (List Outline)) (siblings : List Outline) {text : List Char}
    (ends : AtWordEnd text)
    : readAll outer siblings [] (renderAll nodes ++ text)
      = readAll outer ((nodes.map outline).reverse ++ siblings) [] text := by
  match nodes with
  | [] => rfl
  | n :: nodes =>
      obtain ⟨hn, hnodes⟩ := List.forall_mem_cons.mp legible
      have hnext : AtWordEnd (renderAll nodes ++ text) := by
        cases nodes with
        | nil => exact ends
        | cons => exact renderAll_atWordEnd (List.cons_ne_nil _ _) _
      rw [renderAll, List.cons_append, List.cons_append, readAll_space, List.append_assoc,
        readAll_render n hn _ _ hnext, readAll_renderAll nodes hnodes _ _ ends, List.map_cons,
        List.reverse_cons, List.append_assoc, List.singleton_append]
termination_by sizeOf nodes

end

/-- The outline of a tree can be read from its text. -/
theorem read?_render {n : Node} (legible : n.Legible) : read? n.render = some n.outline := by
  have ends : AtWordEnd [] := by
    intro c hc
    cases hc
  have hread := readAll_render n legible [] [] ends
  rw [List.append_nil] at hread
  rw [read?, hread]
  rfl

-----------------------------------------------------------------------------------------
-- Parentheses
-----------------------------------------------------------------------------------------

theorem branchCount_eq (n : Node)
    : n.branchCount
      = (if n.children = [] then 0 else 1)
        + (n.children.flatMap nodes).countP (!·.children.isEmpty) := by
  rw [branchCount, nodes_eq, List.countP_cons, Nat.add_comm]
  congr 1
  cases n.children <;> rfl

/-- A word has no parentheses. -/
theorem count_of_isWord {text : List Char} (isWord : IsWord text) {mark : Char}
    (h : isWordChar mark = false)
    : text.count mark = 0 := by
  rw [List.count_eq_zero]
  intro hmem
  rw [isWord.plain mark hmem] at h
  cases h

mutual

/-- The text of a tree has one parenthesis of each kind for every node with children, by induction
on the tree.
-/
theorem count_render (n : Node) (legible : n.Legible) {mark : Char}
    (hmark : mark = '(' ∨ mark = ')')
    : n.render.count mark = n.branchCount := by
  have hword : isWordChar mark = false := by rcases hmark with rfl | rfl <;> rfl
  have hname := count_of_isWord legible.isWord hword
  by_cases leaf : n.children = []
  · rw [render_of_leaf leaf, hname, branchCount_eq, leaf]
    rfl
  · have hchildren := count_renderAll n.children (fun child => legible.child) hmark
    have hparens : ['(', ')'].count mark = 1 := by rcases hmark with rfl | rfl <;> rfl
    rw [branchCount_eq, if_neg leaf, ← hchildren, ← hparens, render_of_branch leaf]
    simp only [List.count_cons, List.count_append, List.count_nil, hname]
    omega
termination_by sizeOf n
decreasing_by
  obtain ⟨kind, token, name, children, payload⟩ := n
  simp only [Node.mk.sizeOf_spec]
  omega

/-- The same of siblings, by induction on them. -/
theorem count_renderAll (nodes : List Node) (legible : ∀ n ∈ nodes, n.Legible) {mark : Char}
    (hmark : mark = '(' ∨ mark = ')')
    : (renderAll nodes).count mark = (nodes.flatMap Node.nodes).countP (!·.children.isEmpty) := by
  match nodes with
  | [] => rfl
  | n :: nodes =>
      obtain ⟨hn, hnodes⟩ := List.forall_mem_cons.mp legible
      have hblank : ' ' ≠ mark := by rcases hmark with rfl | rfl <;> decide
      rw [renderAll, List.cons_append, List.count_cons_of_ne hblank, List.count_append,
        count_render n hn hmark, count_renderAll nodes hnodes hmark, List.flatMap_cons,
        List.countP_append, branchCount]
termination_by sizeOf nodes

end

-----------------------------------------------------------------------------------------
-- The tree in its text
-----------------------------------------------------------------------------------------

/-- The text of a tree whose nodes have words as their texts says what the tree looks like: two trees
of one text have the same nodes with the same texts, the outline can be read from the text, and there
is one parenthesis of each kind for every node with children.
-/
theorem toText_decodes (a b : Node) (ha : a.Legible) (hb : b.Legible)
    : (a.toText = b.toText → a.SameTexts b)
      ∧ read? a.toText.toList = some a.outline
      ∧ a.toText.toList.count '(' = a.branchCount
      ∧ a.toText.toList.count ')' = a.branchCount := by
  have hrender (n : Node) : n.toText.toList = n.render := String.toList_ofList
  refine ⟨?_, ?_, ?_, ?_⟩
  · intro htext
    have hsame : some a.outline = some b.outline := by
      rw [← read?_render ha, ← read?_render hb, ← hrender a, ← hrender b, htext]
    exact sameTexts_of_outline (Option.some.inj hsame)
  · rw [hrender]
    exact read?_render ha
  · rw [hrender]
    exact count_render a ha (.inl rfl)
  · rw [hrender]
    exact count_render a ha (.inr rfl)

/-- A rule with one alternative, and a tree of other kinds with the same texts. -/
theorem toText_decodes_oneRule
    : let block := withChildren .block [withChildren .alt [leaf .tokenRef "B"]]
      let a := rule [leaf .ruleRef "a", block]
      let b := { new .mode with text := "RULE", children := [leaf .id "a", block] }
      a.Legible ∧ b.Legible ∧ a.toText = "(RULE a (BLOCK (ALT B)))" ∧ a.kind ≠ b.kind
      ∧ a.SameTexts b ∧ a.toText.toList.count '(' = 3 := by
  intro block a b
  have ha : a.Legible := by decide +kernel
  have hb : b.Legible := by decide +kernel
  have htext : a.toText = b.toText := by decide +kernel
  obtain ⟨hsame, -, hopen, -⟩ := toText_decodes a b ha hb
  exact ⟨ha, hb, by decide +kernel, by decide, hsame htext, hopen.trans (by decide +kernel)⟩

end Node

end GrammarFrontend
