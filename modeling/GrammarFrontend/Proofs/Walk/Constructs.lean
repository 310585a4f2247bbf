import GrammarFrontend.Walk.Callback

/-! The constructs of a grammar tree in document order: its rules, the alternatives in their blocks,
and the elements that refer to something. What is found of them below a node depends on the kinds of
nodes alone; a walk comes by them once on the way down and once on the way up.
-/

namespace GrammarFrontend

-----------------------------------------------------------------------------------------
-- Constructs of a tree
-----------------------------------------------------------------------------------------

namespace NodeKind

/-- The kinds of nodes made of blocks, alternatives and elements. -/
def isComposite : NodeKind → Bool
  | alt | lexerAltAction | block | optional | closure | positiveClosure | assign | plusAssign
  | complement | set | dot => true
  | _ => false

/-- The kinds of elements that refer to a token, a rule, a literal or any token. -/
def isReference : NodeKind → Bool
  | tokenRef | ruleRef | stringLiteral | wildcard => true
  | _ => false

end NodeKind

namespace Node

section

variable {α : Type}

mutual

/-- Goes through the constructs in a node, itself included, and notes something before and after
what each is made of.
-/
def traverse (before after : Node → List α) (n : Node) : List α :=
  match n with
  | ⟨kind, token, text, children, payload⟩ =>
      before ⟨kind, token, text, children, payload⟩
      ++ (if kind.isComposite then traverseAll before after children else [])
      ++ after ⟨kind, token, text, children, payload⟩

def traverseAll (before after : Node → List α) : List Node → List α
  | [] => []
  | n :: nodes => traverse before after n ++ traverseAll before after nodes

end

end

/-- The constructs in a node, itself included, in document order. -/
def constructs (n : Node) : List Node := n.traverse (fun construct => [construct]) (fun _ => [])

/-- The rules in a section of rules or of a mode. -/
def rulesOfSection (n : Node) : List Node := n.children.filter (·.kind == .rule)

/-- The rules of a grammar, in document order. -/
def rulesOfGrammar (tree : Node) : List Node :=
  (tree.children.filter (fun n => n.kind == .rules || n.kind == .mode)).flatMap rulesOfSection

/-- The kind of the name of a rule, its first child. -/
def nameKind? (rule : Node) : Option NodeKind := rule.children.head?.map (·.kind)

/-- The block of a rule. -/
def blocks (rule : Node) : List Node := rule.children.filter (·.kind == .block)

/-- The constructs in the rules of a grammar, in document order. -/
def constructsOfGrammar (tree : Node) : List Node :=
  tree.rulesOfGrammar.flatMap (fun rule => rule.blocks.flatMap constructs)

end Node

-----------------------------------------------------------------------------------------
-- What callbacks say of constructs
-----------------------------------------------------------------------------------------

/-- What a callback says of a construct. -/
inductive Notice where
  /-- A rule, with the kind that its name should have. -/
  | found (name : Option NodeKind) (rule : Node)
  | finished (name : Option NodeKind) (rule : Node)
  | entered (alt : Node)
  | left (alt : Node)
  /-- A reference, with the kind of node that it is announced as. -/
  | referred (kind : NodeKind) (n : Node)
deriving DecidableEq, Repr

def Callback.notice? : Callback → Option Notice
  | discoverRule header => some (.found (some .ruleRef) header.rule)
  | discoverLexerRule rule .. => some (.found (some .tokenRef) rule)
  | finishRule rule .. => some (.finished (some .ruleRef) rule)
  | finishLexerRule rule .. => some (.finished (some .tokenRef) rule)
  | enterAlternative alt => some (.entered alt)
  | exitAlternative alt => some (.left alt)
  | tokenRef n => some (.referred .tokenRef n)
  | ruleRef n _ => some (.referred .ruleRef n)
  | stringRef n => some (.referred .stringLiteral n)
  | wildcardRef n => some (.referred .wildcard n)
  | _ => none

namespace Notice

def isOfRule : Notice → Bool
  | found .. | finished .. => true
  | _ => false

def entered? : Notice → Option Node
  | entered alt => some alt
  | _ => none

def left? : Notice → Option Node
  | left alt => some alt
  | _ => none

def reference? : Notice → Option (NodeKind × Node)
  | referred kind n => some (kind, n)
  | _ => none

end Notice

/-- The notices of events, in their order. -/
def noticesOf (events : List Event) : List Notice := events.filterMap (·.callback.notice?)

namespace Node

/-- What is said of a construct before what it is made of. -/
def opens (n : Node) : List Notice :=
  match n.kind with
  | .alt => [.entered n]
  | .tokenRef | .ruleRef | .stringLiteral | .wildcard => [.referred n.kind n]
  | _ => []

/-- What is said of a construct after what it is made of. -/
def closes (n : Node) : List Notice := if n.kind = .alt then [.left n] else []

/-- What is said of the constructs in a node. -/
def word (n : Node) : List Notice := n.traverse opens closes

/-- What is said of a rule and of the constructs in its block. -/
def wordOfRule (rule : Node) : List Notice :=
  .found rule.nameKind? rule
  :: (rule.blocks.flatMap word ++ [.finished rule.nameKind? rule])

/-- What is said of the rules of a grammar. -/
def wordOfGrammar (tree : Node) : List Notice := tree.rulesOfGrammar.flatMap wordOfRule

-----------------------------------------------------------------------------------------
-- Going through constructs
-----------------------------------------------------------------------------------------

section

variable {α β : Type}

theorem traverseAll_eq (before after : Node → List α) (nodes : List Node)
    : traverseAll before after nodes = nodes.flatMap (traverse before after) := by
  induction nodes with
  | nil => rw [traverseAll, List.flatMap_nil]
  | cons n nodes ih => rw [traverseAll, ih, List.flatMap_cons]

theorem traverse_eq (before after : Node → List α) (n : Node)
    : n.traverse before after
      = before n
        ++ (if n.kind.isComposite then n.children.flatMap (traverse before after) else [])
        ++ after n := by
  obtain ⟨kind, token, text, children, payload⟩ := n
  rw [traverse, traverseAll_eq]

end

end Node

/-- A relation between what is said of constructs and the constructs, which holds if it holds of
each construct with what it is made of.
-/
structure Notice.Relates (R : List Notice → List Node → Prop) : Prop where
  nil : R [] []
  append
    : ∀ {notices more : List Notice} {nodes rest : List Node},
        R notices nodes → R more rest → R (notices ++ more) (nodes ++ rest)
  construct
    : ∀ (n : Node) {notices : List Notice} {nodes : List Node},
        R notices nodes → R (n.opens ++ notices ++ n.closes) (n :: nodes)

namespace Notice.Relates

variable {R : List Notice → List Node → Prop}

mutual

/-- The relation holds of the constructs in a node, by induction on the node. -/
theorem word (h : Relates R) (n : Node) : R n.word n.constructs := by
  obtain ⟨kind, token, text, children, payload⟩ := n
  rw [Node.word, Node.constructs, Node.traverse, Node.traverse, List.append_nil]
  refine h.construct _ ?_
  split
  · exact h.words children
  · exact h.nil

theorem words (h : Relates R) (nodes : List Node)
    : R (Node.traverseAll Node.opens Node.closes nodes)
        (Node.traverseAll (fun construct => [construct]) (fun _ => []) nodes) := by
  match nodes with
  | [] => exact h.nil
  | n :: nodes => exact h.append (h.word n) (h.words nodes)

end

/-- The relation holds of any number of parts, by induction on them. -/
theorem flatMap (h : Relates R) (notices : Node → List Notice) (nodes : Node → List Node)
    (hpart : ∀ part, R (notices part) (nodes part)) (parts : List Node)
    : R (parts.flatMap notices) (parts.flatMap nodes) := by
  induction parts with
  | nil => exact h.nil
  | cons part parts ih =>
      rw [List.flatMap_cons, List.flatMap_cons]
      exact h.append (hpart part) ih

/-- The relation holds of a grammar if what is said of rules themselves does not matter. -/
theorem grammar (h : Relates R)
    (hrule
      : ∀ (name : Option NodeKind) (rule : Node) {notices : List Notice} {nodes : List Node},
          R notices nodes → R (.found name rule :: (notices ++ [.finished name rule])) nodes)
    (tree : Node)
    : R tree.wordOfGrammar tree.constructsOfGrammar := by
  refine h.flatMap Node.wordOfRule _ ?_ tree.rulesOfGrammar
  intro rule
  exact hrule rule.nameKind? rule (h.flatMap Node.word Node.constructs h.word rule.blocks)

end Notice.Relates

-----------------------------------------------------------------------------------------
-- What a log says of a grammar
-----------------------------------------------------------------------------------------

/-- Every construct of a grammar is announced exactly once, in document order: each rule is found
and finished before the next one, as the kind of its name tells; each alternative is entered and
left; and each reference is announced as what it is.
-/
structure Node.AnnouncedBy (tree : Node) (events : List Event) : Prop where
  rules
    : (noticesOf events).filter (·.isOfRule)
      = tree.rulesOfGrammar.flatMap
          (fun rule => [.found rule.nameKind? rule, .finished rule.nameKind? rule])
  entered
    : (noticesOf events).filterMap Notice.entered?
      = tree.constructsOfGrammar.filter (·.kind == .alt)
  left
    : ((noticesOf events).filterMap Notice.left?).Perm
        (tree.constructsOfGrammar.filter (·.kind == .alt))
  references
    : (noticesOf events).filterMap Notice.reference?
      = (tree.constructsOfGrammar.filter (·.kind.isReference)).map (fun n => (n.kind, n))

/-- An alternative is entered and left, a reference is announced, and nothing is said of any other
construct itself.
-/
theorem Node.said (n : Node)
    : (n.kind = .alt
        ∧ n.kind.isReference = false
        ∧ n.opens = [.entered n]
        ∧ n.closes = [.left n])
      ∨ (n.kind ≠ .alt
        ∧ n.kind.isReference = true
        ∧ n.opens = [.referred n.kind n]
        ∧ n.closes = [])
      ∨ (n.kind ≠ .alt ∧ n.kind.isReference = false ∧ n.opens = [] ∧ n.closes = []) := by
  cases hk : n.kind <;> simp [opens, closes, hk, NodeKind.isReference]

namespace Node

variable {n : Node} {kind : NodeKind}

/-- Of a construct is said what is said of its parts, between what is said of itself. -/
theorem word_eq (n : Node)
    : n.word
      = n.opens ++ (if n.kind.isComposite then n.children.flatMap word else []) ++ n.closes :=
  traverse_eq opens closes n

theorem word_of_alt (h : n.kind = .alt)
    : n.word = .entered n :: (n.children.flatMap word ++ [.left n]) := by
  rw [word_eq]
  simp [opens, closes, h, NodeKind.isComposite]

theorem word_of_reference (h : n.kind = kind) (reference : kind.isReference = true)
    : n.word = [.referred kind n] := by
  rw [word_eq]
  cases kind <;> simp [NodeKind.isReference] at reference <;>
    simp [opens, closes, h, NodeKind.isComposite]

/-- Of other constructs nothing is said but what is said of their parts. -/
theorem word_of_composite (h : n.kind = kind) (composite : kind.isComposite = true)
    (noAlt : kind ≠ .alt)
    : n.word = n.children.flatMap word := by
  rw [word_eq]
  cases kind <;> simp [NodeKind.isComposite] at composite noAlt <;>
    simp [opens, closes, h, NodeKind.isComposite]

/-- Nothing is said of a node that is no construct. -/
theorem word_of_other (h : n.kind = kind) (noComposite : kind.isComposite = false)
    (noReference : kind.isReference = false)
    : n.word = [] := by
  rw [word_eq]
  cases kind <;> simp [NodeKind.isComposite, NodeKind.isReference] at noComposite noReference <;>
    simp [opens, closes, h, NodeKind.isComposite]

end Node

namespace Notice

/-- Nothing is said of constructs that is said of rules. -/
theorem relates_ofRule : Relates (fun notices _ => notices.filter (·.isOfRule) = []) where
  nil := rfl
  append := by
    intro notices more nodes rest hnotices hmore
    rw [List.filter_append, hnotices, hmore, List.append_nil]
  construct := by
    intro n notices nodes hnotices
    rcases n.said with ⟨hk, href, ho, hc⟩ | ⟨hk, href, ho, hc⟩ | ⟨hk, href, ho, hc⟩ <;>
      simpa [ho, hc, isOfRule] using hnotices

/-- What is entered are the alternatives, in order. -/
theorem relates_entered
    : Relates
        (fun notices nodes => notices.filterMap entered? = nodes.filter (·.kind == .alt)) where
  nil := rfl
  append := by
    intro notices more nodes rest hnotices hmore
    rw [List.filterMap_append, List.filter_append, hnotices, hmore]
  construct := by
    intro n notices nodes hnotices
    rcases n.said with ⟨hk, href, ho, hc⟩ | ⟨hk, href, ho, hc⟩ | ⟨hk, href, ho, hc⟩ <;>
      simp [ho, hc, hk, hnotices, entered?, List.filterMap_cons]

/-- What is left are the alternatives, each after those in it. -/
theorem relates_left
    : Relates
        (fun notices nodes => (notices.filterMap left?).Perm (nodes.filter (·.kind == .alt))) where
  nil := .rfl
  append := by
    intro notices more nodes rest hnotices hmore
    rw [List.filterMap_append, List.filter_append]
    exact hnotices.append hmore
  construct := by
    intro n notices nodes hnotices
    rcases n.said with ⟨hk, href, ho, hc⟩ | ⟨hk, href, ho, hc⟩ | ⟨hk, href, ho, hc⟩
    · have hlast : (notices.filterMap left? ++ [n]).Perm (n :: nodes.filter (·.kind == .alt)) :=
        List.perm_append_comm.trans (hnotices.cons n)
      simpa [ho, hc, hk, left?, List.filterMap_cons] using hlast
    · simpa [ho, hc, hk, left?, List.filterMap_cons] using hnotices
    · simpa [ho, hc, hk] using hnotices

/-- What is referred to are the references, in order and as what they are. -/
theorem relates_references
    : Relates
        (fun notices nodes =>
          notices.filterMap reference?
          = (nodes.filter (·.kind.isReference)).map (fun n => (n.kind, n))) where
  nil := rfl
  append := by
    intro notices more nodes rest hnotices hmore
    rw [List.filterMap_append, List.filter_append, List.map_append, hnotices, hmore]
  construct := by
    intro n notices nodes hnotices
    rcases n.said with ⟨hk, href, ho, hc⟩ | ⟨hk, href, ho, hc⟩ | ⟨hk, href, ho, hc⟩
    · simp [ho, hc, href, hnotices, reference?, List.filterMap_cons]
    · simp [ho, hc, href, hnotices, reference?]
    · simp [ho, hc, href, hnotices]

end Notice

namespace Node

/-- Of the notices of a rule, only the first and the last are of the rule itself. -/
theorem wordOfRule_ofRule (rule : Node)
    : rule.wordOfRule.filter (·.isOfRule)
      = [.found rule.nameKind? rule, .finished rule.nameKind? rule] := by
  have hblocks : (rule.blocks.flatMap word).filter (·.isOfRule) = [] :=
    Notice.relates_ofRule.flatMap word constructs Notice.relates_ofRule.word rule.blocks
  rw [wordOfRule, List.filter_cons_of_pos rfl, List.filter_append, hblocks]
  rfl

/-- What is said of all constructs announces each of them once. -/
theorem announcedBy_of_notices {tree : Node} {events : List Event}
    (h : noticesOf events = tree.wordOfGrammar)
    : tree.AnnouncedBy events where
  rules := by
    rw [h, wordOfGrammar, List.filter_flatMap]
    exact congrArg (tree.rulesOfGrammar.flatMap ·) (funext wordOfRule_ofRule)
  entered := by
    rw [h]
    refine Notice.relates_entered.grammar ?_ tree
    intro name rule notices nodes hnotices
    simpa [Notice.entered?, List.filterMap_cons] using hnotices
  left := by
    rw [h]
    refine Notice.relates_left.grammar ?_ tree
    intro name rule notices nodes hnotices
    simpa [Notice.left?, List.filterMap_cons] using hnotices
  references := by
    rw [h]
    refine Notice.relates_references.grammar ?_ tree
    intro name rule notices nodes hnotices
    simpa [Notice.reference?, List.filterMap_cons] using hnotices

end Node

end GrammarFrontend
