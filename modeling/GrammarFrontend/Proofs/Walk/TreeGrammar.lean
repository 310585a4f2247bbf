import GrammarFrontend.Tree.Node

/-! The tree grammar. A form says what a node looks like: its kind, and its children one after
another, each of one of several forms. What a tree derives from is defined by the grammar alone.
-/

namespace GrammarFrontend.TreeGrammar

/-- The forms of nodes. Forms that differ in their kind only have the kind as an argument. -/
inductive Form where
  /-- A node of the kind with any children. -/
  | token (kind : NodeKind)
  | grammar
  | options
  | option
  | imports
  | delegate
  | tokensSpec
  | channels
  | namedAction
  | rules
  | mode
  | parserRule
  | lexerRule
  | modifiers
  | returns
  | throws
  | locals
  | ruleAction
  | catchClause
  | finallyClause
  | ruleBlock
  | lexerRuleBlock
  | emptyAlternative
  | alternative
  | lexerElements
  | lexerAltAction
  | lexerActionCall
  /-- An element with a label. -/
  | labeled (op : NodeKind)
  | block
  | suffixed (suffix : NodeKind)
  | lexerBlock
  | lexerSuffixed (suffix : NodeKind)
  /-- An action or a predicate. -/
  | action (kind : NodeKind)
  /-- The complement of a set, and that of a set or a block. -/
  | notSet
  | notSetOrBlock
  | set
  | range
  | wildcard
  | qualified
  | terminal (kind : NodeKind)
  | ruleReference
  | elementOptions
  | elementAssign
deriving DecidableEq, Repr

/-- A place for children of a node; each child in it is of one of the forms. -/
inductive Slot where
  | one (forms : List Form)
  /-- At most one. -/
  | opt (forms : List Form)
  /-- Any number. -/
  | many (forms : List Form)
  /-- At least one. -/
  | many1 (forms : List Form)
deriving DecidableEq, Repr

open Form Slot

-----------------------------------------------------------------------------------------
-- What may stand in one place
-----------------------------------------------------------------------------------------

def prequels : List Form := [options, imports, tokensSpec, channels, namedAction]

def delegates : List Form := [token .id, delegate]

def ruleModifiers : List Form :=
  [token .publicMark, token .privateMark, token .protectedMark, token .fragmentMark]

def alternatives : List Form := [emptyAlternative, alternative]

def lexerAlternatives : List Form := [lexerElements, lexerAltAction]

def terminals : List Form := [terminal .stringLiteral, terminal .tokenRef]

def atoms : List Form :=
  [notSet, set, wildcard, qualified, ruleReference] ++ terminals

def subrules : List Form :=
  [block, suffixed .optional, suffixed .closure, suffixed .positiveClosure]

def actions : List Form := [action .action, action .sempred]

/-- A block may be complemented in an element of its own. -/
def elements : List Form :=
  [labeled .assign, labeled .plusAssign, notSetOrBlock, range] ++ subrules ++ actions ++ atoms

def setElements : List Form := [range, token .charSet] ++ terminals

def lexerAtoms : List Form :=
  [notSet, set, wildcard, token .charSet, range, ruleReference] ++ terminals

def lexerSubrules : List Form :=
  [lexerBlock, lexerSuffixed .optional, lexerSuffixed .closure, lexerSuffixed .positiveClosure]

def lexerItems : List Form := [token .epsilon] ++ actions ++ lexerSubrules ++ lexerAtoms

-----------------------------------------------------------------------------------------
-- The forms of nodes
-----------------------------------------------------------------------------------------

namespace Form

/-- The kind of the nodes of a form. -/
def kind : Form → NodeKind
  | token kind | labeled kind | suffixed kind | lexerSuffixed kind | action kind | terminal kind =>
      kind
  | grammar => .grammar
  | options => .options
  | option | delegate | elementAssign => .assign
  | imports => .imports
  | tokensSpec => .tokensSpec
  | channels => .channels
  | namedAction | ruleAction => .namedAction
  | rules => .rules
  | mode => .mode
  | parserRule | lexerRule => .rule
  | modifiers => .ruleModifiers
  | returns => .returns
  | throws => .throws
  | locals => .locals
  | catchClause => .catchClause
  | finallyClause => .finallyClause
  | ruleBlock | lexerRuleBlock | block | lexerBlock => .block
  | emptyAlternative | alternative | lexerElements => .alt
  | lexerAltAction => .lexerAltAction
  | lexerActionCall => .lexerActionCall
  | notSet | notSetOrBlock => .complement
  | set => .set
  | range => .range
  | wildcard => .wildcard
  | qualified => .dot
  | ruleReference => .ruleRef
  | elementOptions => .elementOptions

/-- The children of the nodes of a form, unless they may be any nodes. -/
def slots? : Form → Option (List Slot)
  | token _ => none
  | grammar => [one [token .id], many prequels, one [rules], many [mode]]
  | options => [many [option]]
  | option => [one [token .id], one [token .id, token .stringLiteral, token .int]]
  | imports => [many1 delegates]
  | delegate => [one [token .id], one [token .id]]
  | tokensSpec => [many1 [token .id]]
  | channels => [many [token .id]]
  | namedAction => [one [token .id], opt [token .id], one [token .action]]
  | rules => [many [parserRule, lexerRule]]
  | mode => [one [token .id], many [lexerRule]]
  | parserRule => [
      one [token .ruleRef],
      opt [token .docComment],
      opt [modifiers],
      opt [token .argAction],
      opt [returns],
      opt [throws],
      opt [locals],
      many [options, ruleAction],
      one [ruleBlock],
      many [catchClause],
      opt [finallyClause]
    ]
  | lexerRule => [
      one [token .tokenRef],
      opt [token .docComment],
      opt [modifiers],
      one [lexerRuleBlock]
    ]
  | modifiers => [many ruleModifiers]
  | returns | locals => [one [token .argAction]]
  | throws => [many1 [token .id]]
  | ruleAction => [one [token .id], one [token .action]]
  | catchClause => [one [token .argAction], one [token .action]]
  | finallyClause => [one [token .action]]
  | ruleBlock => [many1 alternatives]
  | lexerRuleBlock => [many1 lexerAlternatives]
  | emptyAlternative => [opt [elementOptions], one [token .epsilon]]
  | alternative => [opt [elementOptions], many1 elements]
  | lexerElements => [opt [elementOptions], many1 lexerItems]
  | lexerAltAction => [one [lexerElements], many1 [token .id, lexerActionCall]]
  | lexerActionCall => [one [token .id], one [token .id, token .int]]
  | labeled _ => [one [token .id], one elements]
  | block => [
      opt [options],
      many [ruleAction],
      opt [token .action],
      many1 alternatives
    ]
  | suffixed _ => [one [block]]
  | lexerBlock => [opt [options], many1 lexerAlternatives]
  | lexerSuffixed _ => [one [lexerBlock]]
  | action _ | wildcard | terminal _ => [opt [elementOptions]]
  | notSet => [one [set]]
  | notSetOrBlock => [one [set, block]]
  | set => [many1 setElements]
  | range => [one [token .stringLiteral], one [token .stringLiteral]]
  | qualified => [one [token .id], one (terminals ++ [ruleReference])]
  | ruleReference => [opt [token .argAction], opt [elementOptions]]
  | elementOptions => [many [token .id, elementAssign]]
  | elementAssign => [
      one [token .id],
      one [token .id, token .stringLiteral, token .action, token .int]
    ]

end Form

-----------------------------------------------------------------------------------------
-- Derivations
-----------------------------------------------------------------------------------------

mutual

/-- The node is of the form, and so are the nodes below it of theirs. -/
inductive Derives : Form → Node → Prop
  | intro {form : Form} {n : Node} (kind : n.kind = form.kind)
    (children : ∀ slots ∈ form.slots?, Yields slots n.children)
    : Derives form n

/-- The nodes fill the slots one after another. -/
inductive Yields : List Slot → List Node → Prop
  | nil : Yields [] []
  | one {forms : List Form} {form : Form} {n : Node} {slots : List Slot} {nodes : List Node}
    (mem : form ∈ forms) (head : Derives form n) (more : Yields slots nodes)
    : Yields (.one forms :: slots) (n :: nodes)
  | skip {forms : List Form} {slots : List Slot} {nodes : List Node}
    (more : Yields slots nodes)
    : Yields (.opt forms :: slots) nodes
  | take {forms : List Form} {slots : List Slot} {nodes : List Node}
    (more : Yields (.one forms :: slots) nodes)
    : Yields (.opt forms :: slots) nodes
  | stop {forms : List Form} {slots : List Slot} {nodes : List Node}
    (more : Yields slots nodes)
    : Yields (.many forms :: slots) nodes
  | next {forms : List Form} {slots : List Slot} {nodes : List Node}
    (more : Yields (.one forms :: .many forms :: slots) nodes)
    : Yields (.many forms :: slots) nodes
  | many1 {forms : List Form} {slots : List Slot} {nodes : List Node}
    (more : Yields (.one forms :: .many forms :: slots) nodes)
    : Yields (.many1 forms :: slots) nodes

end

/-- The node derives from one of the forms. -/
def OneOf (forms : List Form) (n : Node) : Prop := ∃ form ∈ forms, Derives form n

/-- A node derives from a form exactly if its kind and its children are right. -/
theorem derives_iff {form : Form} {n : Node}
    : Derives form n ↔ n.kind = form.kind ∧ ∀ slots ∈ form.slots?, Yields slots n.children := by
  constructor
  · intro h
    cases h with
    | intro kind children => exact ⟨kind, children⟩
  · intro h
    exact .intro h.1 h.2

/-- A node with a kind of its own is all that a token asks for. -/
@[simp]
theorem derives_token {kind : NodeKind} {n : Node} : Derives (token kind) n ↔ n.kind = kind := by
  simp [derives_iff, Form.kind, Form.slots?]

/-- A node that derives from a form is of its kind. -/
theorem Derives.kind_eq {form : Form} {n : Node} (h : Derives form n) : n.kind = form.kind :=
  (derives_iff.mp h).1

/-- What derives from a form need not be asked for its kind. -/
theorem kind_and_derives {form : Form} {n : Node} {kind : NodeKind} (h : form.kind = kind)
    {rest : Prop}
    : n.kind = kind ∧ Derives form n ∧ rest ↔ Derives form n ∧ rest :=
  and_iff_right_of_imp (fun both => both.1.kind_eq.trans h)

/-- A node that derives from one of some forms is of one of their kinds. -/
theorem OneOf.kind_mem {forms : List Form} {n : Node} (h : OneOf forms n)
    : n.kind ∈ forms.map (·.kind) := by
  obtain ⟨form, mem, derives⟩ := h
  exact List.mem_map.mpr ⟨form, mem, derives.kind_eq.symm⟩

/-- A node of another kind than all of some forms derives from none of them. -/
theorem not_oneOf {forms : List Form} {n : Node} (h : n.kind ∉ forms.map (·.kind))
    : ¬ OneOf forms n :=
  fun head => h head.kind_mem

/-- A node derives from a token of its kind among some forms. -/
theorem oneOf_of_token {forms : List Form} {n : Node} {kind : NodeKind}
    (mem : token kind ∈ forms) (h : n.kind = kind)
    : OneOf forms n :=
  ⟨_, mem, derives_token.mpr h⟩

@[simp]
theorem oneOf_nil {n : Node} : ¬ OneOf [] n := by
  simp [OneOf]

@[simp]
theorem oneOf_cons {form : Form} {forms : List Form} {n : Node}
    : OneOf (form :: forms) n ↔ Derives form n ∨ OneOf forms n := by
  simp [OneOf]

theorem oneOf_singleton {form : Form} {n : Node} : OneOf [form] n ↔ Derives form n := by
  simp

@[simp]
theorem oneOf_append {first second : List Form} {n : Node}
    : OneOf (first ++ second) n ↔ OneOf first n ∨ OneOf second n := by
  simp only [OneOf, List.mem_append, or_and_right, exists_or]

/-- Only the forms of the kind of a node matter to the node. -/
theorem oneOf_iff_filter {forms : List Form} {n : Node} {kind : NodeKind} (h : n.kind = kind)
    : OneOf forms n ↔ OneOf (forms.filter (·.kind == kind)) n := by
  constructor
  · intro head
    obtain ⟨form, mem, derives⟩ := head
    refine ⟨form, List.mem_filter.mpr ⟨mem, ?_⟩, derives⟩
    rw [← h, derives.kind_eq, beq_self_eq_true]
  · intro head
    obtain ⟨form, mem, derives⟩ := head
    exact ⟨form, (List.mem_filter.mp mem).1, derives⟩

/-- Forms that agree in the kind of a node are the same to the node. -/
theorem oneOf_congr {first second : List Form} {n : Node} {kind : NodeKind}
    (h : n.kind = kind)
    (same : first.filter (·.kind == kind) = second.filter (·.kind == kind))
    : OneOf first n ↔ OneOf second n := by
  rw [oneOf_iff_filter h, same, ← oneOf_iff_filter h]

/-- The only form of the kind of a node decides for the node. -/
theorem derives_iff_oneOf {form : Form} {forms : List Form} {n : Node} {kind : NodeKind}
    (h : n.kind = kind) (only : forms.filter (·.kind == kind) = [form])
    : Derives form n ↔ OneOf forms n := by
  rw [oneOf_iff_filter h, only]
  simp

-----------------------------------------------------------------------------------------
-- Reading the slots from the left
-----------------------------------------------------------------------------------------

variable {forms : List Form} {slots : List Slot} {nodes : List Node}

/-- No slots are filled by no nodes only. -/
@[simp]
theorem yields_nil : Yields [] nodes ↔ nodes = [] := by
  constructor
  · intro h
    cases h
    rfl
  · intro h
    subst nodes
    exact .nil

/-- A slot for one node is filled by the first node. -/
@[simp]
theorem yields_one
    : Yields (one forms :: slots) nodes
      ↔ ∃ n rest, nodes = n :: rest ∧ OneOf forms n ∧ Yields slots rest := by
  constructor
  · intro h
    cases h with
    | one mem head more => exact ⟨_, _, rfl, ⟨_, mem, head⟩, more⟩
  · intro h
    obtain ⟨n, rest, rfl, ⟨form, mem, head⟩, more⟩ := h
    exact .one mem head more

/-- A slot for at most one node is empty or not. -/
theorem yields_opt
    : Yields (opt forms :: slots) nodes
      ↔ Yields slots nodes ∨ Yields (one forms :: slots) nodes := by
  constructor
  · intro h
    cases h with
    | skip more => exact .inl more
    | take more => exact .inr more
  · intro h
    rcases h with more | more
    · exact .skip more
    · exact .take more

/-- A slot for at least one node is one for one node and one for any number after it. -/
theorem yields_many1
    : Yields (many1 forms :: slots) nodes
      ↔ Yields (one forms :: many forms :: slots) nodes := by
  constructor
  · intro h
    cases h with
    | many1 more => exact more
  · exact .many1

/-- A slot for any number of nodes stops or goes on with one more. -/
theorem yields_many
    : Yields (many forms :: slots) nodes
      ↔ Yields slots nodes ∨ Yields (one forms :: many forms :: slots) nodes := by
  constructor
  · intro h
    cases h with
    | stop more => exact .inl more
    | next more => exact .inr more
  · intro h
    rcases h with more | more
    · exact .stop more
    · exact .next more

@[simp]
theorem yields_one_cons {n : Node}
    : Yields (one forms :: slots) (n :: nodes) ↔ OneOf forms n ∧ Yields slots nodes := by
  rw [yields_one]
  constructor
  · intro h
    obtain ⟨_, _, ⟨rfl, rfl⟩, head, more⟩ := h
    exact ⟨head, more⟩
  · intro h
    exact ⟨n, nodes, rfl, h⟩

/-- At the end, any number of nodes is all that is left, by induction on the nodes. -/
@[simp]
theorem yields_many_last : Yields [many forms] nodes ↔ ∀ n ∈ nodes, OneOf forms n := by
  induction nodes with
  | nil =>
      rw [yields_many]
      simp
  | cons n nodes ih =>
      rw [yields_many, yields_one_cons, ih, List.forall_mem_cons, yields_nil,
        or_iff_right (List.cons_ne_nil n nodes)]

/-- At the end, at least one node is all that is left and something is left. -/
@[simp]
theorem yields_many1_last
    : Yields [many1 forms] nodes ↔ nodes ≠ [] ∧ ∀ n ∈ nodes, OneOf forms n := by
  rw [yields_many1]
  cases nodes with
  | nil => simp
  | cons n nodes =>
      rw [yields_one_cons, yields_many_last, List.forall_mem_cons,
        and_iff_right (List.cons_ne_nil n nodes)]

/-- The kinds of the first node of the slots, if there is one. -/
def firstKinds : List Slot → List NodeKind
  | [] => []
  | one forms :: _ | many1 forms :: _ => forms.map (·.kind)
  | opt forms :: slots | many forms :: slots => forms.map (·.kind) ++ firstKinds slots

/-- A node of one of the forms first is of one of their kinds. -/
theorem Yields.kind_mem_one {n : Node} {rest : List Node}
    (h : Yields (.one forms :: slots) (n :: rest))
    : n.kind ∈ forms.map (·.kind) := by
  obtain ⟨_, _, ⟨rfl, rfl⟩, head, -⟩ := yields_one.mp h
  exact head.kind_mem

/-- The first of some nodes is of a kind that may be first, by induction on the slots. -/
theorem Yields.kind_mem {n : Node} {rest : List Node} (h : Yields slots (n :: rest))
    : n.kind ∈ firstKinds slots := by
  induction slots with
  | nil => simp at h
  | cons slot slots ih =>
      cases slot with
      | one forms => exact h.kind_mem_one
      | many1 forms => exact (yields_many1.mp h).kind_mem_one
      | opt forms =>
          rcases yields_opt.mp h with more | more
          · exact List.mem_append_right _ (ih more)
          · exact List.mem_append_left _ more.kind_mem_one
      | many forms =>
          rcases yields_many.mp h with more | more
          · exact List.mem_append_right _ (ih more)
          · exact List.mem_append_left _ more.kind_mem_one

end GrammarFrontend.TreeGrammar
