import GrammarFrontend.Tree.Node

/-! What a listener can read while a walk is under way: the grammar, the mode, the rule and the
outer alternative that the walk is in, and the kinds of the nodes being visited.
-/

namespace GrammarFrontend

/-- The part of a context that belongs to one rule. -/
structure RuleScope where
  name : Option String
  node : Option Node
  /-- The outer alternative, and its number within the rule; they start with none and zero. -/
  alternative : Option Node
  number : Nat
deriving DecidableEq, Repr, Inhabited

namespace RuleScope

/-- Outside of every rule. -/
def outside : RuleScope := { name := none, node := none, alternative := none, number := 0 }

/-- Inside a rule, before its first outer alternative. -/
def opening (name : String) (node : Node) : RuleScope :=
  { outside with name := some name, node := some node }

/-- Moves on to the next outer alternative. -/
def moveTo (s : RuleScope) (alternative : Node) : RuleScope :=
  { s with alternative := some alternative, number := s.number + 1 }

end RuleScope

structure Context where
  grammarName : Option String
  modeName : String
  rule : RuleScope
  /-- The number of suffixed blocks around the present node. -/
  ebnfDepth : Nat
  /-- The kinds of the nodes being visited, the innermost first. -/
  path : List NodeKind
deriving DecidableEq, Repr, Inhabited

namespace Context

def initial (modeName : String) : Context :=
  { grammarName := none, modeName, rule := .outside, ebnfDepth := 0, path := [] }

def inRule (c : Context) : Bool := c.rule.name.isSome

/-- The kinds of the nodes being visited, the outermost first. -/
def trail (c : Context) : List NodeKind := c.path.reverse

/-- The innermost of the given kinds among the nodes around the present one. -/
def nearestAncestor (c : Context) (kinds : List NodeKind) : Option NodeKind :=
  c.path.tail.find? (kinds.contains ·)

end Context

end GrammarFrontend
