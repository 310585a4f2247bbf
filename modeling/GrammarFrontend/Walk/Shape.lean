import GrammarFrontend.Tree.Node
import GrammarFrontend.Walk.Error

/-! The shape of a node: its kind, and its children read from the left. Reading never skips a child,
and says what it found where it expected something else.
-/

namespace GrammarFrontend.Shape

/-- A list of nodes read in part: what was found, and the nodes after it. -/
abbrev Reading (α : Type) := Except WalkError (α × List Node)

/-- The kinds that would do, as one text. -/
def alternatives (kinds : List NodeKind) : String :=
  String.intercalate " | " (kinds.map (·.name))

/-- A node of another kind than the ones that would do. -/
def wrongKind (p : Production) (kinds : List NodeKind) (n : Node) : WalkError :=
  .unexpected p (alternatives kinds) (some n.kind) n.span

/-- The end of the children where more are needed. -/
def missing (p : Production) (expected : String) : WalkError := .unexpected p expected none none

def requireKind (p : Production) (kinds : List NodeKind) (n : Node) : Except WalkError Unit :=
  if kinds.contains n.kind then .ok () else .error (wrongKind p kinds n)

/-- The next node, which has to be of one of the kinds. -/
def expect (p : Production) (kinds : List NodeKind) : List Node → Reading Node
  | [] => .error (missing p (alternatives kinds))
  | n :: rest => if kinds.contains n.kind then .ok (n, rest) else .error (wrongKind p kinds n)

/-- The next node, if it is of the kind. -/
def takeIf (kind : NodeKind) : List Node → Option Node × List Node
  | [] => (none, [])
  | n :: rest => if n.kind == kind then (some n, rest) else (none, n :: rest)

/-- The run of nodes of the kinds. -/
def takeRun (kinds : List NodeKind) (nodes : List Node) : List Node × List Node :=
  (nodes.takeWhile (kinds.contains ·.kind), nodes.dropWhile (kinds.contains ·.kind))

/-- No node may be left. -/
def finish (p : Production) : List Node → Except WalkError Unit
  | [] => .ok ()
  | n :: _ => .error (.unexpected p "no further children" (some n.kind) n.span)

end GrammarFrontend.Shape
