import GrammarFrontend.Walk.Callback
import GrammarFrontend.Walk.Error

/-! Plans: what a production does at a node. A plan is found from the node alone; what it announces
of the context is filled in when it is carried out.
-/

namespace GrammarFrontend

/-- A production at a node. The two productions of lists visit `parts`; the options of an element
belong to `element`. -/
structure Visit where
  production : Production
  node : Node
  parts : List Node
  element : Node
deriving DecidableEq, Repr

/-- A production at a node, for all the children of the node, and with the node as the element. -/
def Visit.of (production : Production) (node : Node) : Visit :=
  { production, node, parts := node.children, element := node }

inductive Plan where
  | done
  | fail (error : WalkError)
  /-- The second plan is carried out if the first one does not fail. -/
  | seq (first next : Plan)
  | visit (v : Visit)
  /-- A place where the walk can go on after an error. -/
  | attempt (plan : Plan)
  | announce (callback : Callback)
  /-- An option, of the innermost rule or block around it, or of the grammar. -/
  | announceOption (id value : Node)
  /-- A command of the present outer alternative, with its argument if it has one. -/
  | announceCommand (id : Node) (arg : Option Node)
  | setGrammar (name : String)
  | setMode (name : String)
  | nextAlternative (alt : Node)
  | inRule (name : String) (node : Node) (body : Plan)
  | inAlternative (alt : Node) (body : Plan)
  | inSuffix (body : Plan)
deriving Repr

namespace Plan

/-- One plan after another. -/
def steps : List Plan → Plan
  | [] => done
  | plan :: plans => seq plan (steps plans)

/-- The plan that a reading of the node's shape gives, or the error that it ends with. -/
def ofReading : Except WalkError Plan → Plan
  | .ok plan => plan
  | .error e => fail e

/-- Visits a node as a production. -/
def visitAs (p : Production) (n : Node) : Plan := visit (.of p n)

/-- Siblings, each of which may fail without the others. -/
def each (plans : List Plan) : Plan := steps (plans.map attempt)

/-- Siblings of which there has to be at least one. -/
def eachRequired (p : Production) (expected : NodeKind) (plans : List Plan) : Plan :=
  if plans.isEmpty then fail (.unexpected p expected.name none none) else each plans

end Plan

end GrammarFrontend
