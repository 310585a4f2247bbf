import GrammarFrontend.Walk.Registry

/-! The walker: walks of trees one after another, each from an entry found by name. Visits by name
may nest, and only the outermost one reports the error that it ends with.
-/

namespace GrammarFrontend

structure Walker where
  config : WalkerConfig
  registry : Registry
  state : WalkState
  /-- How many visits by name are under way. -/
  visits : Nat

namespace Walker

def create (config : WalkerConfig) : Walker :=
  { config, registry := .full, state := .initial config.defaultMode, visits := 0 }

/-- Carries out a script, given what visits a node by name. -/
def runScript (go : Node → String → Walker → Option (Outcome × Walker))
    : Script → Walker → Option (Outcome × Walker)
  | .finish outcome, w => some (outcome, w)
  | .visit node name next, w => do
      let (outcome, w) ← go node name w
      runScript go (next outcome) w

/-- Reports an error, unless a visit around this one is still under way. -/
def conclude (w : Walker) (outcome : Outcome) : Outcome × Walker :=
  match outcome with
  | .error e => (outcome, if w.visits = 0 then { w with state := w.state.report e } else w)
  | .ok () => (outcome, w)

/-- Visits a node by the entry of that name. The result is nothing if visits would nest deeper than
`nesting`. -/
def visit : (nesting : Nat) → Node → String → Walker → Option (Outcome × Walker)
  | 0, _, _, _ => none
  | nesting + 1, node, name, w =>
      match w.registry.get? name with
      | none => some (w.conclude (.error (.unknownProduction name)))
      | some handler => do
          let (outcome, after) ←
            match handler with
            | .production p =>
                let (outcome, state) := (Visit.of p node).start w.config w.state
                some (outcome, { w with state, visits := w.visits + 1 })
            | .script start =>
                runScript (visit nesting) (start node) { w with visits := w.visits + 1 }
          return { after with visits := after.visits - 1 }.conclude outcome

/-- Visits the root of a grammar by the configured entry; nothing is left of walks before. -/
def visitGrammar (nesting : Nat) (root : Node) (w : Walker) : Option (Outcome × Walker) :=
  let state := { w.state with context := .initial w.config.defaultMode, stack := [] }
  visit nesting root w.config.startProduction { w with state }

end Walker

/-- What came of the walk of one tree. -/
structure WalkOutput where
  events : List Event
  diagnostics : List Diagnostic
  /-- No error escaped the walk. -/
  completed : Bool
deriving DecidableEq, Repr

def WalkOutput.hasErrors (o : WalkOutput) : Bool := !o.diagnostics.isEmpty

/-- Walks a tree from the configured start. All entries are productions, so visits do not nest. -/
def walk (tree : Node) (config : Config) : WalkOutput :=
  match (Walker.create config.walker).visitGrammar 1 tree with
  | some (outcome, w) =>
      {
        events := w.state.events
        diagnostics := w.state.diagnostics
        completed := outcome.isOk
      }
  | none => { events := [], diagnostics := [], completed := false }

end GrammarFrontend
