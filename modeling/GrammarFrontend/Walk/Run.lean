import GrammarFrontend.Config.Basic
import GrammarFrontend.Walk.Plan.Productions

/-! Carrying out plans. A production is entered and left around its plan, whatever comes of it; an
error goes up to the nearest place where the walk can go on.
-/

namespace GrammarFrontend

/-- One line of a walk's journal. -/
inductive Entry where
  | event (event : Event)
  | report (diagnostic : Diagnostic)
deriving DecidableEq, Repr

/-- Everything that a walk changes. -/
structure WalkState where
  context : Context
  /-- The nodes of the productions that are open, the innermost first. -/
  stack : List Node
  /-- What has been announced and reported, the latest first. -/
  journal : List Entry
  errorCount : Nat
deriving DecidableEq, Repr

/-- How a plan ends. -/
abbrev Outcome := Except WalkError Unit

namespace WalkState

def initial (modeName : String) : WalkState :=
  { context := .initial modeName, stack := [], journal := [], errorCount := 0 }

def announce (s : WalkState) (callback : Callback) : WalkState :=
  { s with journal := .event { callback, context := s.context } :: s.journal }

def report (s : WalkState) (e : WalkError) : WalkState :=
  { s with journal := .report e.diagnostic :: s.journal, errorCount := s.errorCount + 1 }

/-- The innermost node of one of the kinds around the present one. -/
def enclosing (s : WalkState) (kinds : List NodeKind) : Option Node :=
  s.stack.tail.find? (kinds.contains ·.kind)

/-- An option belongs to the innermost rule or block around it, or else to the grammar. -/
def optionCallback (s : WalkState) (id value : Node) : Callback :=
  match s.enclosing [.rule, .block] with
  | some owner => if owner.kind == .block then .blockOption owner id value else .ruleOption id value
  | none => .grammarOption id value

/-- A command belongs to the present outer alternative. -/
def commandCallback (s : WalkState) (id : Node) (arg : Option Node) : Callback :=
  match arg with
  | some arg => .lexerCallCommand s.context.rule.number id arg
  | none => .lexerCommand s.context.rule.number id

def setGrammar (s : WalkState) (name : String) : WalkState :=
  { s with context := { s.context with grammarName := some name } }

def setMode (s : WalkState) (name : String) : WalkState :=
  { s with context := { s.context with modeName := name } }

def setRule (s : WalkState) (rule : RuleScope) : WalkState :=
  { s with context := { s.context with rule } }

def setEbnfDepth (s : WalkState) (ebnfDepth : Nat) : WalkState :=
  { s with context := { s.context with ebnfDepth } }

def enter (s : WalkState) (v : Visit) : WalkState :=
  announce
    {
      s with
      stack := v.node :: s.stack
      context := { s.context with path := v.node.kind :: s.context.path }
    }
    (.enter v.production v.node)

def exit (s : WalkState) (v : Visit) : WalkState :=
  let s := s.announce (.exit v.production v.node)
  { s with stack := s.stack.tail, context := { s.context with path := s.context.path.tail } }

/-- The events announced, in their order. -/
def events (s : WalkState) : List Event :=
  s.journal.reverse.filterMap (fun
    | .event e => some e
    | .report _ => none)

/-- The diagnostics reported, in their order. -/
def diagnostics (s : WalkState) : List Diagnostic :=
  s.journal.reverse.filterMap (fun
    | .event _ => none
    | .report d => some d)

end WalkState

/-- Carries out a plan, given what carries out visits. -/
def Plan.run (resumes : Bool) (go : Visit → WalkState → Outcome × WalkState)
    : Plan → WalkState → Outcome × WalkState
  | .done, s => (.ok (), s)
  | .fail e, s => (.error e, s)
  | .seq first next, s =>
      match first.run resumes go s with
      | (.ok (), s) => next.run resumes go s
      | failed => failed
  | .visit v, s => go v s
  | .attempt plan, s =>
      match plan.run resumes go s with
      | (.error e, s) => if resumes then (.ok (), s.report e) else (.error e, s)
      | succeeded => succeeded
  | .announce callback, s => (.ok (), s.announce callback)
  | .announceOption id value, s => (.ok (), s.announce (s.optionCallback id value))
  | .announceCommand id arg, s => (.ok (), s.announce (s.commandCallback id arg))
  | .setGrammar name, s => (.ok (), s.setGrammar name)
  | .setMode name, s => (.ok (), s.setMode name)
  | .nextAlternative alt, s => (.ok (), s.setRule (s.context.rule.moveTo alt))
  | .inRule name node body, s =>
      let (outcome, after) := body.run resumes go (s.setRule (.opening name node))
      (outcome, after.setRule s.context.rule)
  | .inAlternative alt body, s =>
      let (outcome, after) := body.run resumes go (s.announce (.enterAlternative alt))
      (outcome, after.announce (.exitAlternative alt))
  | .inSuffix body, s =>
      let (outcome, after) := body.run resumes go (s.setEbnfDepth (s.context.ebnfDepth + 1))
      (outcome, after.setEbnfDepth (after.context.ebnfDepth - 1))

/-- Carries out a production with room for that many open productions. -/
def Visit.run (config : WalkerConfig) : (room : Nat) → Visit → WalkState → Outcome × WalkState
  | 0, _, s => (.error (.recursionLimit config.maxDepth), s)
  | room + 1, v, s =>
      let (outcome, after) := v.plan.run config.resumesOnMismatch (run config room) (s.enter v)
      (outcome.mapError (WalkError.locate v.node.span), after.exit v)

/-- Carries out a production; the room is what the depth limit leaves beside the open ones. -/
def Visit.start (config : WalkerConfig) (v : Visit) (s : WalkState) : Outcome × WalkState :=
  v.run config (config.maxDepth - s.stack.length) s

end GrammarFrontend
