import GrammarFrontend.Diagnostic.Basic
import GrammarFrontend.Tree.Kind
import GrammarFrontend.Walk.Production

/-! Why a walk fails: a node that is not of the shape its production requires, a name that no entry
has, or too many productions open at once.
-/

namespace GrammarFrontend

inductive WalkError where
  | mismatch (production : Production) (expected found : String) (span : Option Span)
  | unknownProduction (name : String)
  | recursionLimit (depth : Nat)
deriving DecidableEq, Repr

namespace WalkError

/-- A node of a kind that is not expected, or no node where one is. -/
def unexpected (production : Production) (expected : String) (found : Option NodeKind)
    (span : Option Span)
    : WalkError :=
  .mismatch production expected ((found.map (·.name)).getD "end of children") span

/-- Gives a mismatch that has no span yet this one. -/
def locate (span : Option Span) : WalkError → WalkError
  | .mismatch production expected found none => .mismatch production expected found span
  | e => e

def kind : WalkError → DiagnosticKind
  | .mismatch .. => .structuralMismatch
  | .unknownProduction _ => .unknownProduction
  | .recursionLimit _ => .recursionLimit

def message : WalkError → String
  | .mismatch production expected found _ =>
      production.name ++ ": expected " ++ expected ++ ", found " ++ found
  | .unknownProduction name => "no production named `" ++ name ++ "`"
  | .recursionLimit depth => "walk exceeded the maximum depth of " ++ Nat.repr depth

def diagnostic (e : WalkError) : Diagnostic :=
  match e with
  | .mismatch production expected found span =>
      { kind := e.kind, span, args := [production.name, expected, found] }
  | .unknownProduction name => { kind := e.kind, span := none, args := [name] }
  | .recursionLimit depth => { kind := e.kind, span := none, args := [Nat.repr depth] }

end WalkError

end GrammarFrontend
