import GrammarFrontend.Scanner.Basic

/-! The lexer: a scanner run over one source. It hands out the tokens one at a time or all at once,
and keeps the input that the scanner discards.
-/

namespace GrammarFrontend

/-- Discarded input is kept with the latest first. -/
structure Lexer where
  scanner : Scanner
  cursor : Cursor
  discarded : List Token

namespace Lexer

def create (source : List Char) (config : ScannerConfig) (naming : Naming) : Lexer :=
  {
    scanner := .create config naming
    cursor := .ofText source
    discarded := []
  }

/-- The next token, if there is one before the end of the input. -/
def pull (l : Lexer) : Option Token × Lexer :=
  let step := l.scanner.next l.cursor
  match _ : step.result with
  | .eof => (none, { l with scanner := step.scanner, cursor := step.cursor })
  | .token token => (some token, { l with scanner := step.scanner, cursor := step.cursor })
  | .skip token =>
      pull
        {
          scanner := step.scanner
          cursor := step.cursor
          discarded := token :: l.discarded
        }
  | .error token diagnostic =>
      pull
        {
          scanner := step.scanner.report diagnostic
          cursor := step.cursor
          discarded := token :: l.discarded
        }
termination_by l.cursor.rest.length
decreasing_by
  · rename_i hr
    exact Scanner.next_length_lt _ _ (by simp [step, hr])
  · rename_i hr
    exact Scanner.next_length_lt _ _ (by simp [step, hr])

theorem pull_length_lt {l : Lexer} {token : Token} (h : l.pull.1 = some token)
    : l.pull.2.cursor.rest.length < l.cursor.rest.length := by
  fun_induction pull l with
  | case1 => simp at h
  | case2 l step token hr => exact Scanner.next_length_lt _ _ (by simp [step, hr])
  | case3 l step token hr ih =>
      exact Nat.lt_trans (ih h) (Scanner.next_length_lt _ _ (by simp [step, hr]))
  | case4 l step token diagnostic hr ih =>
      exact Nat.lt_trans (ih h) (Scanner.next_length_lt _ _ (by simp [step, hr]))

/-- The next token; at the end of the input, again and again the empty token there. -/
def next (l : Lexer) : Token × Lexer :=
  let (token, l) := l.pull
  (token.getD (.eofAt l.cursor.position), l)

/-- Scans the rest of the input. -/
def drain (l : Lexer) : Lexer :=
  match _ : l.pull.1 with
  | none => l.pull.2
  | some _ => drain l.pull.2
termination_by l.cursor.rest.length
decreasing_by exact pull_length_lt ‹_›

/-- The tokens handed out, in their order. -/
def tokens (l : Lexer) : List Token := l.scanner.tokens

def mode (l : Lexer) : ScanMode := l.scanner.mode

def setMode (l : Lexer) (mode : ScanMode) : Lexer :=
  { l with scanner := l.scanner.setMode mode }

/-- The diagnostics reported, in their order. -/
def diagnostics (l : Lexer) : List Diagnostic := l.scanner.reported.reverse

/-- Everything seen so far as a stream that ends at the cursor. -/
def stream (l : Lexer) : TokenStream :=
  {
    tokens := l.tokens ++ [.eofAt l.cursor.position]
    discarded := l.discarded.reverse
    directives := l.scanner.directives.reverse
  }

/-- The stream of all tokens, those handed out before included. -/
def tokenize (l : Lexer) : TokenStream := l.drain.stream

end Lexer

/-- A source as tokens, with what is wrong in it. -/
structure LexOutput where
  tokens : TokenStream
  diagnostics : List Diagnostic
deriving DecidableEq, Repr

def LexOutput.hasErrors (o : LexOutput) : Bool := !o.diagnostics.isEmpty

/-- Scans a source with the usual naming convention. -/
def lex (source : String) (config : Config) : LexOutput :=
  let done := (Lexer.create source.toList config.scanner uppercaseNaming).drain
  { tokens := done.stream, diagnostics := done.diagnostics }

end GrammarFrontend
