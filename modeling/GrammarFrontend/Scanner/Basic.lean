import GrammarFrontend.Config.Basic
import GrammarFrontend.Lexeme.Read
import GrammarFrontend.Source.Cursor
import GrammarFrontend.Token.Naming
import GrammarFrontend.Token.Stream

/-! The scanner. Each step reads the lexeme at the cursor, gives it its place in the source, and
keeps what later steps and the caller need: the tokens handed out, the scan mode, the directives
and the diagnostics.
-/

namespace GrammarFrontend

/-- Records are kept with the latest entry first. -/
structure Scanner where
  naming : Naming
  recordsDirectives : Bool
  mode : ScanMode
  trials : Trials
  history : List Token
  directives : List Directive
  reported : List Diagnostic

/-- What one step of the scanner finds. -/
inductive ScanResult where
  | token (token : Token)
  /-- Input that no parser sees. -/
  | skip (token : Token)
  /-- Input that matches nothing, with the diagnostic that describes it. -/
  | error (token : Token) (diagnostic : Diagnostic)
  | eof
deriving DecidableEq, Repr

structure ScanStep where
  result : ScanResult
  scanner : Scanner
  cursor : Cursor

namespace Scanner

def create (config : ScannerConfig) (naming : Naming) : Scanner :=
  {
    naming
    recordsDirectives := config.recordsDirectives
    mode := if config.startsInLexerRule then .lexerRule else .parserRule
    trials := .initial
    history := []
    directives := []
    reported := []
  }

/-- The tokens handed out, in their order. -/
def tokens (s : Scanner) : List Token := s.history.reverse

def setMode (s : Scanner) (mode : ScanMode) : Scanner := { s with mode }

/-- Nothing is reported while a trial is running. -/
def report (s : Scanner) (d : Diagnostic) : Scanner :=
  if s.trials.depth = 0 then { s with reported := d :: s.reported } else s

/-- The place where `rest` is left to read, if `rest` is what is left somewhere after the cursor. -/
def placeOf (c : Cursor) (rest : List Char) : Position :=
  c.position.advanceOver (textBefore c.rest rest)

/-- The diagnostic of a fault in the lexeme at the cursor: its span, and its text as argument. -/
def diagnosticOf (c : Cursor) (fault : Fault) : Diagnostic :=
  {
    kind := fault.kind
    span := some { start := placeOf c fault.start, stop := placeOf c fault.stop }
    args := [String.ofList (textBefore fault.start fault.stop)]
  }

/-- The directive in the line comment at the cursor. -/
def directiveOf (c : Cursor) (origin : Origin) : Directive :=
  {
    file := String.ofList origin.file
    line := origin.line
    span := { start := c.position, stop := placeOf c origin.stop }
  }

/-- The lexeme at the cursor as a token, with its text and its place. -/
def tokenOf (c : Cursor) (l : Lexeme) : Token :=
  let text := textBefore c.rest l.rest
  {
    kind := l.kind
    channel := l.kind.channel
    text := String.ofList text
    span := { start := c.position, stop := c.position.advanceOver text }
  }

/-- The diagnostic of a character that begins no token. -/
def unrecognized (t : Token) : Diagnostic :=
  { kind := .unrecognizedCharacter, span := some t.span, args := [t.text] }

/-- The mode after a lexeme: a colon takes it from the tokens before, if they name a rule. -/
def modeAfter (s : Scanner) (kind : TokenKind) : ScanMode :=
  match kind with
  | .colon => (ScanMode.ofHistory (s.history.map (·.kind))).getD s.mode
  | _ => s.mode

/-- The records after a lexeme at the cursor, except for the token itself. -/
def absorb (s : Scanner) (c : Cursor) (l : Lexeme) : Scanner :=
  let kept := if s.recordsDirectives then l.origin.toList.map (directiveOf c) else []
  let settled :=
    { s with
      mode := s.modeAfter l.kind
      trials := l.next.trials
      directives := kept ++ s.directives }
  (l.faults.map (diagnosticOf c)).foldl report settled

/-- Scans the next token. -/
def next (s : Scanner) (c : Cursor) : ScanStep :=
  match Lexeme.read s.mode s.naming { rest := c.rest, trials := s.trials } with
  | none => { result := .eof, scanner := s, cursor := c }
  | some l =>
      let token := tokenOf c l
      let scanner := s.absorb c l
      let cursor := { c with rest := l.rest, position := token.span.stop }
      match l.kind with
      | .byteOrderMark => { result := .skip token, scanner, cursor }
      | .errorChar => { result := .error token (unrecognized token), scanner, cursor }
      | _ =>
          let scanner := { scanner with history := token :: scanner.history }
          { result := .token token, scanner, cursor }

/-- One line on the state of a scanner. -/
def summary (s : Scanner) : String :=
  "GrammarScanner \x7b mode: " ++ s.mode.name ++ ", tokens: " ++ Nat.repr s.history.length
    ++ ", backtracking: " ++ Nat.repr s.trials.depth ++ ", failed: "
    ++ (if s.trials.failed then "true" else "false") ++ " \x7d"

/-- Before the end of the input every step moves the cursor forward. -/
theorem next_length_lt (s : Scanner) (c : Cursor) (h : (s.next c).result ≠ .eof)
    : (s.next c).cursor.rest.length < c.rest.length := by
  cases hl : Lexeme.read s.mode s.naming { rest := c.rest, trials := s.trials } with
  | none => simp [next, hl] at h
  | some l =>
      have hlt := Lexeme.read_length_lt hl
      simp only [next, hl]
      split <;> exact hlt

end Scanner

end GrammarFrontend
