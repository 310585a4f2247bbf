import GrammarFrontend.Source.Position

/-! Diagnostics: what is wrong, where, and with which arguments. The scanner and the tree walk
report them in one form, and every code belongs to exactly one kind.
-/

namespace GrammarFrontend

/-- The kinds of diagnostics; the first eight come from scanning and never stop it. -/
inductive DiagnosticKind where
  | unterminatedComment
  | unterminatedDocComment
  | unterminatedStringLiteral
  | unterminatedAction
  | unterminatedArgAction
  | unterminatedCharSet
  | invalidEscapeSequence
  | unrecognizedCharacter
  | structuralMismatch
  | unknownProduction
  | recursionLimit
deriving DecidableEq, Repr

namespace DiagnosticKind

def all : List DiagnosticKind :=
  [unterminatedComment, unterminatedDocComment, unterminatedStringLiteral, unterminatedAction,
    unterminatedArgAction, unterminatedCharSet, invalidEscapeSequence, unrecognizedCharacter,
    structuralMismatch, unknownProduction, recursionLimit]

def code : DiagnosticKind → String
  | unterminatedComment => "UNTERMINATED_COMMENT"
  | unterminatedDocComment => "UNTERMINATED_DOC_COMMENT"
  | unterminatedStringLiteral => "UNTERMINATED_STRING_LITERAL"
  | unterminatedAction => "UNTERMINATED_ACTION"
  | unterminatedArgAction => "UNTERMINATED_ARG_ACTION"
  | unterminatedCharSet => "UNTERMINATED_CHAR_SET"
  | invalidEscapeSequence => "INVALID_ESCAPE_SEQUENCE"
  | unrecognizedCharacter => "UNRECOGNIZED_CHARACTER"
  | structuralMismatch => "STRUCTURAL_MISMATCH"
  | unknownProduction => "UNKNOWN_PRODUCTION"
  | recursionLimit => "RECURSION_LIMIT"

def ofCode? (code : String) : Option DiagnosticKind := all.find? (·.code == code)

/-- The kinds that scanning reports. -/
def isLexical : DiagnosticKind → Bool
  | structuralMismatch | unknownProduction | recursionLimit => false
  | _ => true

end DiagnosticKind

structure Diagnostic where
  kind : DiagnosticKind
  /-- The text at fault, if the condition is tied to the source. -/
  span : Option Span
  args : List String
deriving DecidableEq, Repr

namespace Diagnostic

def line (d : Diagnostic) : Option Nat := d.span.map (·.start.line)

def column (d : Diagnostic) : Option Nat := d.span.map (·.start.column)

/-- The place in brackets, the code, and the arguments, each after one blank. -/
def render (d : Diagnostic) : String :=
  let place :=
    match d.span with
    | some span => "[" ++ Nat.repr span.start.line ++ ":" ++ Nat.repr span.start.column ++ "] "
    | none => "[?:?] "
  d.args.foldl (fun text arg => text ++ " " ++ arg) (place ++ d.kind.code)

end Diagnostic

end GrammarFrontend
