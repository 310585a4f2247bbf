import GrammarFrontend.Config.Basic
import GrammarFrontend.Config.Json
import GrammarFrontend.Source.Character
import GrammarFrontend.Source.Size

/-! Settings documents. A group of settings is an object, in which unknown members are passed over
and a known one stands at most once, or an array of the settings in their order; a setting that
is absent has its default.
-/

namespace GrammarFrontend.Config

/-- The values given for the settings of a group. A key without a text is refused, and so is a
known key that stands twice. -/
def group (names : List String) : Json → Option (List (Option Json))
  | .array items =>
      if items.length ≤ names.length then
        some ((List.range names.length).map (items[·]?))
      else none
  | .object members => do
      let members ← members.mapM (fun (key, value) => key.map (String.ofList ·, value))
      names.mapM (fun name =>
        match members.filter (·.1 == name) with
        | [] => some none
        | [(_, value)] => some (some value)
        | _ => none)
  | _ => none

def flag? : Json → Option Bool
  | .bool value => some value
  | _ => none

def text? : Json → Option String
  | .string text => text.map String.ofList
  | _ => none

/-- A natural number of at most 64 bits, written with digits only. -/
def size? : Json → Option Nat
  | .number spelling =>
      if spelling.all Char.isDigit then
        if decimalValue spelling < sizeBound then some (decimalValue spelling) else none
      else none
  | _ => none

/-- A setting that is absent has its default; one that is there has to be of the right form. -/
def setting (read? : Json → Option α) (preset : α) : Option Json → Option α
  | none => some preset
  | some value => read? value

def scanner? (document : Json) : Option ScannerConfig := do
  match ← group ["initial_mode_is_lexer", "record_source_directives"] document with
  | [lexer, directives] =>
      return {
        startsInLexerRule := ← setting flag? false lexer
        recordsDirectives := ← setting flag? true directives
      }
  | _ => none

def walker? (document : Json) : Option WalkerConfig := do
  let preset : WalkerConfig := {}
  match ← group ["start_production", "default_mode_name", "max_depth", "resume_on_mismatch"]
    document with
  | [start, mode, depth, resume] =>
      return {
        startProduction := ← setting text? preset.startProduction start
        defaultMode := ← setting text? preset.defaultMode mode
        maxDepth := ← setting size? preset.maxDepth depth
        resumesOnMismatch := ← setting flag? preset.resumesOnMismatch resume
      }
  | _ => none

/-- The settings that a document gives. -/
def ofJson? (document : Json) : Option Config := do
  match ← group ["scanner", "walker"] document with
  | [scanner, walker] =>
      return {
        scanner := ← setting scanner? {} scanner
        walker := ← setting walker? {} walker
      }
  | _ => none

/-- The settings that the text of a document gives. -/
def read? (text : String) : Option Config := Json.read? text.toList >>= ofJson?

end GrammarFrontend.Config
