import GrammarFrontend.Source.Character
import GrammarFrontend.Source.Position

/-! The meaning of a string literal: the characters that its text, quotes included, denotes. Reading
stops at the first escape that denotes none.
-/

namespace GrammarFrontend

/-- Why a text denotes nothing; an offset counts bytes of the whole text. -/
inductive LiteralError where
  | unquoted (text : String)
  | invalidEscape (text : String) (offset : Nat)
  | invalidCodePoint (value : Nat)
deriving DecidableEq, Repr

namespace LiteralError

def name : LiteralError → String
  | unquoted _ => "Unquoted"
  | invalidEscape .. => "InvalidEscape"
  | invalidCodePoint _ => "InvalidCodePoint"

def message : LiteralError → String
  | unquoted text => "literal is not enclosed in single quotes: " ++ text
  | invalidEscape text offset =>
      "invalid escape sequence `" ++ text ++ "` at byte " ++ Nat.repr offset
  | invalidCodePoint value =>
      "code point U+" ++ String.ofList ((Nat.toDigits 16 value).map Char.toUpper)
        ++ " is not a valid character"

end LiteralError

namespace Literal

/-- The character that a backslash before another one denotes. -/
def simpleEscape? : Char → Option Char
  | 'b' => some '\x08'
  | 't' => some '\t'
  | 'n' => some '\n'
  | 'f' => some '\x0c'
  | 'r' => some '\r'
  | '\'' => some '\''
  | '\\' => some '\\'
  | _ => none

/-- The spelling of an escape by code point, after its first two characters, and what follows it. -/
structure CodePoint where
  spelling : List Char
  /-- The value, if the spelling is right. -/
  value : Option Nat
  rest : List Char
deriving DecidableEq, Repr

/-- Reads one to six digits in braces, or else four digits. The spelling of a wrong escape ends
after its last digit. -/
def codePoint : List Char → CodePoint
  | '{' :: text =>
      let digits := text.takeWhile isHexDigit
      match text.dropWhile isHexDigit with
      | '}' :: rest =>
          if 1 ≤ digits.length && digits.length ≤ 6 then
            { spelling := '{' :: (digits ++ ['}']), value := some (hexValue digits), rest }
          else
            { spelling := '{' :: digits, value := none, rest := '}' :: rest }
      | rest => { spelling := '{' :: digits, value := none, rest }
  | text =>
      let digits := (text.take 4).takeWhile isHexDigit
      {
        spelling := digits
        value := if digits.length = 4 then some (hexValue digits) else none
        rest := text.drop digits.length
      }

theorem codePoint_rest_suffix (text : List Char) : (codePoint text).rest <:+ text := by
  unfold codePoint
  split
  · rename_i text
    have hs := List.dropWhile_suffix (l := text) isHexDigit
    dsimp only
    split
    · rename_i rest h
      rw [h] at hs
      have ht := hs.trans (List.suffix_cons '{' text)
      split
      · exact (List.suffix_cons _ _).trans ht
      · exact ht
    · exact hs.trans (List.suffix_cons '{' text)
  · exact List.drop_suffix _ _

/-- The characters denoted by a text between quotes that starts at `offset`. -/
def decodeFrom (offset : Nat) : List Char → Except LiteralError (List Char)
  | [] => .ok []
  | '\\' :: [] => .error (.invalidEscape "\\" offset)
  | '\\' :: 'u' :: text =>
      let found := codePoint text
      match found.value with
      | none => .error (.invalidEscape (String.ofList ('\\' :: 'u' :: found.spelling)) offset)
      | some value =>
          if value.isValidChar then
            (decodeFrom (offset + 2 + found.spelling.length) found.rest).map (Char.ofNat value :: ·)
          else
            .error (.invalidCodePoint value)
  | '\\' :: c :: text =>
      match simpleEscape? c with
      | some denoted => (decodeFrom (offset + 2) text).map (denoted :: ·)
      | none => .error (.invalidEscape (String.ofList ['\\', c]) offset)
  | c :: text => (decodeFrom (offset + c.utf8Size) text).map (c :: ·)
termination_by text => text.length
decreasing_by
  · have := (codePoint_rest_suffix text).length_le
    simp only [List.length_cons]
    omega
  · simp only [List.length_cons]
    omega
  · simp

/-- What lies between a quote at each end of a text. -/
def inner? : List Char → Option (List Char)
  | '\'' :: text => if text.getLast? = some '\'' then some text.dropLast else none
  | _ => none

/-- The text that a string literal denotes. -/
def decode (text : String) : Except LiteralError String :=
  match inner? text.toList with
  | none => .error (.unquoted text)
  | some inner => (decodeFrom 1 inner).map String.ofList

end Literal

end GrammarFrontend
