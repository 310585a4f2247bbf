import GrammarFrontend.Lexeme.Basic
import GrammarFrontend.Source.Character

/-! String literals: a text in single quotes on one line. An escape that is none of the known ones
is a fault but does not end the literal.
-/

namespace GrammarFrontend.StringLiteral

/-- The characters that a backslash may stand before on their own. -/
def isSimpleEscape (c : Char) : Bool :=
  c == 'b' || c == 't' || c == 'n' || c == 'f' || c == 'r' || c == '\'' || c == '\\'

/-- Hexadecimal digits in braces: whether there are one to six of them and a closing brace, and
what follows. -/
def bracedDigits (text : List Char) : Bool × List Char :=
  let count := (text.takeWhile isHexDigit).length
  match text.dropWhile isHexDigit with
  | '}' :: rest => (1 ≤ count && count ≤ 6, rest)
  | rest => (false, rest)

/-- Up to four hexadecimal digits: whether there are four of them, and what follows. -/
def fourDigits (text : List Char) : Bool × List Char :=
  let digits := (text.take 4).takeWhile isHexDigit
  (digits.length == 4, text.drop digits.length)

/-- Whether the text after a backslash begins with a known escape, and what follows it. A wrong
escape takes the character after the backslash, or the digits that could be read; a line break is
never part of it. -/
def escape : List Char → Bool × List Char
  | [] => (false, [])
  | 'u' :: '{' :: text => bracedDigits text
  | 'u' :: text => fourDigits text
  | c :: text =>
      if isSimpleEscape c then (true, text)
      else if isLineBreak c then (false, c :: text)
      else (false, text)

theorem bracedDigits_suffix (text : List Char) : (bracedDigits text).2 <:+ text := by
  have hs := List.dropWhile_suffix (l := text) isHexDigit
  simp only [bracedDigits]
  split
  · rename_i rest h
    rw [h] at hs
    exact (List.suffix_cons _ _).trans hs
  · exact hs

theorem fourDigits_suffix (text : List Char) : (fourDigits text).2 <:+ text :=
  List.drop_suffix _ _

theorem escape_suffix (text : List Char) : (escape text).2 <:+ text := by
  unfold escape
  split
  · exact List.suffix_refl _
  · exact (bracedDigits_suffix _).trans (List.suffix_append ['u', '{'] _)
  · exact (fourDigits_suffix _).trans (List.suffix_cons _ _)
  · split
    · exact List.suffix_cons _ _
    · split
      · exact List.suffix_refl _
      · exact List.suffix_cons _ _

/-- How the reading of a literal ends. -/
structure Ending where
  closed : Bool
  rest : List Char
  faults : List Fault
deriving DecidableEq, Repr

def Ending.withFault (e : Ending) (fault : Fault) : Ending :=
  { e with faults := fault :: e.faults }

/-- Reads a literal after its opening quote, up to the closing one or to where the line or the input
ends. -/
def close : List Char → Ending
  | [] => { closed := false, rest := [], faults := [] }
  | '\\' :: text =>
      let found := escape text
      if found.1 then close found.2
      else (close found.2).withFault
        { kind := .invalidEscapeSequence, start := '\\' :: text, stop := found.2 }
  | c :: text =>
      if isLineBreak c then { closed := false, rest := c :: text, faults := [] }
      else if c = '\'' then { closed := true, rest := text, faults := [] }
      else close text
termination_by text => text.length
decreasing_by
  · have := (escape_suffix text).length_le
    simp only [List.length_cons]
    omega
  · have := (escape_suffix text).length_le
    simp only [List.length_cons]
    omega
  · simp

theorem close_suffix (text : List Char) : (close text).rest <:+ text := by
  fun_induction close text with
  | case1 => exact List.suffix_refl _
  | case2 text found _ ih => exact ih.trans ((escape_suffix text).trans (List.suffix_cons _ _))
  | case3 text found _ ih => exact ih.trans ((escape_suffix text).trans (List.suffix_cons _ _))
  | case4 c text _ _ => exact List.suffix_refl _
  | case5 => exact List.suffix_cons _ _
  | case6 c text _ _ _ ih => exact ih.trans (List.suffix_cons _ _)

/-- A string literal; the probe stands before the opening quote. The faults of its escapes come
before the one of the literal itself. -/
def read (p : Probe) : Lexeme :=
  let ending := close (p.rest.drop 1)
  let cut : List Fault :=
    if ending.closed then []
    else [{ kind := .unterminatedStringLiteral, start := p.rest, stop := ending.rest }]
  {
    kind := .stringLiteral
    next := p.moveTo ending.rest
    faults := ending.faults ++ cut
    origin := none
  }

theorem read_suffix (p : Probe) : (read p).rest <:+ p.rest.drop 1 := close_suffix _

end GrammarFrontend.StringLiteral
