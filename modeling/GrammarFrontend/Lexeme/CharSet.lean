import GrammarFrontend.Lexeme.Basic
import GrammarFrontend.Source.Character

/-! Character sets of lexer rules: a text in brackets on one line, in which a backslash hides the
character after it.
-/

namespace GrammarFrontend.CharSet

/-- Whether the closing bracket was found, and what follows it; without one, what is left where the
line or the input ends. -/
def close : List Char → Bool × List Char
  | [] => (false, [])
  | '\\' :: c :: text => if isLineBreak c then (false, c :: text) else close text
  | c :: text =>
      if isLineBreak c then (false, c :: text)
      else if c = ']' then (true, text)
      else close text

theorem close_suffix (text : List Char) : (close text).2 <:+ text := by
  fun_induction close text with
  | case1 => exact List.suffix_refl _
  | case2 c text _ => exact List.suffix_cons _ _
  | case3 c text _ ih => exact ih.trans (List.suffix_append ['\\', c] text)
  | case4 c text _ _ => exact List.suffix_refl _
  | case5 => exact List.suffix_cons _ _
  | case6 c text _ _ _ ih => exact ih.trans (List.suffix_cons _ _)

/-- A character set; the probe stands before the opening bracket. -/
def read (p : Probe) : Lexeme :=
  let (closed, rest) := close (p.rest.drop 1)
  if closed then .plain .charSet (p.moveTo rest)
  else .unterminated .charSet (p.moveTo rest) p.rest .unterminatedCharSet

theorem read_suffix (p : Probe) : (read p).rest <:+ p.rest.drop 1 := by
  have hs := close_suffix (p.rest.drop 1)
  simp only [read]
  split <;> exact hs

end GrammarFrontend.CharSet
