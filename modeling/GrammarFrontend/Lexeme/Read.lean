import GrammarFrontend.Lexeme.CharSet
import GrammarFrontend.Lexeme.Comment
import GrammarFrontend.Lexeme.Nesting
import GrammarFrontend.Lexeme.Punctuation
import GrammarFrontend.Lexeme.StringLiteral
import GrammarFrontend.Lexeme.Word
import GrammarFrontend.Source.Character
import GrammarFrontend.Token.Mode

/-! The lexeme at the front of the unread input. Every input that is not empty begins with one, and
it takes at least one character; the scan mode matters only where a bracket stands.
-/

namespace GrammarFrontend.Lexeme

/-- A lexeme that no delimiter opens: a mark, blank text, digits, punctuation or a word. A character
that begins none of them is a lexeme of its own. -/
def undelimited (naming : Naming) (p : Probe) (c : Char) (text : List Char) : Lexeme :=
  if c = '\uFEFF' then .plain .byteOrderMark (p.moveTo text)
  else if isBlank c then .plain .blank (p.skipWhile isBlank)
  else if c.isDigit then .plain .int (p.skipWhile Char.isDigit)
  else
    match Punctuation.read p.rest with
    | some (kind, rest) => .plain kind (p.moveTo rest)
    | none =>
        if isNameStart c then Word.read naming p
        else .plain .errorChar (p.moveTo text)

/-- A bracket opens a character set in a lexer rule and an argument action elsewhere. -/
def bracketed (mode : ScanMode) (p : Probe) : Lexeme :=
  match mode with
  | .lexerRule => CharSet.read p
  | .parserRule => Nesting.argAction p

def read (mode : ScanMode) (naming : Naming) (p : Probe) : Option Lexeme :=
  match p.rest with
  | [] => none
  | '/' :: '*' :: _ => some (Comment.block p)
  | '/' :: '/' :: _ => some (Comment.line p)
  | '{' :: _ => some (Nesting.action p)
  | '[' :: _ => some (bracketed mode p)
  | '\'' :: _ => some (StringLiteral.read p)
  | c :: text => some (undelimited naming p c text)

theorem dropWhile_cons_suffix {f : Char → Bool} {c : Char} (text : List Char) (h : f c)
    : (c :: text).dropWhile f <:+ text := by
  simpa [List.dropWhile, h] using List.dropWhile_suffix f

theorem undelimited_suffix (naming : Naming) (trials : Trials) (c : Char) (text : List Char)
    : (undelimited naming { rest := c :: text, trials } c text).rest <:+ text := by
  unfold undelimited
  split
  · exact List.suffix_refl _
  split
  · rename_i hb
    exact dropWhile_cons_suffix text hb
  split
  · rename_i hd
    exact dropWhile_cons_suffix text hd
  split
  · rename_i kind rest h
    exact Punctuation.read_suffix h
  split
  · rename_i hn
    exact (Word.read_suffix _ _).trans
      (dropWhile_cons_suffix text (by simp [isNameChar, hn]))
  · exact List.suffix_refl _

/-- A lexeme takes at least the first character of what is unread. -/
theorem read_suffix {mode : ScanMode} {naming : Naming} {p : Probe} {l : Lexeme}
    (h : read mode naming p = some l)
    : l.rest <:+ p.rest.tail := by
  obtain ⟨rest, trials⟩ := p
  unfold read at h
  split at h
  · simp at h
  · obtain rfl := Option.some.inj h
    rename_i text hr
    obtain rfl : rest = '/' :: '*' :: text := hr
    exact (Comment.block_suffix _).trans (List.suffix_cons _ _)
  · obtain rfl := Option.some.inj h
    rename_i text hr
    obtain rfl : rest = '/' :: '/' :: text := hr
    exact (Comment.line_suffix _).trans (List.suffix_cons _ _)
  · obtain rfl := Option.some.inj h
    simpa using Nesting.action_suffix _
  · obtain rfl := Option.some.inj h
    cases mode with
    | lexerRule => simpa [bracketed] using CharSet.read_suffix _
    | parserRule => simpa [bracketed] using Nesting.argAction_suffix _
  · obtain rfl := Option.some.inj h
    simpa using StringLiteral.read_suffix _
  · obtain rfl := Option.some.inj h
    rename_i c text _ _ _ _ _ hr
    obtain rfl : rest = c :: text := hr
    exact undelimited_suffix _ _ _ _

/-- What a lexeme leaves is what is left at some place of the unread input. -/
theorem read_rest_suffix {mode : ScanMode} {naming : Naming} {p : Probe} {l : Lexeme}
    (h : read mode naming p = some l)
    : l.rest <:+ p.rest :=
  (read_suffix h).trans (List.tail_suffix _)

theorem read_eq_none_iff {mode : ScanMode} {naming : Naming} {p : Probe}
    : read mode naming p = none ↔ p.rest = [] := by
  unfold read
  split <;> simp_all

theorem read_length_lt {mode : ScanMode} {naming : Naming} {p : Probe} {l : Lexeme}
    (h : read mode naming p = some l)
    : l.rest.length < p.rest.length := by
  have hs := (read_suffix h).length_le
  cases hr : p.rest with
  | nil => simp [read_eq_none_iff.mpr hr] at h
  | cons c text =>
      rw [hr] at hs
      exact Nat.lt_succ_of_le hs

end GrammarFrontend.Lexeme
