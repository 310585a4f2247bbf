import GrammarFrontend.Lexeme.Probe
import GrammarFrontend.Source.Character

/-! Quotations in embedded code: a text between two equal quotes on one line, in which a backslash
hides the character after it.
-/

namespace GrammarFrontend.Quotation

def isQuote (c : Char) : Bool := c == '"' || c == '\''

/-- What follows the closing quote, given what follows the opening one. There is none if the line or
the input ends first; a backslash hides no line break. -/
def rest? (quote : Char) : List Char → Option (List Char)
  | [] => none
  | '\\' :: [] => none
  | '\\' :: c :: text => if isLineBreak c then none else rest? quote text
  | c :: text =>
      if isLineBreak c then none
      else if c = quote then some text
      else rest? quote text

/-- A quotation takes at least its closing quote. -/
theorem rest?_suffix {quote : Char} {text rest : List Char} (h : rest? quote text = some rest)
    : rest <:+ text.tail := by
  fun_induction rest? quote text with
  | case1 => simp at h
  | case2 => simp at h
  | case3 => simp at h
  | case4 c text hc ih =>
      exact (ih h).trans ((List.tail_suffix text).trans (List.suffix_cons c text))
  | case5 => simp at h
  | case6 => simp_all
  | case7 c text _ _ hc hq ih => exact (ih h).trans (List.tail_suffix text)

/-- The trial of a quotation that begins with the next character. -/
def skip : List Char → Option (Unit × List Char)
  | [] => none
  | quote :: text => (rest? quote text).map ((), ·)

theorem skip_suffix {text rest : List Char} {finding : Unit}
    (h : skip text = some (finding, rest))
    : rest <:+ text.tail := by
  cases text with
  | nil => simp [skip] at h
  | cons quote text =>
      obtain ⟨after, ha, he⟩ := Option.map_eq_some_iff.mp h
      obtain ⟨-, rfl⟩ := Prod.mk.inj he
      exact (rest?_suffix ha).trans (List.tail_suffix text)

end GrammarFrontend.Quotation
