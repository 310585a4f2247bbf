import GrammarFrontend.Token.Kind

/-! Punctuation: the mark at the front of a text, as long as it can be. -/

namespace GrammarFrontend.Punctuation

/-- The kind of the mark that the text begins with, and what follows the mark. -/
def read : List Char → Option (TokenKind × List Char)
  | ':' :: ':' :: text => some (.doubleColon, text)
  | ':' :: text => some (.colon, text)
  | '-' :: '>' :: text => some (.arrow, text)
  | '=' :: '>' :: text => some (.synpred, text)
  | '=' :: text => some (.assign, text)
  | '+' :: '=' :: text => some (.plusAssign, text)
  | '+' :: text => some (.plus, text)
  | '.' :: '.' :: '.' :: text => some (.ellipsis, text)
  | '.' :: '.' :: text => some (.range, text)
  | '.' :: text => some (.dot, text)
  | ',' :: text => some (.comma, text)
  | ';' :: text => some (.semicolon, text)
  | '(' :: text => some (.leftParen, text)
  | ')' :: text => some (.rightParen, text)
  | '<' :: text => some (.less, text)
  | '>' :: text => some (.greater, text)
  | '?' :: text => some (.question, text)
  | '*' :: text => some (.star, text)
  | '|' :: text => some (.bar, text)
  | '$' :: text => some (.dollar, text)
  | '@' :: text => some (.atSign, text)
  | '#' :: text => some (.pound, text)
  | '~' :: text => some (.tilde, text)
  | '}' :: text => some (.rightBrace, text)
  | _ => none

theorem read_suffix {text rest : List Char} {kind : TokenKind}
    (h : read text = some (kind, rest))
    : rest <:+ text.tail := by
  unfold read at h
  split at h <;> simp only [Option.some.injEq, Prod.mk.injEq, reduceCtorEq] at h <;>
    obtain ⟨-, rfl⟩ := h <;>
    first
    | exact List.suffix_refl _
    | exact List.suffix_cons _ _
    | exact List.suffix_append ['.', '.'] _

end GrammarFrontend.Punctuation
