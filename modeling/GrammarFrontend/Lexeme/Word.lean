import GrammarFrontend.Lexeme.Basic
import GrammarFrontend.Source.Character
import GrammarFrontend.Token.Naming

/-! Words: keywords, block openers, and the names of tokens and rules. -/

namespace GrammarFrontend.Word

/-- The trial of the brace that makes a word open a block. -/
def brace (text : List Char) : Option (Unit × List Char) :=
  match text.dropWhile isBlank with
  | '{' :: rest => some ((), rest)
  | _ => none

theorem brace_suffix {text rest : List Char} {finding : Unit}
    (h : brace text = some (finding, rest))
    : rest <:+ text := by
  unfold brace at h
  split at h
  · rename_i after ha
    obtain ⟨-, rfl⟩ := Prod.mk.inj (Option.some.inj h)
    exact (ha ▸ List.suffix_cons _ _ : after <:+ text.dropWhile isBlank).trans
      (List.dropWhile_suffix _)
  · simp at h

/-- The kind of a word that opens no block. -/
def kindOf (naming : Naming) (word : String) : TokenKind :=
  match TokenKind.keywords.lookup word with
  | some kind => kind
  | none => if naming word then .tokenRef else .ruleRef

/-- A word; the probe stands before its first character. -/
def read (naming : Naming) (p : Probe) : Lexeme :=
  let word := String.ofList (p.rest.takeWhile isNameChar)
  let next := p.skipWhile isNameChar
  match TokenKind.blockOpeners.lookup word with
  | none => .plain (kindOf naming word) next
  | some opener =>
      match next.speculate brace with
      | (some _, next) => .plain opener next
      | (none, next) => .plain (kindOf naming word) next

theorem read_suffix (naming : Naming) (p : Probe)
    : (read naming p).rest <:+ p.rest.dropWhile isNameChar := by
  simp only [read]
  split
  · exact List.suffix_refl _
  · have hs := Probe.speculate_suffix (p.skipWhile isNameChar) (fun _ _ h => brace_suffix h)
    split <;>
      · rename_i h
        rw [h] at hs
        exact hs

end GrammarFrontend.Word
