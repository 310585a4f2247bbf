import GrammarFrontend.Lexeme.Read

/-! The kinds of lexemes. The delimited kinds come only from the recognisers of delimited text; all
other lexemes are plain, and no lexeme has the kind of the end of the input.
-/

namespace GrammarFrontend

/-- The kind of what a bracket opens. -/
def ScanMode.bracketKind : ScanMode → TokenKind
  | lexerRule => .charSet
  | parserRule => .argAction

/-- The kinds of lexemes that no delimiter opens. -/
def TokenKind.isUndelimited : TokenKind → Bool
  | docComment | comment | action | sempred | argAction | charSet | stringLiteral | eof => false
  | _ => true

/-- Punctuation is undelimited, by cases on the marks. -/
theorem Punctuation.read_isUndelimited {text rest : List Char} {kind : TokenKind}
    (h : Punctuation.read text = some (kind, rest))
    : kind.isUndelimited = true := by
  unfold Punctuation.read at h
  split at h <;> simp only [Option.some.injEq, Prod.mk.injEq, reduceCtorEq] at h <;>
    obtain ⟨rfl, -⟩ := h <;> rfl

namespace Word

/-- A kind found in a table of words is in the table. -/
theorem mem_of_lookup {table : List (String × TokenKind)} {word : String}
    {kind : TokenKind} (h : table.lookup word = some kind)
    : (word, kind) ∈ table := by
  obtain ⟨before, after, rfl, -⟩ := List.lookup_eq_some_iff.mp h
  simp

/-- Block openers are undelimited, by the table of openers. -/
theorem opener_isUndelimited {word : String} {kind : TokenKind}
    (h : TokenKind.blockOpeners.lookup word = some kind)
    : kind.isUndelimited = true := by
  have hall : ∀ entry ∈ TokenKind.blockOpeners, entry.2.isUndelimited = true := by
    simp [TokenKind.blockOpeners, TokenKind.isUndelimited]
  exact hall _ (mem_of_lookup h)

/-- Keywords and names are undelimited, by the table of keywords. -/
theorem kindOf_isUndelimited (naming : Naming) (word : String)
    : (kindOf naming word).isUndelimited = true := by
  have hall : ∀ entry ∈ TokenKind.keywords, entry.2.isUndelimited = true := by
    simp [TokenKind.keywords, TokenKind.isUndelimited]
  unfold kindOf
  split
  · rename_i kind h
    exact hall _ (mem_of_lookup h)
  · split <;> rfl

/-- A word is plain and undelimited, whether it opens a block or not. -/
theorem read_eq_plain (naming : Naming) (p : Probe)
    : ∃ kind next, kind.isUndelimited = true ∧ read naming p = .plain kind next := by
  simp only [read]
  split
  · exact ⟨_, _, kindOf_isUndelimited _ _, rfl⟩
  · rename_i opener h
    split
    · exact ⟨_, _, opener_isUndelimited h, rfl⟩
    · exact ⟨_, _, kindOf_isUndelimited _ _, rfl⟩

end Word

namespace Lexeme

/-- A lexeme that no delimiter opens is plain and of an undelimited kind. -/
theorem undelimited_eq_plain (naming : Naming) (p : Probe) (c : Char) (text : List Char)
    : ∃ kind next,
        kind.isUndelimited = true ∧ undelimited naming p c text = .plain kind next := by
  unfold undelimited
  split
  · exact ⟨_, _, rfl, rfl⟩
  split
  · exact ⟨_, _, rfl, rfl⟩
  split
  · exact ⟨_, _, rfl, rfl⟩
  split
  · rename_i kind rest h
    exact ⟨_, _, Punctuation.read_isUndelimited h, rfl⟩
  split
  · exact Word.read_eq_plain naming p
  · exact ⟨_, _, rfl, rfl⟩

/-- The recogniser that a lexeme comes from, with what is left to read where it starts. Later proofs
split on this instead of on the characters that open each kind of lexeme.
-/
inductive Recognised (mode : ScanMode) (naming : Naming) (p : Probe) : Lexeme → Prop
  | blockComment {text : List Char} (opens : p.rest = '/' :: '*' :: text)
    : Recognised mode naming p (Comment.block p)
  | lineComment {text : List Char} (opens : p.rest = '/' :: '/' :: text)
    : Recognised mode naming p (Comment.line p)
  | action {text : List Char} (opens : p.rest = '{' :: text)
    : Recognised mode naming p (Nesting.action p)
  | charSet {text : List Char} (opens : p.rest = '[' :: text) (inLexerRule : mode = .lexerRule)
    : Recognised mode naming p (CharSet.read p)
  | argAction {text : List Char} (opens : p.rest = '[' :: text) (inParserRule : mode = .parserRule)
    : Recognised mode naming p (Nesting.argAction p)
  | stringLiteral {text : List Char} (opens : p.rest = '\'' :: text)
    : Recognised mode naming p (StringLiteral.read p)
  | undelimited {c : Char} {text : List Char} (opens : p.rest = c :: text)
    : Recognised mode naming p (undelimited naming p c text)

/-- Every lexeme comes from one of the recognisers, by the cases of `read`. -/
theorem read_recognised {mode : ScanMode} {naming : Naming} {p : Probe} {x : Lexeme}
    (h : read mode naming p = some x)
    : Recognised mode naming p x := by
  unfold read at h
  split at h <;> simp only [Option.some.injEq, reduceCtorEq] at h <;> subst h
  · exact .blockComment ‹_›
  · exact .lineComment ‹_›
  · exact .action ‹_›
  · cases mode with
    | lexerRule => exact .charSet ‹_› rfl
    | parserRule => exact .argAction ‹_› rfl
  · exact .stringLiteral ‹_›
  · exact .undelimited ‹_›

/-- The kind of the end of the input is no lexeme's kind. -/
theorem read_kind_ne_eof {mode : ScanMode} {naming : Naming} {p : Probe} {x : Lexeme}
    (h : read mode naming p = some x)
    : x.kind ≠ .eof := by
  cases read_recognised h with
  | blockComment =>
      simp only [Comment.block, plain, unterminated]
      split <;> split <;> simp
  | lineComment => simp [Comment.line]
  | action =>
      simp only [Nesting.action, plain, unterminated]
      split
      · split <;> simp
      · simp
  | charSet =>
      simp only [CharSet.read, plain, unterminated]
      split <;> simp
  | argAction =>
      simp only [Nesting.argAction, plain, unterminated]
      split <;> simp
  | stringLiteral => simp [StringLiteral.read]
  | @undelimited c text =>
      obtain ⟨kind, next, hk, he⟩ := undelimited_eq_plain naming p c text
      rw [he]
      intro heof
      obtain rfl : kind = .eof := heof
      simp [TokenKind.isUndelimited] at hk

/-- An opening bracket is read in the mode of the scan. -/
theorem read_of_bracket {mode : ScanMode} {naming : Naming} {p : Probe} {text : List Char}
    (opens : p.rest = '[' :: text)
    : read mode naming p = some (bracketed mode p) := by
  simp [read, opens]

/-- What a bracket opens is of the kind that the mode gives to brackets. -/
theorem bracketed_kind (mode : ScanMode) (p : Probe)
    : (bracketed mode p).kind = mode.bracketKind := by
  cases mode with
  | lexerRule =>
      simp only [bracketed, CharSet.read, plain, unterminated, ScanMode.bracketKind]
      split <;> rfl
  | parserRule =>
      simp only [bracketed, Nesting.argAction, plain, unterminated, ScanMode.bracketKind]
      split <;> rfl

/-- Only an opening bracket begins a lexeme of a kind for brackets, by the recogniser that the
lexeme comes from.
-/
theorem read_opens_bracket {mode : ScanMode} {naming : Naming} {p : Probe} {x : Lexeme}
    (h : read mode naming p = some x) (hk : x.kind = .charSet ∨ x.kind = .argAction)
    : p.rest.head? = some '[' := by
  cases read_recognised h with
  | charSet opens | argAction opens => rw [opens, List.head?_cons]
  | blockComment =>
      simp only [Comment.block, plain, unterminated] at hk
      split at hk <;> split at hk <;> simp at hk
  | lineComment => simp [Comment.line] at hk
  | action =>
      simp only [Nesting.action, plain, unterminated] at hk
      split at hk
      · split at hk <;> simp at hk
      · simp at hk
  | stringLiteral => simp [StringLiteral.read] at hk
  | @undelimited c text =>
      obtain ⟨kind, next, hundelimited, he⟩ := undelimited_eq_plain naming p c text
      rw [he] at hk
      rcases hk with hk | hk <;>
        · obtain rfl : kind = _ := hk
          cases hundelimited

end Lexeme

end GrammarFrontend
