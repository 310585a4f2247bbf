import GrammarFrontend.Proofs.Literal.Spelling
import GrammarFrontend.Proofs.Scanner.Reports

/-! Decoding a string literal agrees with scanning it. A literal denotes a text exactly if the
scanner reports nothing for it and its escapes by code point all name characters.
-/

namespace GrammarFrontend

-----------------------------------------------------------------------------------------
-- The text of a literal
-----------------------------------------------------------------------------------------

namespace Literal

/-- Only a text with a quote at each end has anything between them. -/
theorem inner?_eq_some {text inner : List Char}
    : inner? text = some inner ↔ text = '\'' :: (inner ++ ['\'']) := by
  constructor
  · intro h
    unfold inner? at h
    split at h
    · rename_i text
      split at h
      · rename_i hlast
        obtain ⟨before, rfl⟩ := List.getLast?_eq_some_iff.mp hlast
        rw [List.dropLast_concat] at h
        obtain rfl := Option.some.inj h
        rfl
      · cases h
    · cases h
  · rintro rfl
    simp [inner?]

/-- The escapes between two quotes are those of the whole text. -/
theorem unicodeEscapes_quoted {body : List Char} {values : List Nat} (h : Spells body values)
    : unicodeEscapes ('\'' :: (body ++ ['\''])) = values := by
  have hquote (rest : List Char) : unicodeEscapes ('\'' :: rest) = unicodeEscapes rest := by
    rw [unicodeEscapes] <;> simp
  rw [hquote, unicodeEscapes_of_spells h, hquote]
  simp [unicodeEscapes]

/-- A literal between quotes decodes if its body is spelled well and the values of its escapes are
those of characters; otherwise one of these values is to blame.
-/
theorem decode_of_spells {text : String} {body : List Char} {values : List Nat}
    (htext : text.toList = '\'' :: (body ++ ['\''])) (h : Spells body values)
    : (∃ v ∈ values, ¬ v.isValidChar ∧ decode text = .error (.invalidCodePoint v))
      ∨ (∀ v ∈ values, v.isValidChar) ∧ ∃ denoted, decode text = .ok denoted := by
  rw [decode, inner?_eq_some.mpr htext]
  rcases decodeFrom_of_spells h 1 with ⟨v, hv, invalid, he⟩ | ⟨valid, chars, he⟩
  · exact .inl ⟨v, hv, invalid, by simp only [he]; rfl⟩
  · exact .inr ⟨valid, String.ofList chars, by simp only [he]; rfl⟩

/-- A literal that decodes is a body that is spelled well between quotes. -/
theorem spells_of_decode {text denoted : String} (h : decode text = .ok denoted)
    : ∃ body values, text.toList = '\'' :: (body ++ ['\'']) ∧ Spells body values := by
  unfold decode at h
  split at h
  · cases h
  · rename_i body hbody
    have hchars : ∃ chars, decodeFrom 1 body = .ok chars := by
      cases he : decodeFrom 1 body with
      | ok chars => exact ⟨chars, rfl⟩
      | error e =>
          rw [he] at h
          cases h
    obtain ⟨chars, hchars⟩ := hchars
    obtain ⟨values, spells⟩ := spells_of_decodeFrom hchars
    exact ⟨body, values, inner?_eq_some.mp hbody, spells⟩

end Literal

-----------------------------------------------------------------------------------------
-- The item of a literal
-----------------------------------------------------------------------------------------

/-- A string literal decodes as its reports say: to a text exactly if nothing is reported for it and
all its escapes by code point name characters, and otherwise, where nothing is reported, with the
value of an escape that names none.
-/
structure Token.DecodesAs (t : Token) (reports : List Diagnostic) : Prop where
  denotes
    : (∃ denoted, Literal.decode t.text = .ok denoted)
      ↔ reports = [] ∧ ∀ v ∈ Literal.unicodeEscapes t.text.toList, v.isValidChar
  silent
    : reports = []
      → (∃ denoted, Literal.decode t.text = .ok denoted)
        ∨ ∃ v, Literal.decode t.text = .error (.invalidCodePoint v)

/-- Only a quote begins a string literal, by the recogniser that the lexeme comes from. -/
theorem Lexeme.read_opens_quote {mode : ScanMode} {naming : Naming} {p : Probe} {x : Lexeme}
    (h : read mode naming p = some x) (hk : x.kind = .stringLiteral)
    : x = StringLiteral.read p ∧ ∃ text, p.rest = '\'' :: text := by
  cases read_recognised h with
  | stringLiteral opens => exact ⟨rfl, _, opens⟩
  | blockComment =>
      simp only [Comment.block, plain, unterminated] at hk
      split at hk <;> split at hk <;> simp at hk
  | lineComment => simp [Comment.line] at hk
  | action =>
      simp only [Nesting.action, plain, unterminated] at hk
      split at hk
      · split at hk <;> simp at hk
      · simp at hk
  | charSet =>
      simp only [CharSet.read, plain, unterminated] at hk
      split at hk <;> simp at hk
  | argAction =>
      simp only [Nesting.argAction, plain, unterminated] at hk
      split at hk <;> simp at hk
  | @undelimited c text =>
      obtain ⟨kind, next, hundelimited, he⟩ := undelimited_eq_plain naming p c text
      rw [he] at hk
      obtain rfl : kind = .stringLiteral := hk
      cases hundelimited

namespace Lexer

/-- What the text of a literal's item is made of, and what its step reports: the faults of its
escapes, and then that it is not closed if it is not.
-/
theorem Step.literal_read {s : Step} (found : s.lexer.lexeme? = some s.lexeme)
    (hk : s.item.kind = .stringLiteral)
    : ∃ consumed text,
        s.lexer.cursor.rest = '\'' :: text
        ∧ s.item.text.toList = '\'' :: consumed
        ∧ consumed ++ (StringLiteral.close text).rest = text
        ∧ s.reports
          = ((StringLiteral.close text).faults
            ++ if (StringLiteral.close text).closed then []
              else [
                ({
                  kind := .unterminatedStringLiteral
                  start := '\'' :: text
                  stop := (StringLiteral.close text).rest
                } : Fault)
              ]).map (Scanner.diagnosticOf s.lexer.cursor) := by
  obtain ⟨hlexeme, text, opens⟩ := Lexeme.read_opens_quote found hk
  have opens : s.lexer.cursor.rest = '\'' :: text := opens
  have hread
      : s.lexeme
        = StringLiteral.read { rest := '\'' :: text, trials := s.lexer.scanner.trials } := by
    rw [hlexeme, opens]
  have happ := s.item_text_append found
  have hrest : s.lexeme.rest = (StringLiteral.close text).rest := by
    rw [hread]
    rfl
  have hne : s.lexeme.kind ≠ .errorChar := by simp [hread, StringLiteral.read]
  cases htext : s.item.text.toList with
  | nil => exact absurd htext (s.item_text_ne_nil found)
  | cons c consumed =>
      rw [htext, opens, hrest, List.cons_append, List.cons.injEq] at happ
      obtain ⟨rfl, happ⟩ := happ
      refine ⟨consumed, text, opens, rfl, happ, ?_⟩
      rw [Step.reports, if_neg hne, List.append_nil, hread]
      rfl

/-- What the text of a literal's item is made of, and when its step reports nothing: exactly if the
literal is closed without faults.
-/
theorem Step.literal_close {s : Step} (found : s.lexer.lexeme? = some s.lexeme)
    (hk : s.item.kind = .stringLiteral)
    : ∃ consumed text,
        s.item.text.toList = '\'' :: consumed
        ∧ consumed ++ (StringLiteral.close text).rest = text
        ∧ (s.reports = []
          ↔ (StringLiteral.close text).closed = true ∧ (StringLiteral.close text).faults = []) := by
  obtain ⟨consumed, text, -, htext, happ, hreports⟩ := s.literal_read found hk
  refine ⟨consumed, text, htext, happ, ?_⟩
  rw [hreports, List.map_eq_nil_iff]
  simp only [List.append_eq_nil_iff, ite_eq_left_iff, reduceCtorEq, imp_false, Bool.not_eq_true,
    Bool.not_eq_false]
  exact and_comm

/-- Where nothing is reported for a literal, what stands between its quotes is spelled well. -/
theorem Step.spells_of_silent {s : Step} (found : s.lexer.lexeme? = some s.lexeme)
    (hk : s.item.kind = .stringLiteral) (h : s.reports = [])
    : ∃ body values,
        s.item.text.toList = '\'' :: (body ++ ['\'']) ∧ Literal.Spells body values := by
  obtain ⟨consumed, text, htext, happ, hreports⟩ := s.literal_close found hk
  obtain ⟨closed, faultless⟩ := hreports.mp h
  obtain ⟨body, values, spells, hbody⟩ := Literal.spells_of_close closed faultless
  refine ⟨body, values, ?_, spells⟩
  have hsame
      : consumed ++ (StringLiteral.close text).rest
        = (body ++ ['\'']) ++ (StringLiteral.close text).rest := by
    rw [happ, List.append_assoc]
    exact hbody
  rw [htext, List.append_cancel_right hsame]

/-- Nothing is reported for a literal if what stands between its quotes is spelled well. -/
theorem Step.silent_of_spells {s : Step} (found : s.lexer.lexeme? = some s.lexeme)
    (hk : s.item.kind = .stringLiteral) {body : List Char} {values : List Nat}
    (hquoted : s.item.text.toList = '\'' :: (body ++ ['\''])) (spells : Literal.Spells body values)
    : s.reports = [] := by
  obtain ⟨consumed, text, htext, happ, hreports⟩ := s.literal_close found hk
  have hbody : text = body ++ '\'' :: (StringLiteral.close text).rest := by
    rw [htext, List.cons.injEq] at hquoted
    calc text
      _ = consumed ++ (StringLiteral.close text).rest := happ.symm
      _ = body ++ '\'' :: (StringLiteral.close text).rest := by simp [hquoted.2]
  have hclose := Literal.close_of_spells spells (StringLiteral.close text).rest
  rw [← hbody] at hclose
  rw [hreports, hclose rfl]
  exact ⟨rfl, rfl⟩

/-- A string literal decodes as the reports of its step say. Both sides are settled by the spelling
of what stands between the quotes.
-/
theorem Step.decodesAs {s : Step} (found : s.lexer.lexeme? = some s.lexeme)
    (hk : s.item.kind = .stringLiteral)
    : s.item.DecodesAs s.reports := by
  constructor
  case denotes =>
    constructor
    · rintro ⟨denoted, h⟩
      obtain ⟨body, values, hquoted, spells⟩ := Literal.spells_of_decode h
      refine ⟨s.silent_of_spells found hk hquoted spells, ?_⟩
      rw [hquoted, Literal.unicodeEscapes_quoted spells]
      rcases Literal.decode_of_spells hquoted spells with ⟨v, -, -, he⟩ | ⟨valid, -⟩
      · rw [h] at he
        cases he
      · exact valid
    · rintro ⟨h, valid⟩
      obtain ⟨body, values, hquoted, spells⟩ := s.spells_of_silent found hk h
      rw [hquoted, Literal.unicodeEscapes_quoted spells] at valid
      rcases Literal.decode_of_spells hquoted spells with ⟨v, hv, invalid, -⟩ | ⟨-, denotes⟩
      · exact absurd (valid v hv) invalid
      · exact denotes
  case silent =>
    intro h
    obtain ⟨body, values, hquoted, spells⟩ := s.spells_of_silent found hk h
    rcases Literal.decode_of_spells hquoted spells with ⟨v, -, -, he⟩ | ⟨-, denotes⟩
    · exact .inr ⟨v, he⟩
    · exact .inl denotes

-----------------------------------------------------------------------------------------
-- Runs
-----------------------------------------------------------------------------------------

/-- The string literals among the steps of a run decode as they are reported, by induction on the
run.
-/
theorem Scans.decodesAs {first last : Lexer} {steps : List Step} (run : Scans first steps last)
    : ∀ s ∈ steps, s.item.kind = .stringLiteral → s.item.DecodesAs s.reports := by
  induction run with
  | refl l => simp
  | step found _ ih =>
      intro s hs
      rcases List.mem_cons.mp hs with rfl | hs
      · exact s.decodesAs found
      · exact ih s hs
  | setMode _ _ ih => exact ih

/-- The steps account for a lexer's tokens and diagnostics, and the string literals among their
items decode as their own reports say.
-/
structure LiteralsDecode (l : Lexer) (steps : List Step) : Prop where
  tokens : l.tokens = (steps.map (·.item)).filter (!·.kind.isDiscarded)
  diagnostics : l.diagnostics = (steps.map (·.reports)).flatten
  decodes : ∀ s ∈ steps, s.item.kind = .stringLiteral → s.item.DecodesAs s.reports

/-- The steps of a run from the start of a source account for its literals. -/
theorem Scans.literalsDecode {source : List Char} {config : ScannerConfig} {naming : Naming}
    {l : Lexer} {steps : List Step} (run : Scans (create source config naming) steps l)
    : l.LiteralsDecode steps := by
  have stands : (create source config naming).cursor.StandsIn source [] := ⟨rfl, rfl⟩
  exact {
    tokens := run.tokens
    diagnostics := (run.explained rfl stands).1
    decodes := run.decodesAs
  }

/-- However tokens are pulled and the mode is changed, and whether or not the rest is then scanned,
every string literal that a lexer finds decodes as its own reports say.
-/
theorem literals_decode_as_scanned (source : List Char) (config : ScannerConfig)
    (naming : Naming) (requests : List Request)
    : let start := create source config naming
      let served := start.serveAll requests
      (∃ steps, Scans start steps served ∧ served.LiteralsDecode steps)
      ∧ ∃ steps, Scans start steps served.drain ∧ served.drain.LiteralsDecode steps := by
  obtain ⟨steps, run⟩ := serveAll_scans (create source config naming) requests
  obtain ⟨more, rest, -⟩ := serveAll_drain_scans (create source config naming) requests
  exact ⟨⟨steps, run, run.literalsDecode⟩, more, rest, rest.literalsDecode⟩

end Lexer

end GrammarFrontend
