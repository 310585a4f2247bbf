import GrammarFrontend.Proofs.Lexeme.Longest
import GrammarFrontend.Proofs.Scanner.Extents

/-! Longest match. Where no delimiter stands at the cursor, the next step hands out the longest
token ahead, or discards one character as an error.
-/

namespace GrammarFrontend

/-- What opens delimited text, and the byte order mark. -/
def Lexeme.openings : List (List Char) :=
  [['\uFEFF'], ['{'], ['['], ['\''], ['/', '*'], ['/', '/']]

/-- Where nothing opens delimited text, a lexeme is read as one without delimiters. -/
theorem Lexeme.read_of_no_opening {c : Char} {text : List Char}
    (plain : ∀ opening ∈ openings, ¬ opening <+: c :: text) (mode : ScanMode) (naming : Naming)
    (trials : Trials)
    : c ≠ '\uFEFF'
      ∧ read mode naming { rest := c :: text, trials }
        = some (undelimited naming { rest := c :: text, trials } c text) := by
  simp only [openings, List.forall_mem_cons, List.cons_prefix_cons, List.nil_prefix, and_true,
    not_and] at plain
  obtain ⟨hmark, haction, hbracket, hquote, hblock, hline, -⟩ := plain
  refine ⟨Ne.symm hmark, read_of_undelimited ?_ ?_ (Ne.symm haction) (Ne.symm hbracket)
    (Ne.symm hquote)⟩
  · rintro rest rfl rfl
    exact hblock rfl ⟨rest, rfl⟩
  · rintro rest rfl rfl
    exact hline rfl ⟨rest, rfl⟩

namespace Scanner

/-- A character that begins no token is discarded, and comes with its diagnostic. -/
structure Rejects (s : Scanner) (c : Cursor) (character : Char) : Prop where
  ahead : [character] <+: c.rest
  result
    : (s.next c).result
      = .error (c.tokenFor .errorChar [character])
          (unrecognized (c.tokenFor .errorChar [character]))
  cursor : (s.next c).cursor = c.advanceOver [character]

theorem rejects_of_read {s : Scanner} {c : Cursor} {character : Char} {next : Probe}
    (found
      : Lexeme.read s.mode s.naming { rest := c.rest, trials := s.trials }
        = some (.plain .errorChar next))
    (split : c.rest = [character] ++ next.rest)
    : s.Rejects c character := by
  constructor
  case ahead => exact ⟨next.rest, split.symm⟩
  case result =>
    rw [(next_of_read found).1, resultOf, tokenOf_eq (x := .plain .errorChar next) split]
    rfl
  case cursor => exact cursor_of_read found split

/-- Where no delimiter stands at the cursor, the next step hands out the longest token ahead, with
the kind of that token, and it finds a character that begins none only if no token is ahead.
-/
theorem next_longest (s : Scanner) (c : Cursor) (unread : c.rest ≠ [])
    (plain : ∀ opening ∈ Lexeme.openings, ¬ opening <+: c.rest)
    : ((∃ text kind, PlainToken s.naming text kind ∧ text <+: c.rest)
        → ∃ text kind, LongestToken s.naming c.rest text kind ∧ s.Emits c kind text [])
      ∧ (∀ text kind, LongestToken s.naming c.rest text kind → s.Emits c kind text [])
      ∧ ((∀ text kind, PlainToken s.naming text kind → ¬ text <+: c.rest)
        → ∃ character, s.Rejects c character) := by
  obtain ⟨character, rest, hrest⟩ := List.exists_cons_of_ne_nil unread
  rw [hrest] at plain
  obtain ⟨hmark, hread⟩ := Lexeme.read_of_no_opening plain s.mode s.naming s.trials
  rw [← hrest] at hread
  rcases Lexeme.undelimited_longest s.naming (p := { rest := c.rest, trials := s.trials }) hrest
    hmark with ⟨text, kind, next, longest, hplain, split⟩ | ⟨hnone, hplain⟩
  · rw [hplain] at hread
    have hemits : s.Emits c kind text [] := emits_of_plain hread split longest.token.isDiscarded
    refine ⟨fun _ => ⟨text, kind, longest, hemits⟩, ?_, ?_⟩
    · intro other otherKind hother
      obtain ⟨rfl, rfl⟩ := longest.unique hother
      exact hemits
    · intro hnone
      exact absurd longest.ahead (hnone text kind longest.token)
  · rw [hplain] at hread
    refine ⟨?_, ?_, ?_⟩
    · rintro ⟨text, kind, token, ahead⟩
      exact absurd ahead (hnone text kind token)
    · intro text kind longest
      exact absurd longest.ahead (hnone text kind longest.token)
    · intro _
      exact ⟨character, rejects_of_read hread hrest⟩

/-- A plus sign does not stand alone before an equals sign. -/
theorem next_longest_of_plusAssign
    : (create {} uppercaseNaming).Emits (.ofText ['+', '=', 'x']) .plusAssign ['+', '='] [] := by
  refine (next_longest _ (.ofText ['+', '=', 'x']) (by decide) (by decide)).2.1 _ _ ?_
  refine { token := .mark (by decide), ahead := ⟨['x'], rfl⟩, longest := ?_ }
  intro other kind token ahead
  have hmarks
      : ∀ entry ∈ Punctuation.marks, entry.1 <+: ['+', '=', 'x'] → entry.1.length ≤ 2 := by
    decide
  have listed : (other, kind) ∈ Punctuation.marks := token.of_head (token.head_of_prefix ahead)
  exact hmarks _ listed ahead

end Scanner

end GrammarFrontend
