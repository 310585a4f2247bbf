import GrammarFrontend.Proofs.Lexeme.Balance
import GrammarFrontend.Proofs.Lexeme.Escapes
import GrammarFrontend.Proofs.Scanner.Rescan

/-! How far delimited text reaches. From the remaining input alone it is settled which token an
opening brace, bracket or quote begins, where that token ends and what is reported for it; of the
scanner's state only the mode matters, and that only for brackets.
-/

namespace GrammarFrontend

/-- A text at the cursor as a token. -/
def Cursor.tokenFor (c : Cursor) (kind : TokenKind) (text : List Char) : Token :=
  {
    kind
    channel := kind.channel
    text := String.ofList text
    span := { start := c.position, stop := c.position.advanceOver text }
  }

namespace Scanner

/-- The next step hands out the text at the cursor as a token and moves behind it. It reports the
diagnostics in their order, or none while a trial is running, and all trials that it makes end.
-/
structure Emits (s : Scanner) (c : Cursor) (kind : TokenKind) (text : List Char)
    (reports : List Diagnostic)
    : Prop where
  ahead : text <+: c.rest
  result : (s.next c).result = .token (c.tokenFor kind text)
  cursor : (s.next c).cursor = c.advanceOver text
  reported
    : (s.next c).scanner.reported
      = (if s.trials.depth = 0 then reports.reverse else []) ++ s.reported
  trials : (s.next c).scanner.trials.depth = s.trials.depth

-----------------------------------------------------------------------------------------
-- From lexemes to tokens
-----------------------------------------------------------------------------------------

section FromLexeme

variable {s : Scanner} {c : Cursor} {text : List Char}

theorem tokenOf_eq {x : Lexeme} (split : c.rest = text ++ x.rest)
    : tokenOf c x = c.tokenFor x.kind text := by
  have htext : textBefore c.rest x.rest = text := by rw [split, textBefore_append]
  rw [tokenOf, htext]
  rfl

/-- A fault of the whole lexeme is one of the text that it takes. -/
theorem diagnosticOf_eq_fault {x : Lexeme} (split : c.rest = text ++ x.rest)
    (kind : DiagnosticKind)
    : diagnosticOf c { kind, start := c.rest, stop := x.rest }
      = (c.tokenFor x.kind text).fault kind := by
  rw [diagnosticOf_whole, tokenOf_eq split]

/-- The cursor moves behind the text of a lexeme, whatever is done with it. -/
theorem cursor_of_read {x : Lexeme}
    (found : Lexeme.read s.mode s.naming { rest := c.rest, trials := s.trials } = some x)
    (split : c.rest = text ++ x.rest)
    : (s.next c).cursor = c.advanceOver text := by
  have hcursor
      : (s.next c).cursor = { c with rest := x.rest, position := (tokenOf c x).span.stop } := by
    simp only [next, found]
    split <;> rfl
  rw [hcursor, tokenOf_eq split, Cursor.advanceOver, split, List.drop_left]
  rfl

/-- A lexeme that is no discarded item is handed out, and its faults are reported. -/
theorem emits_of_read {x : Lexeme}
    (found : Lexeme.read s.mode s.naming { rest := c.rest, trials := s.trials } = some x)
    (split : c.rest = text ++ x.rest) (kept : x.kind.isDiscarded = false)
    : s.Emits c x.kind text (x.faults.map (diagnosticOf c)) := by
  have htoken := tokenOf_eq split
  have hdepth : x.next.trials.depth = s.trials.depth := Lexeme.read_depth found
  obtain ⟨hresult, -, hreported, -⟩ := next_of_read found
  constructor
  case ahead => exact ⟨x.rest, split.symm⟩
  case result =>
    rw [hresult, ← htoken, resultOf]
    split <;> simp_all [TokenKind.isDiscarded]
  case cursor => exact cursor_of_read found split
  case reported => rw [hreported, absorb_eq, hdepth]
  case trials =>
    simp only [next, found, absorb_eq]
    split <;> exact hdepth

theorem emits_of_plain {kind : TokenKind} {next : Probe}
    (found
      : Lexeme.read s.mode s.naming { rest := c.rest, trials := s.trials }
        = some (.plain kind next))
    (split : c.rest = text ++ next.rest) (kept : kind.isDiscarded = false)
    : s.Emits c kind text [] :=
  emits_of_read found split kept

/-- A lexeme that is cut short is reported as a whole. -/
theorem emits_of_unterminated {kind : TokenKind} {next : Probe} {fault : DiagnosticKind}
    (found
      : Lexeme.read s.mode s.naming { rest := c.rest, trials := s.trials }
        = some (.unterminated kind next c.rest fault))
    (split : c.rest = text ++ next.rest) (kept : kind.isDiscarded = false)
    : s.Emits c kind text [(c.tokenFor kind text).fault fault] := by
  have hemits := emits_of_read found split kept
  rw [Lexeme.unterminated, List.map_singleton] at hemits
  exact diagnosticOf_eq_fault (x := .unterminated kind next c.rest fault) split fault ▸ hemits

end FromLexeme

-----------------------------------------------------------------------------------------
-- Actions
-----------------------------------------------------------------------------------------

/-- Behind an opening brace a token reaches to the first brace that closes it, as an action, or to
the question mark behind that brace, as a predicate. Braces in escapes, quotations and comments do
not count. Without such a brace the token is an action that takes all that is left, and it is
reported.
-/
theorem next_action (s : Scanner) (c : Cursor) {text : List Char} (opens : c.rest = '{' :: text)
    : (∀ pieces rest,
        Nesting.Closing true '{' '}' pieces rest
        → c.rest = pieces.flatten ++ rest
        → if rest.head? = some '?' then s.Emits c .sempred (pieces.flatten ++ ['?']) []
          else s.Emits c .action pieces.flatten [])
      ∧ (Nesting.Endless true '{' '}' c.rest
        → s.Emits c .action c.rest [(c.tokenFor .action c.rest).fault .unterminatedAction]) := by
  let p : Probe := { rest := c.rest, trials := s.trials }
  have found : Lexeme.read s.mode s.naming p = some (Nesting.action p) := by
    simp only [p, Lexeme.read, opens]
  obtain ⟨closed, unfinished⟩ := Nesting.closeBrace_decided (p := p) opens
  constructor
  · intro pieces rest closes split
    obtain ⟨next, hclose, hrest⟩ := closed pieces rest closes split
    rw [Nesting.action_of_closed hclose, hrest] at found
    split
    · rename_i hhead
      rw [if_pos hhead] at found
      obtain ⟨after, rfl⟩ := List.head?_eq_some_iff.mp hhead
      refine emits_of_plain found ?_ rfl
      rw [split, Probe.skip_one_of_cons hrest, List.append_assoc]
      rfl
    · rename_i hhead
      rw [if_neg hhead] at found
      exact emits_of_plain found (by rw [split, hrest]) rfl
  · intro endless
    obtain ⟨next, hclose, hrest⟩ := unfinished endless
    rw [Nesting.action, hclose] at found
    exact emits_of_unterminated found (by rw [hrest, List.append_nil]) rfl

/-- A brace in quotes does not close a predicate. -/
theorem next_action_of_quoted_brace
    : (create {} uppercaseNaming).Emits (.ofText ['{', '\'', '}', '\'', '}', '?']) .sempred
        ['{', '\'', '}', '\'', '}', '?'] [] := by
  have quoted : Enclosed '\'' ['}'] :=
    (Enclosed.cons_iff (by decide) []).mpr ⟨rfl, by decide, .nil⟩
  have closes : Nesting.Closing true '{' '}' [['{'], ['\'', '}', '\''], ['}']] ['?'] := by
    refine Nesting.Levels.closing_of_closed ?_ (by decide) Nesting.item_brace
    exact .item (.quotation rfl quoted _) (by decide) (by decide) .closed
  exact (next_action _ _ rfl).1 _ _ closes rfl

-----------------------------------------------------------------------------------------
-- Brackets
-----------------------------------------------------------------------------------------

section Brackets

variable {s : Scanner} {c : Cursor} {text : List Char}

/-- In a parser rule a bracket opens code that nests. -/
theorem next_argAction (opens : c.rest = '[' :: text) (hmode : s.mode = .parserRule)
    : (∀ pieces rest,
        Nesting.Closing false '[' ']' pieces rest
        → c.rest = pieces.flatten ++ rest
        → s.Emits c .argAction pieces.flatten [])
      ∧ (Nesting.Endless false '[' ']' c.rest
        → s.Emits c .argAction c.rest
            [(c.tokenFor .argAction c.rest).fault .unterminatedArgAction]) := by
  let p : Probe := { rest := c.rest, trials := s.trials }
  have found : Lexeme.read s.mode s.naming p = some (Nesting.argAction p) := by
    simp only [p, Lexeme.read, opens, hmode, Lexeme.bracketed]
  obtain ⟨closed, unfinished⟩ := Nesting.closeBracket_decided (p := p) opens
  constructor
  · intro pieces rest closes split
    obtain ⟨next, hclose, hrest⟩ := closed pieces rest closes split
    rw [Nesting.argAction, hclose] at found
    exact emits_of_plain found (by rw [split, hrest]) rfl
  · intro endless
    obtain ⟨next, hclose, hrest⟩ := unfinished endless
    rw [Nesting.argAction, hclose] at found
    exact emits_of_unterminated found (by rw [hrest, List.append_nil]) rfl

/-- In a lexer rule a bracket opens a set on one line. -/
theorem next_charSet (opens : c.rest = '[' :: text) (hmode : s.mode = .lexerRule)
    : (∀ body rest,
        Enclosed ']' body
        → text = body ++ ']' :: rest
        → s.Emits c .charSet ('[' :: (body ++ [']'])) [])
      ∧ (Unclosed ']' text
        → s.Emits c .charSet ('[' :: firstLine text)
            [(c.tokenFor .charSet ('[' :: firstLine text)).fault .unterminatedCharSet]) := by
  let p : Probe := { rest := c.rest, trials := s.trials }
  have found : Lexeme.read s.mode s.naming p = some (CharSet.read p) := by
    simp only [p, Lexeme.read, opens, hmode, Lexeme.bracketed]
  have hclose : CharSet.close (p.rest.drop 1) = lineClose ']' text := by
    have hrest : p.rest = '[' :: text := opens
    rw [CharSet.close_eq, hrest]
    rfl
  constructor
  · intro body rest enclosed split
    rw [lineClose_of_closedBefore (by decide) (by decide) ⟨body, enclosed, split⟩] at hclose
    rw [CharSet.read_of_close hclose] at found
    refine emits_of_plain found ?_ rfl
    rw [opens, split]
    simp [Probe.moveTo]
  · intro unclosed
    rw [lineClose_of_unclosed (by decide) (by decide) unclosed] at hclose
    rw [CharSet.read_of_close hclose] at found
    refine emits_of_unterminated found ?_ rfl
    rw [opens]
    exact congrArg ('[' :: ·) (firstLine_append text).symm

end Brackets

/-- What an opening bracket begins depends on the mode. In a parser rule it is an argument action up
to the first bracket that closes it; brackets in escapes and quotations do not count. In a lexer
rule it is a character set up to the first closing bracket on the line that no backslash hides. An
argument action that is not closed takes all that is left and a character set the rest of its line,
and each is reported.
-/
theorem next_bracket (s : Scanner) (c : Cursor) {text : List Char} (opens : c.rest = '[' :: text)
    : (s.mode = .parserRule
        → (∀ pieces rest,
            Nesting.Closing false '[' ']' pieces rest
            → c.rest = pieces.flatten ++ rest
            → s.Emits c .argAction pieces.flatten [])
          ∧ (Nesting.Endless false '[' ']' c.rest
            → s.Emits c .argAction c.rest
                [(c.tokenFor .argAction c.rest).fault .unterminatedArgAction]))
      ∧ (s.mode = .lexerRule
        → (∀ body rest,
            Enclosed ']' body
            → text = body ++ ']' :: rest
            → s.Emits c .charSet ('[' :: (body ++ [']'])) [])
          ∧ (Unclosed ']' text
            → s.Emits c .charSet ('[' :: firstLine text)
                [(c.tokenFor .charSet ('[' :: firstLine text)).fault .unterminatedCharSet])) :=
  ⟨next_argAction opens, next_charSet opens⟩

/-- A quoted bracket does not close an argument action, but it does close a character set. -/
theorem next_bracket_of_quoted_bracket
    : let c := Cursor.ofText ['[', '\'', ']', '\'', ']']
      (create {} uppercaseNaming).Emits c .argAction ['[', '\'', ']', '\'', ']'] []
      ∧ (create { startsInLexerRule := true } uppercaseNaming).Emits c .charSet ['[', '\'', ']']
          [] := by
  intro c
  have quoted : Enclosed '\'' [']'] :=
    (Enclosed.cons_iff (by decide) []).mpr ⟨rfl, by decide, .nil⟩
  have closes : Nesting.Closing false '[' ']' [['['], ['\'', ']', '\''], [']']] [] := by
    refine Nesting.Levels.closing_of_closed ?_ (by decide) Nesting.item_bracket
    exact .item (.quotation rfl quoted _) (by decide) (by decide) .closed
  have quote : Enclosed ']' ['\''] :=
    (Enclosed.cons_iff (by decide) []).mpr ⟨rfl, by decide, .nil⟩
  constructor
  · exact ((next_bracket _ c rfl).1 rfl).1 _ _ closes rfl
  · exact ((next_bracket _ c rfl).2 rfl).1 _ _ quote rfl

end Scanner

-----------------------------------------------------------------------------------------
-- String literals
-----------------------------------------------------------------------------------------

/-- The diagnostics of the wrong escapes in a text at the cursor: one for each, in their order, that
begins where the escape does.
-/
def Cursor.EscapeReports (c : Cursor) (text : List Char) (reports : List Diagnostic) : Prop :=
  ∃ indices,
    WrongEscapes c.rest text.length indices
    ∧ List.Forall₂
        (fun index d =>
          d.kind = .invalidEscapeSequence
          ∧ ∃ span, d.span = some span ∧ span.start = c.position.advanceOver (c.rest.take index))
        indices reports

theorem textBefore_drop (text : List Char) (n : Nat)
    : textBefore text (text.drop n) = text.take n := by
  have happ := textBefore_append (text.take n) (text.drop n)
  rwa [List.take_append_drop] at happ

/-- The faults of wrong escapes become their diagnostics. -/
theorem FaultsOf.escapeReports {c : Cursor} {text : List Char} {faults : List Fault}
    (h : FaultsOf c.rest text.length faults)
    : c.EscapeReports text (faults.map (Scanner.diagnosticOf c)) := by
  obtain ⟨indices, wrong, hfaults⟩ := h
  refine ⟨indices, wrong, ?_⟩
  rw [List.forall₂_map_right_iff]
  refine hfaults.imp ?_
  rintro index f ⟨hkind, hstart⟩
  refine ⟨hkind, _, rfl, ?_⟩
  rw [hstart, Scanner.placeOf, textBefore_drop]

namespace Scanner

/-- A literal is handed out as far as its reading goes, with the reports of its escapes and, if it
is not closed, one more.
-/
theorem emits_literal {s : Scanner} {c : Cursor} {text token : List Char}
    (opens : c.rest = '\'' :: text) (split : c.rest = token ++ (StringLiteral.close text).rest)
    : ∃ escapes,
        c.EscapeReports token escapes
        ∧ s.Emits c .stringLiteral token
            (escapes
              ++ if (StringLiteral.close text).closed then []
                else [(c.tokenFor .stringLiteral token).fault .unterminatedStringLiteral]) := by
  let x := StringLiteral.read { rest := c.rest, trials := s.trials }
  have found
      : Lexeme.read s.mode s.naming { rest := c.rest, trials := s.trials } = some x := by
    simp only [x, Lexeme.read, opens]
  have hrest : x.rest = (StringLiteral.close text).rest := by
    simp only [x, StringLiteral.read, opens]
    rfl
  have hfaults
      : x.faults
        = (StringLiteral.close text).faults
          ++ if (StringLiteral.close text).closed then []
            else [{ kind := .unterminatedStringLiteral, start := c.rest, stop := x.rest }] := by
    simp only [x, StringLiteral.read, opens]
    rfl
  have hescapes : FaultsOf c.rest token.length (StringLiteral.close text).faults := by
    have hup := StringLiteral.faults_behind_character (c := '\'') (by decide)
      (StringLiteral.close_faults text)
    rw [← opens, split] at hup
    rw [split]
    exact hup.of_append
  refine ⟨_, hescapes.escapeReports, ?_⟩
  rw [← hrest] at split
  have hemits := emits_of_read found split rfl
  rw [hfaults, List.map_append] at hemits
  cases hclosed : (StringLiteral.close text).closed with
  | true =>
      rw [hclosed, if_pos rfl] at hemits
      exact hemits
  | false =>
      rw [hclosed, if_neg Bool.false_ne_true, List.map_singleton, diagnosticOf_eq_fault split]
        at hemits
      exact hemits

/-- Behind a quote a literal reaches to the first quote on its line that no backslash hides, or else
to the end of the line, where it is reported as cut short. Escapes do not matter for that; each
wrong one is reported.
-/
theorem next_stringLiteral (s : Scanner) (c : Cursor) {text : List Char}
    (opens : c.rest = '\'' :: text)
    : (∀ body rest,
        Enclosed '\'' body
        → text = body ++ '\'' :: rest
        → ∃ escapes,
            c.EscapeReports ('\'' :: (body ++ ['\''])) escapes
            ∧ s.Emits c .stringLiteral ('\'' :: (body ++ ['\''])) escapes)
      ∧ (Unclosed '\'' text
        → ∃ escapes,
            c.EscapeReports ('\'' :: firstLine text) escapes
            ∧ s.Emits c .stringLiteral ('\'' :: firstLine text)
                (escapes
                  ++ [(c.tokenFor .stringLiteral ('\'' :: firstLine text)).fault
                    .unterminatedStringLiteral])) := by
  have hclose := StringLiteral.close_eq text
  constructor
  · intro body rest enclosed split
    rw [lineClose_of_closedBefore (by decide) (by decide) ⟨body, enclosed, split⟩] at hclose
    obtain ⟨hclosed, hrest⟩ := Prod.mk.inj hclose
    have htoken : c.rest = ('\'' :: (body ++ ['\''])) ++ (StringLiteral.close text).rest := by
      rw [opens, hrest, split]
      simp
    obtain ⟨escapes, hescapes, emits⟩ := emits_literal (s := s) opens htoken
    rw [hclosed, if_pos rfl, List.append_nil] at emits
    exact ⟨escapes, hescapes, emits⟩
  · intro unclosed
    rw [lineClose_of_unclosed (by decide) (by decide) unclosed] at hclose
    obtain ⟨hclosed, hrest⟩ := Prod.mk.inj hclose
    have htoken : c.rest = ('\'' :: firstLine text) ++ (StringLiteral.close text).rest := by
      rw [opens, hrest, List.cons_append, firstLine_append]
    obtain ⟨escapes, hescapes, emits⟩ := emits_literal (s := s) opens htoken
    rw [hclosed, if_neg Bool.false_ne_true] at emits
    exact ⟨escapes, hescapes, emits⟩

/-- A wrong escape is reported, and the literal goes on behind it. -/
theorem next_stringLiteral_of_wrong_escape
    : let c := Cursor.ofText ['\'', '\\', 'q', '\'']
      ∃ escapes,
        c.EscapeReports c.rest escapes
        ∧ (create {} uppercaseNaming).Emits c .stringLiteral c.rest escapes := by
  intro c
  have enclosed : Enclosed '\'' ['\\', 'q'] :=
    (Enclosed.escape_iff (by decide) 'q' []).mpr ⟨rfl, .nil⟩
  exact (next_stringLiteral _ c rfl).1 _ [] enclosed rfl

end Scanner

end GrammarFrontend
