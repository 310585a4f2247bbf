import GrammarFrontend.Proofs.Scanner.Steps
import GrammarFrontend.Proofs.Token.RuleSearch

/-! The scan mode of a lexer is told by the kinds of the tokens that it has handed out, as long as
the caller does not set it. The mode in which a bracket opens decides what the bracket is. So neither
blank text nor comments nor discarded input nor failed trials matter to brackets.
-/

namespace GrammarFrontend

def ScannerConfig.initialMode (c : ScannerConfig) : ScanMode :=
  if c.startsInLexerRule then .lexerRule else .parserRule

def Token.opensBracket (t : Token) : Bool := t.text.toList.head? == some '['

theorem ScanMode.bracketKind_inj {m n : ScanMode} : m.bracketKind = n.bracketKind ↔ m = n := by
  cases m <;> cases n <;> simp [bracketKind]

theorem Scanner.modeAfter_eq (s : Scanner) (kind : TokenKind)
    : s.modeAfter kind
      = if kind = .colon then (ScanMode.ofHistory (s.history.map (·.kind))).getD s.mode
        else s.mode := by
  cases kind <;> rfl

namespace Lexer

-----------------------------------------------------------------------------------------
-- One item
-----------------------------------------------------------------------------------------

/-- Only a colon can change the mode, to that of the rule that the tokens before it tell. -/
theorem Step.after_mode (s : Step)
    : s.after.mode
      = if s.item.kind = .colon
        then (ScanMode.ofHistory (s.lexer.tokens.map (·.kind)).reverse).getD s.lexer.mode
        else s.lexer.mode := by
  have hkind : s.item.kind = s.lexeme.kind := rfl
  have hhistory : (s.lexer.tokens.map (·.kind)).reverse = s.lexer.scanner.history.map (·.kind) := by
    simp [tokens, Scanner.tokens]
  have hmode : s.after.mode = s.lexer.scanner.modeAfter s.lexeme.kind := by
    simp only [after, mode, scanner, Scanner.absorb_eq, Scanner.report]
    split
    · rfl
    · split <;> rfl
    · rfl
  rw [hmode, hkind, hhistory, Scanner.modeAfter_eq]
  rfl

/-- An item opens a bracket exactly if a bracket is next at the cursor. -/
theorem Step.item_opensBracket {s : Step} (found : s.lexer.lexeme? = some s.lexeme)
    : s.item.opensBracket = (s.lexer.cursor.rest.head? == some '[') := by
  rw [← s.item_text_append found, List.head?_append_of_ne_nil _ (s.item_text_ne_nil found)]
  rfl

/-- An item is of the kind that a mode gives to brackets exactly if it opens a bracket in that mode.
-/
theorem Step.item_kind_eq_bracketKind_iff {s : Step} (found : s.lexer.lexeme? = some s.lexeme)
    (m : ScanMode)
    : s.item.kind = m.bracketKind ↔ s.item.opensBracket = true ∧ s.lexer.mode = m := by
  have hkind : s.item.kind = s.lexeme.kind := rfl
  rw [s.item_opensBracket found, hkind, beq_iff_eq]
  have hread {text : List Char} (opens : s.lexer.cursor.rest = '[' :: text)
      : s.lexeme.kind = s.lexer.mode.bracketKind := by
    rw [lexeme?, Lexeme.read_of_bracket opens] at found
    rw [← Option.some.inj found, Lexeme.bracketed_kind]
    rfl
  constructor
  · intro hm
    have hhead : s.lexer.cursor.rest.head? = some '[' := by
      refine Lexeme.read_opens_bracket found ?_
      rw [hm]
      cases m <;> simp [ScanMode.bracketKind]
    obtain ⟨text, opens⟩ := List.head?_eq_some_iff.mp hhead
    exact ⟨hhead, ScanMode.bracketKind_inj.mp ((hread opens).symm.trans hm)⟩
  · intro h
    obtain ⟨hhead, hmode⟩ := h
    obtain ⟨text, opens⟩ := List.head?_eq_some_iff.mp hhead
    rw [hread opens, hmode]

-----------------------------------------------------------------------------------------
-- Runs
-----------------------------------------------------------------------------------------

/-- The mode of a lexer follows from the kinds of the tokens that it has handed out, and where each
of these begins the mode followed from those before. The tokens of the kind that a mode gives to
brackets are exactly those that open a bracket where the mode is that one.
-/
structure ModeFollows (initial : ScanMode) (l : Lexer) : Prop where
  mode : l.mode = .afterKinds initial (l.tokens.map (·.kind))
  brackets
    : ∀ before t after, l.tokens = before ++ t :: after
      → ∀ m : ScanMode,
          t.kind = m.bracketKind
          ↔ t.opensBracket = true ∧ .afterKinds initial (before.map (·.kind)) = m

/-- Every step keeps the mode in line with the tokens. A discarded item is no colon and no token;
any other one is the last token after the step, and the mode where it begins was in line.
-/
theorem ModeFollows.after {initial : ScanMode} {s : Step}
    (found : s.lexer.lexeme? = some s.lexeme) (follows : s.lexer.ModeFollows initial)
    : s.after.ModeFollows initial := by
  have htokens := s.after_tokens
  have hmode := s.after_mode
  cases hd : s.item.kind.isDiscarded with
  | true =>
      have hcolon : s.item.kind ≠ .colon := by
        intro h
        rw [h] at hd
        cases hd
      rw [if_neg hcolon] at hmode
      simp only [List.filter, hd, Bool.not_true, List.append_nil] at htokens
      constructor
      case mode => rw [hmode, htokens, follows.mode]
      case brackets => exact htokens ▸ follows.brackets
  | false =>
      simp only [List.filter, hd, Bool.not_false] at htokens
      constructor
      case mode =>
        rw [hmode, htokens, List.map_append, List.map_singleton, ScanMode.afterKinds_concat,
          ← follows.mode]
      case brackets =>
        intro before t after hsplit m
        rw [htokens] at hsplit
        rcases List.eq_nil_or_concat after with rfl | ⟨after, last, rfl⟩
        · obtain ⟨rfl, hlast⟩ := List.append_inj' hsplit rfl
          obtain rfl := List.singleton_inj.mp hlast
          rw [← follows.mode]
          exact s.item_kind_eq_bracketKind_iff found m
        · rw [List.concat_eq_append, ← List.cons_append, ← List.append_assoc] at hsplit
          exact follows.brackets before t after (List.append_inj' hsplit rfl).1 m

/-- Before its first step a lexer is in the initial mode. -/
theorem modeFollows_create (source : List Char) (config : ScannerConfig) (naming : Naming)
    : (create source config naming).ModeFollows config.initialMode := by
  constructor
  case mode => rfl
  case brackets =>
    intro before t after hsplit
    exact absurd hsplit.symm (by simp [create, tokens, Scanner.tokens, Scanner.create])

/-- However many tokens are asked for, and also when the rest is scanned at once, the mode follows
from the tokens handed out, and so does what every bracket is. Trivia among the tokens lead to no
other mode.
-/
theorem mode_follows_colons (source : List Char) (config : ScannerConfig) (naming : Naming)
    (n : Nat)
    : let l := (create source config naming).serveAll (List.replicate n .next)
      l.ModeFollows config.initialMode
      ∧ l.drain.ModeFollows config.initialMode
      ∧ ∀ kinds : List TokenKind,
          ScanMode.afterKinds config.initialMode (kinds.filter (!·.isTrivia))
          = .afterKinds config.initialMode kinds := by
  intro l
  obtain ⟨steps, run⟩ := serveAll_runs (create source config naming) n
  obtain ⟨more, rest, -⟩ := drain_runs l
  have follows : l.ModeFollows config.initialMode :=
    run.keeps (fun _ => ModeFollows.after) (modeFollows_create source config naming)
  refine ⟨follows, rest.keeps (fun _ => ModeFollows.after) follows, ?_⟩
  exact ScanMode.afterKinds_filter config.initialMode

end Lexer

end GrammarFrontend
