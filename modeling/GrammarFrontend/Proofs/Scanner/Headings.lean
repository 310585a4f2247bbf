import GrammarFrontend.Proofs.Scanner.Modes

/-! The colon after the heading of a rule. Searched from its end, a heading shows the last of its
names outside of options blocks. In the heading of a lexer rule that is the name of the rule; in the
heading of a parser rule it can also be a thrown type or an action, and where such a name is taken
for the name of a token, the colon opens a lexer rule.
-/

namespace GrammarFrontend

-----------------------------------------------------------------------------------------
-- Headings
-----------------------------------------------------------------------------------------

/-- A name, as the naming convention takes it. -/
inductive NameKind where
  | token
  | rule
deriving DecidableEq, Repr

namespace NameKind

def kind : NameKind → TokenKind
  | token => .tokenRef
  | rule => .ruleRef

def mode : NameKind → ScanMode
  | token => .lexerRule
  | rule => .parserRule

end NameKind

/-- The kinds inside of an options block, which neither opens nor closes another block. -/
structure OptionsBlock where
  inside : List TokenKind
  opener_notMem : .optionsOpener ∉ inside := by decide
  rightBrace_notMem : .rightBrace ∉ inside := by decide

def OptionsBlock.kinds (b : OptionsBlock) : List TokenKind :=
  .optionsOpener :: (b.inside ++ [.rightBrace])

/-- What may stand at the end of a heading any number of times. -/
inductive HeadingPart where
  | options (block : OptionsBlock)
  | action (name : NameKind)

namespace HeadingPart

def kinds : HeadingPart → List TokenKind
  | options block => block.kinds
  | action name => [.atSign, name.kind, .action]

def names : HeadingPart → List NameKind
  | options _ => []
  | action name => [name]

end HeadingPart

/-- What stands between the name of a parser rule and its colon. Every bracket is given by the mode
in which it was scanned; without thrown types there is no clause for them.
-/
structure Heading where
  args : Option ScanMode := none
  returns : Option ScanMode := none
  throws : List NameKind := []
  locals : Option ScanMode := none
  parts : List HeadingPart := []

namespace Heading

/-- A bracket with what opens its clause, if there is one. -/
def bracketClause (opening : List TokenKind) : Option ScanMode → List TokenKind
  | none => []
  | some mode => opening ++ [mode.bracketKind]

def throwsClause : List NameKind → List TokenKind
  | [] => []
  | first :: more => .throwsWord :: first.kind :: more.flatMap (fun name => [.comma, name.kind])

/-- The kinds of the tokens of a heading, trivia left out. -/
def kinds (h : Heading) : List TokenKind :=
  bracketClause [] h.args
  ++ bracketClause [.returnsWord] h.returns
  ++ throwsClause h.throws
  ++ bracketClause [.localsWord] h.locals
  ++ h.parts.flatMap HeadingPart.kinds

/-- The names of a heading outside of its options blocks. -/
def names (h : Heading) : List NameKind := h.throws ++ h.parts.flatMap HeadingPart.names

end Heading

-----------------------------------------------------------------------------------------
-- What the search finds in a heading
-----------------------------------------------------------------------------------------

namespace ScanMode

/-- A block is left at its opener, by induction on what is inside of it. -/
theorem searchRule_block {inside : List TokenKind} (h : .optionsOpener ∉ inside)
    (earlier : List TokenKind)
    : searchRule true (inside ++ .optionsOpener :: earlier) = ofHistory earlier := by
  induction inside with
  | nil => rfl
  | cons kind inside ih =>
      obtain ⟨hne, hrest⟩ := not_or.mp (List.mem_cons.not.mp h)
      have hpassed : (kind != .optionsOpener) = true := bne_iff_ne.mpr (Ne.symm hne)
      rw [List.cons_append, searchRule, hpassed]
      exact ih hrest

/-- A segment shows these names to a search that comes from its right: the last of them ends the
search, and without a name the search goes on to the left of the segment.
-/
def Shows (kinds : List TokenKind) (names : List NameKind) : Prop :=
  ∀ earlier : List TokenKind,
    ofHistory (earlier ++ kinds).reverse
    = (names.getLast?.map NameKind.mode).or (ofHistory earlier.reverse)

namespace Shows

theorem nil : Shows [] [] := by
  intro earlier
  rw [List.append_nil]
  rfl

/-- A segment after another one shows the names of both. -/
theorem append {kinds more : List TokenKind} {names next : List NameKind}
    (hk : Shows kinds names) (hm : Shows more next)
    : Shows (kinds ++ more) (names ++ next) := by
  intro earlier
  rw [← List.append_assoc, hm, hk, List.getLast?_append, Option.map_or, Option.or_assoc]

/-- Segments one after another show all their names, by induction on what they are made from. -/
theorem flatMap {α : Type} {kinds : α → List TokenKind} {names : α → List NameKind}
    (h : ∀ a, Shows (kinds a) (names a)) (parts : List α)
    : Shows (parts.flatMap kinds) (parts.flatMap names) := by
  induction parts with
  | nil => exact nil
  | cons part parts ih => exact (h part).append ih

/-- A kind that the search does not look for shows nothing. -/
theorem plain {kind : TokenKind}
    (h : kind ∉ [.rightBrace, .leftParen, .tokenRef, .ruleRef])
    : Shows [kind] [] := by
  intro earlier
  rw [List.reverse_append, ofHistory, List.reverse_singleton, List.singleton_append]
  cases kind <;> simp at h <;> rfl

theorem name (n : NameKind) : Shows [n.kind] [n] := by
  intro earlier
  rw [List.reverse_append, ofHistory, List.reverse_singleton, List.singleton_append]
  cases n <;> rfl

/-- An options block hides the names inside of it. -/
theorem options (block : OptionsBlock) : Shows block.kinds [] := by
  intro earlier
  have hreverse
      : (earlier ++ block.kinds).reverse
        = .rightBrace :: (block.inside.reverse ++ .optionsOpener :: earlier.reverse) := by
    simp [OptionsBlock.kinds]
  have hopener : .optionsOpener ∉ block.inside.reverse := by
    rw [List.mem_reverse]
    exact block.opener_notMem
  rw [hreverse, ofHistory, searchRule, searchRule_block hopener]
  rfl

theorem part : (p : HeadingPart) → Shows p.kinds p.names
  | .options block => options block
  | .action n => (plain (by decide)).append ((name n).append (plain (by decide)))

theorem bracketClause {opening : List TokenKind} (h : Shows opening []) (bracket : Option ScanMode)
    : Shows (Heading.bracketClause opening bracket) [] := by
  cases bracket with
  | none => exact nil
  | some mode => exact h.append (plain (by cases mode <;> decide))

theorem throwsClause (names : List NameKind) : Shows (Heading.throwsClause names) names := by
  cases names with
  | nil => exact nil
  | cons first more =>
      have hmore : Shows (more.flatMap (fun n => [.comma, n.kind])) (more.flatMap ([·])) :=
        flatMap (fun n => (plain (by decide)).append (name n)) more
      rw [List.flatMap_singleton'] at hmore
      exact (plain (by decide)).append ((name first).append hmore)

/-- A heading shows its names outside of options blocks. -/
theorem heading (h : Heading) : Shows h.kinds h.names := by
  have hargs := bracketClause nil h.args
  have hreturns := bracketClause (show Shows [.returnsWord] [] from plain (by decide)) h.returns
  have hlocals := bracketClause (show Shows [.localsWord] [] from plain (by decide)) h.locals
  simpa [Heading.kinds, Heading.names] using
    (((hargs.append hreturns).append (throwsClause h.throws)).append hlocals).append
      (flatMap part h.parts)

end Shows

/-- After a name and a segment with trivia in between, the search ends at the last name. -/
theorem ofHistory_of_shows {kinds tail : List TokenKind} {names : List NameKind}
    (shows : Shows kinds names) (htail : tail.filter (!·.isTrivia) = kinds)
    (earlier : List TokenKind) (first : NameKind)
    : ofHistory (earlier ++ first.kind :: tail).reverse = some (names.getLast?.getD first).mode := by
  have hfirst : [first.kind].filter (!·.isTrivia) = [first.kind] := by cases first <;> rfl
  have hkinds
      : (earlier ++ first.kind :: tail).filter (!·.isTrivia)
        = earlier.filter (!·.isTrivia) ++ ([first.kind] ++ kinds) := by
    rw [List.filter_append, ← List.singleton_append, List.filter_append, hfirst, htail]
  rw [ofHistory, ← searchRule_filter, List.filter_reverse, hkinds]
  refine (((Shows.name first).append shows) _).trans ?_
  rw [List.singleton_append, List.getLast?_cons]
  rfl

end ScanMode

-----------------------------------------------------------------------------------------
-- The colon after a heading
-----------------------------------------------------------------------------------------

/-- The usual lexer of a source after that many tokens. -/
def Lexer.afterTokens (source : String) (n : Nat) : Lexer :=
  (create source.toList {} uppercaseNaming).serveAll (List.replicate n .next)

/-- A colon is next, and it is a token of its own. -/
def Cursor.AtColon (c : Cursor) : Prop := ∃ text, c.rest = ':' :: text ∧ text.head? ≠ some ':'

namespace Scanner

/-- A colon leaves the scanner in the mode of the rule that the tokens before it tell. -/
theorem next_mode_of_atColon {c : Cursor} (colon : c.AtColon) (s : Scanner)
    : (s.next c).scanner.mode
      = (ScanMode.ofHistory (s.tokens.map (·.kind)).reverse).getD s.mode := by
  obtain ⟨text, hrest, hsingle⟩ := colon
  have hmark : Punctuation.read (':' :: text) = some (.colon, text) := by
    unfold Punctuation.read
    split <;> simp_all
  have hread
      : Lexeme.read s.mode s.naming { rest := c.rest, trials := s.trials }
        = some (.plain .colon { rest := text, trials := s.trials }) := by
    simp [Lexeme.read, Lexeme.undelimited, hrest, hmark, isBlank, isInlineBlank, isLineBreak,
      Probe.moveTo]
  have hhistory : (s.tokens.map (·.kind)).reverse = s.history.map (·.kind) := by simp [tokens]
  rw [hhistory]
  simp [next, hread, absorb_eq, Lexeme.plain, modeAfter]

/-- The colon after a heading takes the mode of the last name in the heading outside of options
blocks, and that of the rule's own name if there is no other. In the heading of a lexer rule only
options blocks can follow the name, so that the colon opens a lexer rule.
-/
theorem next_mode_of_heading {c : Cursor} (colon : c.AtColon) (s : Scanner)
    (earlier tail : List TokenKind)
    : (∀ heading : Heading,
        s.tokens.map (·.kind) = earlier ++ .ruleRef :: tail
        → tail.filter (!·.isTrivia) = heading.kinds
        → (s.next c).scanner.mode = (heading.names.getLast?.getD .rule).mode)
      ∧ ∀ blocks : List OptionsBlock,
          s.tokens.map (·.kind) = earlier ++ .tokenRef :: tail
          → tail.filter (!·.isTrivia) = blocks.flatMap OptionsBlock.kinds
          → (s.next c).scanner.mode = .lexerRule := by
  rw [next_mode_of_atColon colon]
  constructor
  · intro heading hkinds htail
    have hfound := ScanMode.ofHistory_of_shows (.heading heading) htail earlier .rule
    rw [hkinds, show TokenKind.ruleRef = NameKind.rule.kind from rfl, hfound, Option.getD_some]
  · intro blocks hkinds htail
    have shows : ScanMode.Shows (blocks.flatMap OptionsBlock.kinds) (blocks.flatMap (fun _ => [])) :=
      .flatMap .options blocks
    have hnames : blocks.flatMap (fun _ => ([] : List NameKind)) = [] := by simp
    rw [hnames] at shows
    have hfound := ScanMode.ofHistory_of_shows shows htail earlier .token
    rw [hkinds, show TokenKind.tokenRef = NameKind.token.kind from rfl, hfound, Option.getD_some]
    rfl

/-- An option's value and a comment do not matter: the colon after a thrown rule name opens a parser
rule, and the colon after a token name opens a lexer rule.
-/
theorem next_mode_of_options
    : let l := Lexer.afterTokens "a throws E, e options { k = V; } :" 20
      let m := Lexer.afterTokens "T options { k = v; } /* c */ :" 15
      l.cursor.AtColon
      ∧ (l.scanner.next l.cursor).scanner.mode = .parserRule
      ∧ m.cursor.AtColon
      ∧ (m.scanner.next m.cursor).scanner.mode = .lexerRule := by
  intro l m
  have hl : l.cursor.AtColon := ⟨[], by decide +kernel, by decide⟩
  have hm : m.cursor.AtColon := ⟨[], by decide +kernel, by decide⟩
  refine ⟨hl, ?_, hm, ?_⟩
  · exact (next_mode_of_heading hl l.scanner [] (l.scanner.tokens.map (·.kind)).tail).1
      {
        throws := [.token, .rule]
        parts := [.options { inside := [.ruleRef, .assign, .tokenRef, .semicolon] }]
      }
      (by decide +kernel) (by decide +kernel)
  · exact (next_mode_of_heading hm m.scanner [] (m.scanner.tokens.map (·.kind)).tail).2
      [{ inside := [.ruleRef, .assign, .ruleRef, .semicolon] }]
      (by decide +kernel) (by decide +kernel)

/-- Not every colon after the heading of a parser rule opens one: a thrown type whose name is taken
for the name of a token is the last name before the colon.
-/
theorem not_parserRule_of_heading
    : ¬ ∀ (s : Scanner) (c : Cursor) (earlier tail : List TokenKind) (heading : Heading),
        c.AtColon
        → s.tokens.map (·.kind) = earlier ++ .ruleRef :: tail
        → tail.filter (!·.isTrivia) = heading.kinds
        → (s.next c).scanner.mode = .parserRule := by
  intro h
  let l := Lexer.afterTokens "a throws E :" 6
  have hparser : (l.scanner.next l.cursor).scanner.mode = .parserRule := by
    exact h l.scanner l.cursor [] (l.scanner.tokens.map (·.kind)).tail { throws := [.token] }
      ⟨[], by decide +kernel, by decide⟩ (by decide +kernel) (by decide +kernel)
  have hlexer : (l.scanner.next l.cursor).scanner.mode = .lexerRule := by decide +kernel
  rw [hlexer] at hparser
  cases hparser

end Scanner

end GrammarFrontend
