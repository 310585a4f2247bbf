import GrammarFrontend.Proofs.Lexeme.Comments
import GrammarFrontend.Proofs.Scanner.Extents

/-! Comments as tokens, and the directives that line comments leave. Which directive a comment leaves
is told by the text of its token alone, in one step as in a whole run.
-/

namespace GrammarFrontend

namespace Scanner

-----------------------------------------------------------------------------------------
-- Block comments
-----------------------------------------------------------------------------------------

/-- Behind the opening mark of a block comment a token reaches to the first closing mark that shares
no character with the opening mark. Without one it takes all that is left and is reported. In both
cases its own text tells whether it is documentation, and the report goes by that.
-/
theorem next_blockComment (s : Scanner) (c : Cursor) {text : List Char}
    (opens : c.rest = '/' :: '*' :: text)
    : ((∃ comment, Comment.Closed c.rest comment)
        → ∃ comment,
            Comment.ShortestClosed c.rest comment
            ∧ s.Emits c (Comment.kindOf comment) comment [])
      ∧ (∀ comment,
        Comment.ShortestClosed c.rest comment → s.Emits c (Comment.kindOf comment) comment [])
      ∧ ((∀ comment, ¬ Comment.Closed c.rest comment)
        → s.Emits c (Comment.kindOf c.rest) c.rest
            [(c.tokenFor (Comment.kindOf c.rest) c.rest).fault
              (Comment.faultOf (Comment.kindOf c.rest))]) := by
  let p : Probe := { rest := c.rest, trials := s.trials }
  have found : Lexeme.read s.mode s.naming p = some (Comment.block p) := by
    simp only [p, Lexeme.read, opens]
  rcases Comment.block_decided (p := p) opens with
    ⟨comment, next, shortest, split, hblock⟩ | ⟨hnone, next, hnext, hblock⟩
  · rw [hblock] at found
    have hemits : s.Emits c (Comment.kindOf comment) comment [] :=
      emits_of_plain found split (Comment.kindOf_isDiscarded comment)
    refine ⟨fun _ => ⟨comment, shortest, hemits⟩, ?_, ?_⟩
    · intro other hother
      obtain rfl := shortest.unique hother
      exact hemits
    · intro hnone
      exact absurd shortest.closed (hnone comment)
  · rw [hblock] at found
    refine ⟨?_, ?_, ?_⟩
    · rintro ⟨comment, closed⟩
      exact absurd closed (hnone comment)
    · intro comment shortest
      exact absurd shortest.closed (hnone comment)
    · intro _
      exact emits_of_unterminated found (by rw [hnext, List.append_nil])
        (Comment.kindOf_isDiscarded c.rest)

/-- A third star is part of the closing mark, and a comment of two stars and no end is cut short as
documentation.
-/
theorem next_blockComment_of_stars
    : (create {} uppercaseNaming).Emits (.ofText ['/', '*', '*', '*', '/', 'x']) .docComment
        ['/', '*', '*', '*', '/'] []
      ∧ let c := Cursor.ofText ['/', '*', '*']
        (create {} uppercaseNaming).Emits c .docComment ['/', '*', '*']
          [(c.tokenFor .docComment ['/', '*', '*']).fault .unterminatedDocComment] := by
  have first : Comment.EndsFirst ['*'] := by
    intro before after hmark
    have hlength := congrArg List.length hmark
    simp only [List.length_append, List.length_cons, List.length_nil] at hlength
    cases before with
    | nil => cases hmark
    | cons d before =>
        rw [List.length_cons] at hlength
        exact List.length_eq_zero_iff.mp (by omega)
  constructor
  · exact (next_blockComment _ (.ofText ['/', '*', '*', '*', '/', 'x']) rfl).2.1 _
      (Comment.shortestClosed_of_endsFirst first ['x'])
  · refine (next_blockComment _ (.ofText ['/', '*', '*']) rfl).2.2 ?_
    intro comment closed
    exact absurd (Nat.le_trans closed.long closed.ahead.length_le) (by decide)

end Scanner

-----------------------------------------------------------------------------------------
-- Directives
-----------------------------------------------------------------------------------------

/-- The directive that a note makes where it stands. -/
def SourceNote.directive (n : SourceNote) (start : Position) : Directive :=
  {
    file := String.ofList n.file
    line := n.line
    span := { start, stop := start.advanceOver n.text }
  }

/-- A token begins with a note, and the note makes the directive. -/
def Token.Notes (t : Token) (d : Directive) : Prop :=
  ∃ n : SourceNote, n.Heads t.text.toList ∧ d = n.directive t.span.start

/-- What a scan leaves of a token: the directive of its note, if directives are recorded and the
token is a comment with a note, and nothing otherwise. The directive lies in the token.
-/
structure Token.Leaves (recording : Bool) (t : Token) (found : Option Directive) : Prop where
  notes : ∀ d, found = some d ↔ recording = true ∧ t.Notes d
  comment : ∀ d ∈ found, t.kind = .comment
  inside
    : ∀ d ∈ found,
        d.span.start = t.span.start ∧ d.span.stop.offset ≤ t.span.stop.offset

/-- A note begins with its token and ends in it. -/
theorem Token.Notes.inside {t : Token} {d : Directive} (h : t.Notes d)
    (stop : t.span.stop = t.span.start.advanceOver t.text.toList)
    : d.span.start = t.span.start ∧ d.span.stop.offset ≤ t.span.stop.offset := by
  obtain ⟨n, ⟨rest, htext, -⟩, rfl⟩ := h
  refine ⟨rfl, ?_⟩
  rw [stop, htext, Position.advanceOver_offset, utf8Length_append]
  simp only [SourceNote.directive, Position.advanceOver_offset]
  omega

/-- The note at the front of a line is the one of the comment in the line. -/
theorem Comment.originOf_iff {c : Cursor} {text : List Char} (opens : c.rest = '/' :: '/' :: text)
    (d : Directive)
    : (originOf (firstLine text) (afterLine text)).map (Scanner.directiveOf c) = some d
      ↔ (c.tokenFor .comment ('/' :: '/' :: firstLine text)).Notes d := by
  have htoken
      : (c.tokenFor .comment ('/' :: '/' :: firstLine text)).text.toList
        = '/' :: '/' :: firstLine text :=
    String.toList_ofList
  have hplace (n : SourceNote) {rest : List Char} (hline : firstLine text = n.body ++ rest)
      : Scanner.placeOf c (rest ++ afterLine text) = c.position.advanceOver n.text := by
    have hsplit : c.rest = n.text ++ (rest ++ afterLine text) := by
      calc
        c.rest = '/' :: '/' :: (firstLine text ++ afterLine text) := by rw [opens, firstLine_append]
        _ = n.text ++ (rest ++ afterLine text) := by
          rw [hline, List.append_assoc]
          rfl
    rw [Scanner.placeOf, hsplit, textBefore_append]
  simp only [originOf, Option.map_map, Option.map_eq_some_iff]
  constructor
  · rintro ⟨⟨⟨file, line⟩, rest⟩, hfound, rfl⟩
    obtain ⟨n, hline, hstop, rfl, rfl⟩ := directive_eq_some_iff.mp hfound
    refine ⟨n, ⟨rest, ?_, hstop⟩, ?_⟩
    · rw [htoken, hline]
      rfl
    · simp only [Function.comp_apply, Scanner.directiveOf, hplace n hline]
      rfl
  · rintro ⟨n, ⟨rest, htext, hstop⟩, rfl⟩
    have hline : firstLine text = n.body ++ rest := by
      rw [htoken, SourceNote.text] at htext
      simpa using htext
    refine ⟨((n.file, n.line), rest), directive_eq_some_iff.mpr ⟨n, hline, hstop, rfl, rfl⟩, ?_⟩
    simp only [Function.comp_apply, Scanner.directiveOf, hplace n hline]
    rfl

/-- Only two slashes begin a lexeme that holds a directive. -/
theorem Lexeme.origin_eq_none {mode : ScanMode} {naming : Naming} {p : Probe} {x : Lexeme}
    (found : read mode naming p = some x) (plain : ¬ ['/', '/'] <+: p.rest)
    : x.origin = none := by
  cases read_recognised found with
  | blockComment =>
      simp only [Comment.block]
      split <;> rfl
  | lineComment opens => exact absurd ⟨_, opens.symm⟩ plain
  | action =>
      rw [Nesting.action_eq]
      split
      · split <;> rfl
      · rfl
  | charSet =>
      simp only [CharSet.read]
      split <;> rfl
  | argAction =>
      rw [Nesting.argAction_eq]
      split <;> rfl
  | stringLiteral => rfl
  | @undelimited c text =>
      obtain ⟨kind, next, -, hplain⟩ := undelimited_eq_plain naming p c text
      rw [hplain]
      rfl

theorem Lexeme.read_of_slashes {p : Probe} {text : List Char} (opens : p.rest = '/' :: '/' :: text)
    (mode : ScanMode) (naming : Naming)
    : read mode naming p = some (Comment.line p) := by
  simp only [read, opens]

namespace Scanner

section FromLexeme

variable {s : Scanner} {c : Cursor} {x : Lexeme}

/-- The token of a line comment is all of its line. -/
theorem tokenOf_line {text : List Char} (opens : c.rest = '/' :: '/' :: text)
    (found : Lexeme.read s.mode s.naming { rest := c.rest, trials := s.trials } = some x)
    : c.rest = ('/' :: '/' :: firstLine text) ++ x.rest
      ∧ x.kind = .comment
      ∧ x.faults = []
      ∧ x.origin = Comment.originOf (firstLine text) (afterLine text) := by
  rw [Lexeme.read_of_slashes (p := { rest := c.rest, trials := s.trials }) opens] at found
  obtain rfl := Option.some.inj found
  obtain ⟨next, hnext, heq⟩ := Comment.line_eq (p := { rest := c.rest, trials := s.trials }) opens
  rw [heq]
  refine ⟨?_, rfl, rfl, rfl⟩
  rw [Lexeme.rest, hnext, opens]
  exact congrArg ('/' :: '/' :: ·) (firstLine_append text).symm

/-- What a lexeme holds is told by its token, whichever recogniser finds it. -/
theorem origin_iff
    (found : Lexeme.read s.mode s.naming { rest := c.rest, trials := s.trials } = some x)
    (d : Directive)
    : x.origin.map (directiveOf c) = some d ↔ (tokenOf c x).Notes d := by
  by_cases hline : ['/', '/'] <+: c.rest
  · obtain ⟨text, opens⟩ := hline
    obtain ⟨hsplit, hkind, -, horigin⟩ := tokenOf_line opens.symm found
    rw [tokenOf_eq hsplit, hkind, horigin]
    exact Comment.originOf_iff opens.symm d
  · rw [Lexeme.origin_eq_none found hline]
    constructor
    · intro hnone
      cases hnone
    · rintro ⟨n, ⟨rest, htext, -⟩, -⟩
      have hahead : (tokenOf c x).text.toList <+: c.rest := by
        rw [tokenOf, String.toList_ofList]
        exact List.take_prefix _ _
      rw [htext] at hahead
      exact absurd (List.IsPrefix.trans ⟨n.body ++ rest, rfl⟩ hahead) hline

/-- What a scanner adds to its directives for a lexeme. -/
def directive? (s : Scanner) (c : Cursor) (x : Lexeme) : Option Directive :=
  if s.recordsDirectives then x.origin.map (directiveOf c) else none

theorem absorb_directives (s : Scanner) (c : Cursor) (x : Lexeme)
    : (s.absorb c x).directives = (s.directive? c x).toList ++ s.directives := by
  rw [absorb_eq, directive?]
  split
  · cases x.origin <;> rfl
  · rfl

/-- A scanner leaves of a token what the token says. -/
theorem leaves_of_read
    (found : Lexeme.read s.mode s.naming { rest := c.rest, trials := s.trials } = some x)
    : (tokenOf c x).Leaves s.recordsDirectives (s.directive? c x) := by
  have hnotes (d : Directive)
      : s.directive? c x = some d ↔ s.recordsDirectives = true ∧ (tokenOf c x).Notes d := by
    rw [directive?, ← origin_iff found]
    split <;> simp_all
  constructor
  case notes => exact hnotes
  case comment =>
    intro d hd
    have hline : ['/', '/'] <+: c.rest := by
      by_contra hline
      rw [Option.mem_def, directive?, Lexeme.origin_eq_none found hline] at hd
      split at hd <;> cases hd
    obtain ⟨text, opens⟩ := hline
    exact (tokenOf_line opens.symm found).2.1
  case inside =>
    intro d hd
    refine ((hnotes d).mp hd).2.inside ?_
    simp [tokenOf]

/-- Two slashes begin a token that reaches to the end of the line, and nothing is reported. A scanner
that records directives takes in the one of the note at the front of the token, if there is one.
-/
theorem next_lineComment (s : Scanner) (c : Cursor) {text : List Char}
    (opens : c.rest = '/' :: '/' :: text)
    : s.Emits c .comment ('/' :: '/' :: firstLine text) []
      ∧ ∃ found,
          (s.next c).scanner.directives = found.toList ++ s.directives
          ∧ (c.tokenFor .comment ('/' :: '/' :: firstLine text)).Leaves s.recordsDirectives
              found := by
  have found := Lexeme.read_of_slashes (p := { rest := c.rest, trials := s.trials }) opens s.mode
    s.naming
  obtain ⟨hsplit, hkind, hfaults, -⟩ := tokenOf_line opens found
  have hemits := emits_of_read found hsplit (by rw [hkind]; rfl)
  have hleaves := leaves_of_read found
  rw [tokenOf_eq hsplit, hkind] at hleaves
  rw [hkind, hfaults] at hemits
  refine ⟨hemits, _, ?_, hleaves⟩
  rw [(next_of_read found).2.2.2, absorb_directives]

end FromLexeme

end Scanner

namespace Lexer

/-- The directive that a step adds. -/
def Step.directive? (s : Step) : Option Directive :=
  s.lexer.scanner.directive? s.lexer.cursor s.lexeme

theorem Step.after_directives (s : Step)
    : s.after.scanner.directives = s.directive?.toList ++ s.lexer.scanner.directives := by
  rw [directive?, ← Scanner.absorb_directives]
  simp only [after, scanner, Scanner.report]
  split
  · rfl
  · split <;> rfl
  · rfl

/-- A run adds the directives of its steps, in their order, and each step leaves what its item says.
The induction is on the steps; a change of the mode changes neither the directives nor whether they
are recorded.
-/
theorem Scans.directives {config : ScannerConfig} {naming : Naming} {l last : Lexer}
    {steps : List Step} (run : Scans l steps last) (h : l.RunsFor config naming)
    : last.scanner.directives.reverse
        = l.scanner.directives.reverse ++ steps.filterMap (·.directive?)
      ∧ ∀ s ∈ steps, s.item.Leaves config.recordsDirectives s.directive? := by
  induction run with
  | refl l => simp
  | @step s steps last found more ih =>
      obtain ⟨hdirectives, hleaves⟩ := ih (h.after found)
      refine ⟨?_, List.forall_mem_cons.mpr ⟨?_, hleaves⟩⟩
      · rw [hdirectives, s.after_directives, List.filterMap_cons]
        cases s.directive? <;> simp
      · rw [← h.recordsDirectives]
        exact Scanner.leaves_of_read found
  | setMode mode more ih =>
      exact ih { naming := h.naming, recordsDirectives := h.recordsDirectives, idle := h.idle }

end Lexer

/-- The directives of a stream are what its items leave, at most one for each, in the order of the
source.
-/
structure TokenStream.KeepsNotes (s : TokenStream) (recording : Bool) : Prop where
  aligned
    : ∃ found : List (Option Directive),
        s.directives = found.filterMap id
        ∧ List.Forall₂ (fun t directive? => t.Leaves recording directive?) s.items found
  ordered : s.directives.Pairwise (fun a b => a.span.start.offset < b.span.start.offset)

/-- The end of the input leaves nothing. -/
theorem Token.eofAt_leaves (recording : Bool) (p : Position)
    : (Token.eofAt p).Leaves recording none := by
  refine { notes := ?_, comment := by simp, inside := by simp }
  intro d
  constructor
  · intro hnone
    cases hnone
  · rintro ⟨-, n, ⟨rest, htext, -⟩, -⟩
    cases htext

/-- A run from the start of a source keeps the notes of its items. -/
theorem Lexer.Scans.keepsNotes {source : List Char} {config : ScannerConfig} {naming : Naming}
    {steps : List Step} {last : Lexer} (run : Scans (create source config naming) steps last)
    : last.stream.KeepsNotes config.recordsDirectives := by
  have start : (create source config naming).RunsFor config naming := by
    exact { naming := rfl, recordsDirectives := rfl, idle := rfl }
  obtain ⟨hdirectives, hleaves⟩ := run.directives start
  have hstream : last.stream.directives = steps.filterMap (·.directive?) := hdirectives
  constructor
  case aligned =>
    refine ⟨steps.map (·.directive?) ++ [none], ?_, ?_⟩
    · rw [hstream, List.filterMap_append, List.filterMap_map]
      simp
    · rw [run.stream_items.1]
      refine List.rel_append ?_ (.cons (Token.eofAt_leaves _ _) .nil)
      rw [List.forall₂_map_left_iff, List.forall₂_map_right_iff, List.forall₂_same]
      exact hleaves
  case ordered =>
    rw [hstream, List.pairwise_filterMap]
    refine (List.pairwise_map.mp run.laid.1.pairwise).imp_of_mem ?_
    intro first second hfirst hsecond hlt d hd e he
    rw [((hleaves first hfirst).inside d hd).1, ((hleaves second hsecond).inside e he).1]
    exact hlt

/-- Line comments reach to the end of their lines and are never reported, and what a scanner keeps of
them is told by their texts. However tokens are pulled and the mode is changed before the rest is
scanned, the directives of the stream are those of its line comments, in the order of the source.
-/
theorem Lexer.lineComments_noted
    : (∀ (s : Scanner) (c : Cursor) (text : List Char),
        c.rest = '/' :: '/' :: text
        → s.Emits c .comment ('/' :: '/' :: firstLine text) []
          ∧ ∃ found,
              (s.next c).scanner.directives = found.toList ++ s.directives
              ∧ (c.tokenFor .comment ('/' :: '/' :: firstLine text)).Leaves s.recordsDirectives
                  found)
      ∧ ∀ (source : List Char) (config : ScannerConfig) (naming : Naming)
          (requests : List Request),
          ((create source config naming).serveAll requests).tokenize.KeepsNotes
            config.recordsDirectives := by
  refine ⟨fun s c text => s.next_lineComment c, ?_⟩
  intro source config naming requests
  obtain ⟨steps, run, -⟩ := serveAll_drain_scans (create source config naming) requests
  exact run.keepsNotes

/-- The note `// $ANTLR src "a" 7`. -/
def SourceNote.seventhLine : SourceNote :=
  {
    beforeWord := [' ']
    beforeFile := [' ']
    file := ['a']
    beforeLine := [' ']
    digits := ['7']
    wordGap := { filled := by decide, blank := List.forall_mem_singleton.mpr rfl }
    fileGap := { filled := by decide, blank := List.forall_mem_singleton.mpr rfl }
    quoted := (Enclosed.cons_iff (by decide) []).mpr ⟨rfl, by decide, .nil⟩
    lineGap := { filled := by decide, blank := List.forall_mem_singleton.mpr rfl }
    filled := by decide
    decimal := List.forall_mem_singleton.mpr rfl
    fits := by decide
  }

/-- A note with a comment behind it is kept, up to its line number. -/
theorem Lexer.lineComments_noted_of_seventhLine
    : let s := Scanner.create { recordsDirectives := true } uppercaseNaming
      let c := Cursor.ofText (SourceNote.seventhLine.text ++ [' ', 'x', '\n', 'y'])
      (s.next c).scanner.directives = [SourceNote.seventhLine.directive .start] := by
  intro s c
  obtain ⟨-, found, hdirectives, leaves⟩ := lineComments_noted.1 s c _ rfl
  have notes : found = some (SourceNote.seventhLine.directive .start) := by
    refine (leaves.notes _).mpr ⟨rfl, _, ⟨[' ', 'x'], by decide, ?_⟩, rfl⟩
    intro c hc
    cases hc
    rfl
  rw [hdirectives, notes]
  rfl

end GrammarFrontend
