import GrammarFrontend.Proofs.Lexeme.Faults
import GrammarFrontend.Proofs.Lexeme.Trials
import GrammarFrontend.Proofs.Scanner.Tiling
import GrammarFrontend.Proofs.Source.Moves
import Mathlib.Data.List.Forall2

/-! What is wrong with a source is reported item by item. Every diagnostic quotes the source, and
the reports of a run fall into consecutive groups, one for each item in the order of the source; the
kind of the item says what its group can hold. No trial is running between two steps, so that no
report is held back.
-/

namespace GrammarFrontend

-----------------------------------------------------------------------------------------
-- Places in a source
-----------------------------------------------------------------------------------------

/-- What comes before a place in a text, in two parts that meet at an earlier place. -/
theorem textBefore_trans {text earlier later : List Char} (he : earlier <:+ text)
    (hl : later <:+ earlier)
    : textBefore text later = textBefore text earlier ++ textBefore earlier later := by
  obtain ⟨first, rfl⟩ := he
  obtain ⟨second, rfl⟩ := hl
  rw [textBefore_append, textBefore_append, ← List.append_assoc, textBefore_append]

namespace Scanner

/-- The place of the cursor is its position. -/
theorem placeOf_rest (c : Cursor) : placeOf c c.rest = c.position := by
  have he : textBefore c.rest c.rest = [] := by simp [textBefore]
  rw [placeOf, he, Position.advanceOver_nil]

/-- A later place is reached from an earlier one by moving over what lies between. -/
theorem placeOf_of_suffix {c : Cursor} {earlier later : List Char} (he : earlier <:+ c.rest)
    (hl : later <:+ earlier)
    : placeOf c later = (placeOf c earlier).advanceOver (textBefore earlier later) := by
  rw [placeOf, placeOf, textBefore_trans he hl, Position.advanceOver_append]

/-- A later place has at least the offset of an earlier one, and more if less is left there. -/
theorem placeOf_offset {c : Cursor} {earlier later : List Char} (he : earlier <:+ c.rest)
    (hl : later <:+ earlier)
    : (placeOf c earlier).offset ≤ (placeOf c later).offset
      ∧ (later.length < earlier.length
        → (placeOf c earlier).offset < (placeOf c later).offset) := by
  have hoffset := congrArg Position.offset (placeOf_of_suffix he hl)
  rw [Position.advanceOver_offset] at hoffset
  refine ⟨by omega, ?_⟩
  intro hlt
  have hpos := utf8Length_pos (textBefore_ne_nil hl hlt)
  omega

/-- The diagnostic of a fault has the text of its span as argument. -/
theorem diagnosticOf_textIn? {c : Cursor} {source before : List Char} {fault : Fault}
    (stands : c.StandsIn source before) (hstart : fault.start <:+ c.rest)
    (hstop : fault.stop <:+ fault.start)
    : ({ start := placeOf c fault.start, stop := placeOf c fault.stop } : Span).textIn? source
      = some (textBefore fault.start fault.stop) := by
  obtain ⟨hsource, hposition⟩ := stands
  have hbegin
      : (placeOf c fault.start).offset
        = utf8Length (before ++ textBefore c.rest fault.start) := by
    rw [placeOf, Position.advanceOver_offset, hposition, Position.advanceOver_offset,
      utf8Length_append]
    exact congrArg (· + _) (Nat.zero_add _)
  have hsplit
      : source
        = (before ++ textBefore c.rest fault.start)
          ++ (textBefore fault.start fault.stop ++ fault.stop) := by
    rw [textBefore_append_of_suffix hstop, List.append_assoc, textBefore_append_of_suffix hstart,
      hsource]
  refine Span.textIn?_of_split hsplit hbegin ?_
  rw [← hbegin, ← Position.advanceOver_offset, ← placeOf_of_suffix hstart hstop]

end Scanner

-----------------------------------------------------------------------------------------
-- The reports that belong to an item
-----------------------------------------------------------------------------------------

/-- A diagnostic of the whole of a token, with its text as argument. -/
def Token.fault (t : Token) (kind : DiagnosticKind) : Diagnostic :=
  { kind, span := some t.span, args := [t.text] }

/-- The diagnostic has a span, and the text of that span is its only argument. -/
def Diagnostic.Quotes (d : Diagnostic) (source : List Char) : Prop :=
  ∃ span text, d.span = some span ∧ d.args = [text] ∧ span.textIn? source = some text.toList

/-- The token reaches to the end of the source. -/
def Token.EndsSource (t : Token) (source : List Char) : Prop :=
  t.span.stop.offset = utf8Length source

/-- A line break or the end of the source follows the token. -/
def Token.EndsLine (t : Token) (source : List Char) : Prop :=
  ∃ rest, textFrom? t.span.stop.offset source = some rest ∧ AtLineEnd rest

/-- Diagnostics of wrong escapes with disjoint increasing spans between two offsets. -/
def EscapesBetween : Nat → List Diagnostic → Nat → Prop
  | first, [], last => first ≤ last
  | first, d :: reports, last =>
      d.kind = .invalidEscapeSequence
      ∧ ∃ span,
          d.span = some span
          ∧ first ≤ span.start.offset
          ∧ span.start.offset < span.stop.offset
          ∧ EscapesBetween span.stop.offset reports last

/-- At most one diagnostic, of the whole of a token that ends in a certain way. -/
def Token.CutShort (t : Token) (kind : DiagnosticKind) (ends : Prop) (reports : List Diagnostic)
    : Prop :=
  reports = [] ∨ reports = [t.fault kind] ∧ ends

/-- The reports that an item of a source can have: exactly one for a character that begins no token,
those of the escapes and of the end for a string literal, at most one for other delimited text, and
none for any other item. A line comment is never cut short.
-/
def Token.Explains (t : Token) (source : List Char) (reports : List Diagnostic) : Prop :=
  match t.kind with
  | .errorChar => reports = [t.fault .unrecognizedCharacter]
  | .stringLiteral =>
      ∃ escapes cut,
        reports = escapes ++ cut
        ∧ EscapesBetween t.span.start.offset escapes t.span.stop.offset
        ∧ t.CutShort .unterminatedStringLiteral (t.EndsLine source) cut
  | .comment =>
      t.CutShort .unterminatedComment
        (['/', '*'] <+: t.text.toList ∧ t.EndsSource source) reports
  | .docComment => t.CutShort .unterminatedDocComment (t.EndsSource source) reports
  | .action => t.CutShort .unterminatedAction (t.EndsSource source) reports
  | .argAction => t.CutShort .unterminatedArgAction (t.EndsSource source) reports
  | .charSet => t.CutShort .unterminatedCharSet (t.EndsLine source) reports
  | _ => reports = []

-----------------------------------------------------------------------------------------
-- One item
-----------------------------------------------------------------------------------------

/-- A fault of a whole lexeme becomes a diagnostic of the whole token. -/
theorem Scanner.diagnosticOf_whole (c : Cursor) (x : Lexeme) (kind : DiagnosticKind)
    : diagnosticOf c { kind, start := c.rest, stop := x.rest } = (tokenOf c x).fault kind := by
  rw [diagnosticOf, placeOf_rest]
  rfl

/-- Ordered faults of escapes become diagnostics with increasing spans, by induction on them. -/
theorem Scanner.escapesBetween_of_ordered {c : Cursor} {start stop : List Char}
    {faults : List Fault} (h : Fault.Ordered .invalidEscapeSequence start faults stop)
    (hs : start <:+ c.rest)
    : EscapesBetween (placeOf c start).offset (faults.map (diagnosticOf c))
        (placeOf c stop).offset := by
  induction faults generalizing start with
  | nil => exact (placeOf_offset hs h).1
  | cons f faults ih =>
      obtain ⟨kind, hstart, hstop, hlt, rest⟩ := h
      have inside := hstart.trans hs
      refine ⟨kind, _, rfl, (placeOf_offset hs hstart).1, ?_, ih rest (hstop.trans inside)⟩
      exact (placeOf_offset inside hstop).2 hlt

namespace Lexer

/-- A step moves the cursor behind the text of its item. -/
theorem Step.after_standsIn {s : Step} {source before : List Char}
    (found : s.lexer.lexeme? = some s.lexeme) (stands : s.lexer.cursor.StandsIn source before)
    : s.after.cursor.StandsIn source (before ++ s.item.text.toList) := by
  obtain ⟨hsource, hposition⟩ := stands
  constructor
  · rw [hsource, List.append_assoc]
    exact congrArg (before ++ ·) (s.item_text_append found).symm
  · rw [Position.advanceOver_append, ← hposition, ← s.item_start]
    exact s.item_stop

/-- An item after which nothing is left reaches to the end of the source. -/
theorem Step.endsSource {s : Step} {source before : List Char}
    (found : s.lexer.lexeme? = some s.lexeme) (stands : s.lexer.cursor.StandsIn source before)
    (h : s.lexeme.rest = [])
    : s.item.EndsSource source := by
  obtain ⟨hsource, hposition⟩ := s.after_standsIn found stands
  have hrest : s.after.cursor.rest = [] := h
  rw [hrest, List.append_nil] at hsource
  have hstop : s.item.span.stop = Position.start.advanceOver source := by
    rw [hsource]
    exact hposition
  rw [Token.EndsSource, hstop, Position.advanceOver_offset]
  exact Nat.zero_add _

/-- An item after which a line ends, or nothing is left, is followed by that in the source. -/
theorem Step.endsLine {s : Step} {source before : List Char}
    (found : s.lexer.lexeme? = some s.lexeme) (stands : s.lexer.cursor.StandsIn source before)
    (h : AtLineEnd s.lexeme.rest)
    : s.item.EndsLine source := by
  obtain ⟨hsource, hposition⟩ := s.after_standsIn found stands
  refine ⟨s.lexeme.rest, ?_, h⟩
  have hstop : s.item.span.stop.offset = utf8Length (before ++ s.item.text.toList) := by
    have hoffset := congrArg Position.offset hposition
    rw [Position.advanceOver_offset] at hoffset
    exact hoffset.trans (Nat.zero_add _)
  rw [hstop, hsource]
  exact textFrom?_append _ _

/-- Everything that a step reports quotes the source: the faults lie in the lexeme, and a character
that begins no token is reported whole.
-/
theorem Step.quotes {s : Step} {source before : List Char}
    (found : s.lexer.lexeme? = some s.lexeme) (stands : s.lexer.cursor.StandsIn source before)
    : ∀ d ∈ s.reports, d.Quotes source := by
  have quotes {f : Fault} (hstart : f.start <:+ s.lexer.cursor.rest) (hstop : f.stop <:+ f.start)
      : (Scanner.diagnosticOf s.lexer.cursor f).Quotes source := by
    refine ⟨_, _, rfl, rfl, ?_⟩
    rw [String.toList_ofList]
    exact Scanner.diagnosticOf_textIn? stands hstart hstop
  intro d hd
  rcases List.mem_append.mp hd with hd | hd
  · obtain ⟨f, hf, rfl⟩ := List.mem_map.mp hd
    obtain ⟨hstart, hstop⟩ := Lexeme.read_fault_suffix found f hf
    exact quotes hstart hstop
  · split at hd
    · obtain rfl := List.mem_singleton.mp hd
      have hrest : s.lexeme.rest <:+ s.lexer.cursor.rest := Lexeme.read_rest_suffix found
      have hwhole := Scanner.diagnosticOf_whole s.lexer.cursor s.lexeme .unrecognizedCharacter
      exact (show Scanner.unrecognized s.item = _ from hwhole.symm)
        ▸ quotes (List.suffix_refl _) hrest
    · simp at hd

/-- A lexeme without faults that is no wrong character reports nothing. -/
theorem Step.reports_of_plain {s : Step} {kind : TokenKind} {next : Probe}
    (h : s.lexeme = .plain kind next) (hkind : kind ≠ .errorChar)
    : s.reports = [] := by
  have hne : s.lexeme.kind ≠ .errorChar := by rwa [h]
  rw [Step.reports, if_neg hne, h]
  rfl

/-- A lexeme cut short reports that about its whole item. -/
theorem Step.reports_of_unterminated {s : Step} {kind : TokenKind} {next : Probe}
    {fault : DiagnosticKind}
    (h : s.lexeme = .unterminated kind next s.lexer.cursor.rest fault) (hkind : kind ≠ .errorChar)
    : s.reports = [s.item.fault fault] := by
  have hne : s.lexeme.kind ≠ .errorChar := by rwa [h]
  have hfaults
      : s.lexeme.faults
        = [{ kind := fault, start := s.lexer.cursor.rest, stop := s.lexeme.rest }] := by
    rw [h]
    rfl
  rw [Step.reports, if_neg hne, hfaults, List.append_nil, List.map_singleton,
    Scanner.diagnosticOf_whole]
  rfl

/-- What a string literal reports: its escapes one after another, and then that it is cut short. -/
theorem Step.reports_of_stringLiteral {s : Step} {source before : List Char} {p : Probe}
    (found : s.lexer.lexeme? = some s.lexeme) (stands : s.lexer.cursor.StandsIn source before)
    (hlexeme : s.lexeme = StringLiteral.read p) (hp : p.rest = s.lexer.cursor.rest)
    : ∃ escapes cut,
        s.reports = escapes ++ cut
        ∧ EscapesBetween s.item.span.start.offset escapes s.item.span.stop.offset
        ∧ s.item.CutShort .unterminatedStringLiteral (s.item.EndsLine source) cut := by
  obtain ⟨faults, ordered, hfaults⟩ := StringLiteral.read_faults p
  rw [← hlexeme, hp] at ordered hfaults
  have hne : s.lexeme.kind ≠ .errorChar := by simp [hlexeme, StringLiteral.read]
  have between := Scanner.escapesBetween_of_ordered ordered (List.suffix_refl _)
  rw [Scanner.placeOf_rest] at between
  rcases hfaults with hfaults | ⟨hfaults, ends⟩
  · refine ⟨_, [], ?_, between, .inl rfl⟩
    rw [Step.reports, if_neg hne, hfaults]
  · refine ⟨_, _, ?_, between, .inr ⟨rfl, s.endsLine found stands ends⟩⟩
    rw [Step.reports, if_neg hne, hfaults, List.map_append, List.append_nil, List.map_singleton,
      Scanner.diagnosticOf_whole]
    rfl

/-- A step reports exactly what its item explains, by the recogniser that the item comes from. Only
undelimited items can be characters that begin no token.
-/
theorem Step.explains {s : Step} {source before : List Char}
    (found : s.lexer.lexeme? = some s.lexeme) (stands : s.lexer.cursor.StandsIn source before)
    : s.item.Explains source s.reports := by
  have hitem : s.item.kind = s.lexeme.kind := rfl
  have happ := s.item_text_append found
  obtain ⟨x, hx⟩ : ∃ x, s.lexeme = x := ⟨_, rfl⟩
  have endsSource : x.rest = [] → s.item.EndsSource source :=
    fun hrest => s.endsSource found stands (hx ▸ hrest)
  have endsLine : AtLineEnd x.rest → s.item.EndsLine source :=
    fun hrest => s.endsLine found stands (hx ▸ hrest)
  rw [Token.Explains, hitem, hx]
  rw [hx] at happ
  cases Lexeme.read_recognised (hx ▸ found) with
  | @blockComment text opens =>
      obtain ⟨next, he | he | ⟨he, hrest⟩ | ⟨he, hrest⟩⟩ := Comment.block_cases _ <;>
        rw [he] at hx happ endsSource ⊢
      · exact .inl (Step.reports_of_plain hx (by decide))
      · exact .inl (Step.reports_of_plain hx (by decide))
      · refine .inr ⟨Step.reports_of_unterminated hx (by decide), ?_, endsSource hrest⟩
        -- Nothing is left after the comment, so that its text is all that was left before it.
        have htext : s.item.text.toList ++ next.rest = '/' :: '*' :: text := happ.trans opens
        rw [hrest, List.append_nil] at htext
        exact ⟨text, htext.symm⟩
      · exact .inr ⟨Step.reports_of_unterminated hx (by decide), endsSource hrest⟩
  | lineComment =>
      refine .inl ?_
      have hne : s.lexeme.kind ≠ .errorChar := by simp [hx, Comment.line]
      rw [Step.reports, if_neg hne, hx]
      rfl
  | action =>
      obtain ⟨next, he | he | ⟨he, hrest⟩⟩ := Nesting.action_cases _ <;>
        rw [he] at hx endsSource ⊢
      · exact .inl (Step.reports_of_plain hx (by decide))
      · exact Step.reports_of_plain hx (by decide)
      · exact .inr ⟨Step.reports_of_unterminated hx (by decide), endsSource hrest⟩
  | charSet =>
      obtain ⟨next, he | ⟨he, hrest⟩⟩ := CharSet.read_cases _ <;> rw [he] at hx endsLine ⊢
      · exact .inl (Step.reports_of_plain hx (by decide))
      · exact .inr ⟨Step.reports_of_unterminated hx (by decide), endsLine hrest⟩
  | argAction =>
      obtain ⟨next, he | ⟨he, hrest⟩⟩ := Nesting.argAction_cases _ <;> rw [he] at hx endsSource ⊢
      · exact .inl (Step.reports_of_plain hx (by decide))
      · exact .inr ⟨Step.reports_of_unterminated hx (by decide), endsSource hrest⟩
  | stringLiteral => exact s.reports_of_stringLiteral found stands hx rfl
  | @undelimited c text =>
      obtain ⟨kind, next, hkind, he⟩ := Lexeme.undelimited_eq_plain _ _ c text
      rw [he] at hx ⊢
      by_cases herror : kind = .errorChar
      · subst herror
        rw [Step.reports, hx]
        rfl
      · have hreports := Step.reports_of_plain hx herror
        cases kind <;> first | exact hreports | simp_all [TokenKind.isUndelimited]

/-- No trial of a step is left running. -/
theorem Step.after_depth {s : Step} (found : s.lexer.lexeme? = some s.lexeme)
    : s.after.scanner.trials.depth = s.lexer.scanner.trials.depth := by
  have hdepth : s.lexeme.next.trials.depth = s.lexer.scanner.trials.depth :=
    Lexeme.read_depth found
  rw [← hdepth]
  simp only [after, scanner, Scanner.absorb_eq, Scanner.report]
  split
  · rfl
  · split <;> rfl
  · rfl

/-- A step keeps all that it reports, because no trial is running. -/
theorem Step.after_diagnostics {s : Step} (found : s.lexer.lexeme? = some s.lexeme)
    (idle : s.lexer.scanner.trials.depth = 0)
    : s.after.diagnostics = s.lexer.diagnostics ++ s.reports := by
  have hdepth : s.lexeme.next.trials.depth = 0 := (Lexeme.read_depth found).trans idle
  simp only [diagnostics, after, scanner, reports, Scanner.absorb_eq, Scanner.report, hdepth]
  cases hkind : s.lexeme.kind <;> simp

-----------------------------------------------------------------------------------------
-- Runs
-----------------------------------------------------------------------------------------

/-- A run reports what its steps report, group by group. The induction is on the steps; each one
leaves the next without a running trial and behind the text of its item.
-/
theorem Scans.explained {l last : Lexer} {steps : List Step} {source before : List Char}
    (run : Scans l steps last) (idle : l.scanner.trials.depth = 0)
    (stands : l.cursor.StandsIn source before)
    : last.diagnostics = l.diagnostics ++ (steps.map (·.reports)).flatten
      ∧ (∀ d ∈ (steps.map (·.reports)).flatten, d.Quotes source)
      ∧ List.Forall₂ (fun t reports => t.Explains source reports)
          (steps.map (·.item)) (steps.map (·.reports)) := by
  induction run generalizing before with
  | refl l => exact ⟨by simp, by simp, .nil⟩
  | @step s steps last found more ih =>
      obtain ⟨hdiagnostics, quotes, explained⟩ :=
        ih ((s.after_depth found).trans idle) (s.after_standsIn found stands)
      refine ⟨?_, ?_, .cons (s.explains found stands) explained⟩
      · rw [hdiagnostics, s.after_diagnostics found idle, List.append_assoc]
        rfl
      · intro d hd
        rcases List.mem_append.mp hd with hd | hd
        · exact s.quotes found stands d hd
        · exact quotes d hd
  | setMode mode more ih => exact ih idle stands

end Lexer

-----------------------------------------------------------------------------------------
-- The diagnostics of a source
-----------------------------------------------------------------------------------------

/-- The diagnostics of a stream of items in a source: each one quotes the source, and they fall into
consecutive groups, one for each item, that the items explain.
-/
structure TokenStream.Accounts (s : TokenStream) (source : List Char)
    (diagnostics : List Diagnostic) : Prop where
  quotes : ∀ d ∈ diagnostics, d.Quotes source
  grouped
    : ∃ groups : List (List Diagnostic),
        groups.flatten = diagnostics
        ∧ List.Forall₂ (fun t reports => t.Explains source reports) s.items groups

/-- However tokens are pulled and the mode is changed before the rest is scanned, the items of the
stream account for all diagnostics.
-/
theorem Lexer.diagnostics_accounted (source : List Char) (config : ScannerConfig)
    (naming : Naming) (requests : List Request)
    : let done := ((create source config naming).serveAll requests).drain
      done.stream.Accounts source done.diagnostics := by
  obtain ⟨steps, run, -⟩ := serveAll_drain_scans (create source config naming) requests
  have stands : (create source config naming).cursor.StandsIn source [] := ⟨rfl, rfl⟩
  obtain ⟨hdiagnostics, quotes, explained⟩ := run.explained rfl stands
  generalize ((create source config naming).serveAll requests).drain = done at *
  have hflat : done.diagnostics = (steps.map (·.reports)).flatten := hdiagnostics
  constructor
  case quotes => exact hflat ▸ quotes
  case grouped =>
    -- The end of the input has an empty group of its own.
    refine ⟨steps.map (·.reports) ++ [[]], by simp [hflat], ?_⟩
    rw [run.stream_items.1]
    exact List.rel_append explained (.cons rfl .nil)

end GrammarFrontend
