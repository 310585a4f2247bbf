import GrammarFrontend.Proofs.Lexeme.Comments
import GrammarFrontend.Proofs.Scanner.Extents
import GrammarFrontend.Proofs.Scanner.Reports
import GrammarFrontend.Proofs.Source.Moves

/-! A scanner can be run from everywhere in a source. Wherever moves of the cursor and scans have led,
and whatever the scanner's mode and records are, the next step goes forward unless the input ends,
closes no brace or bracket that is not open, and cuts out of the source only texts of whole
characters. So a source is scanned in at most one step for each of its characters and one more.
-/

namespace GrammarFrontend

-----------------------------------------------------------------------------------------
-- Open braces and brackets
-----------------------------------------------------------------------------------------

/-- Code is read behind its opening mark with a count of the marks that are open. The count is
positive at every closing mark that the reading comes to, so that each can be counted down.
-/
structure Nesting.CountsDown (comments : Bool) (opening closing : Char) (text : List Char)
    (reading : Ending × Probe)
    : Prop where
  balanced : reading.1 ≠ .unbalanced
  positive
    : ∃ pieces,
        Cut comments pieces reading.2.rest
        ∧ opening :: text = pieces.flatten ++ reading.2.rest
        ∧ ∀ earlier later,
            pieces = earlier ++ [closing] :: later
            → earlier.count [closing] < earlier.count [opening]

/-- Reading level by level counts down only what is open. -/
theorem Nesting.Levels.countsDown {comments : Bool} {opening closing : Char}
    {pieces : List (List Char)} {text : List Char} {reading : Ending × Probe}
    (h : Levels comments opening closing 1 pieces reading.1 reading.2.rest)
    (hne : opening ≠ closing) (mark : ∀ c text, c = opening ∨ c = closing → Item comments [c] text)
    (split : text = pieces.flatten ++ reading.2.rest)
    : CountsDown comments opening closing text reading := by
  have whole : Levels comments opening closing 0 ([opening] :: pieces) reading.1 reading.2.rest :=
    .opened h
  constructor
  case balanced =>
    intro hending
    rcases h.ends with ⟨hclosed, -⟩ | ⟨hopen, -⟩
    · cases hending.symm.trans hclosed
    · cases hending.symm.trans hopen
  case positive =>
    refine ⟨[opening] :: pieces, whole.cut mark, congrArg (opening :: ·) split, ?_⟩
    intro earlier later hpieces
    cases earlier with
    | nil => exact absurd (List.cons.inj hpieces).1 (cons_ne_cons_of_head hne _ _)
    | cons first earlier =>
        obtain ⟨rfl, rfl⟩ := List.cons.inj hpieces
        have hproper : earlier ≠ earlier ++ [closing] :: later := by simp
        have hfewer := h.fewer hne Nat.one_pos (List.prefix_append _ _) (.inl hproper)
        rw [List.count_cons_self, List.count_cons_of_ne (cons_ne_cons_of_head hne _ _)]
        exact hfewer

theorem Nesting.closeBrace_countsDown (text : List Char) (trials : Trials)
    : CountsDown true '{' '}' text (closeBrace 1 { rest := text, trials }) := by
  obtain ⟨pieces, levels, split⟩ := closeBrace_levels (p := { rest := text, trials }) Nat.one_pos
  exact levels.countsDown (by decide) item_brace split

theorem Nesting.closeBracket_countsDown (text : List Char) (trials : Trials)
    : CountsDown false '[' ']' text (closeBracket 1 { rest := text, trials }) := by
  obtain ⟨pieces, levels, split⟩ := closeBracket_levels (p := { rest := text, trials }) Nat.one_pos
  exact levels.countsDown (by decide) item_bracket split

-----------------------------------------------------------------------------------------
-- Texts cut out of the source
-----------------------------------------------------------------------------------------

/-- The text between two places of the unread input is that of the span between them. -/
theorem Cursor.IsIn.textIn? {c : Cursor} {source : List Char} (h : c.IsIn source)
    {start stop : List Char} (hstart : start <:+ c.rest) (hstop : stop <:+ start)
    : ({ start := Scanner.placeOf c start, stop := Scanner.placeOf c stop } : Span).textIn? source
      = some (textBefore start stop) := by
  obtain ⟨before, stands⟩ := h.place
  let fault : Fault := { kind := .unrecognizedCharacter, start, stop }
  have hfault : fault.start <:+ c.rest := hstart
  exact Scanner.diagnosticOf_textIn? stands hfault hstop

namespace Scanner

/-- The texts that a step of the scanner may cut out of the source by their spans: the one of its
item, those of the faults in it, all that is left at a place to which it reads, the word that is
looked up in the tables, and the quoted file name and the digits of a note in a line comment,
wherever in the unread input it stands and even if the note turns out to be none.
-/
inductive Slices (s : Scanner) (c : Cursor) : Span → List Char → Prop
  | item {t : Token} (found : (s.next c).result.item? = some t) : Slices s c t.span t.text.toList
  | fault {x : Lexeme} {f : Fault}
    (found : Lexeme.read s.mode s.naming { rest := c.rest, trials := s.trials } = some x)
    (hf : f ∈ x.faults)
    : Slices s c { start := placeOf c f.start, stop := placeOf c f.stop } (textBefore f.start f.stop)
  | remaining {text : List Char} (ahead : text <:+ c.rest)
    : Slices s c { start := placeOf c text, stop := placeOf c [] } text
  | word
    : Slices s c { start := c.position, stop := placeOf c (c.rest.dropWhile isNameChar) }
        (c.rest.takeWhile isNameChar)
  | fileName {text file rest : List Char} (ahead : text <:+ c.rest)
    (found : Comment.fileName? text = some (file, rest))
    : Slices s c { start := placeOf c text, stop := placeOf c rest } ('"' :: (file ++ ['"']))
  | lineNumber {text : List Char} (ahead : text <:+ c.rest)
    : Slices s c { start := placeOf c text, stop := placeOf c (text.dropWhile Char.isDigit) }
        (text.takeWhile Char.isDigit)

theorem textBefore_of_fileName {text file rest : List Char}
    (found : Comment.fileName? text = some (file, rest))
    : textBefore text rest = '"' :: (file ++ ['"']) := by
  obtain ⟨-, rfl⟩ := Comment.fileName?_eq_some_iff.mp found
  have hquoted : '"' :: (file ++ '"' :: rest) = '"' :: (file ++ ['"']) ++ rest := by simp
  rw [hquoted, textBefore_append]

/-- Every text that a step cuts out stands in the source, by cases on the texts. -/
theorem Slices.textIn? {s : Scanner} {c : Cursor} {source text : List Char} {span : Span}
    (h : s.Slices c span text) (hc : c.IsIn source)
    : span.textIn? source = some text := by
  cases h with
  | item found =>
      cases hread : Lexeme.read s.mode s.naming { rest := c.rest, trials := s.trials } with
      | none => simp [next, hread, ScanResult.item?] at found
      | some x =>
          rw [(next_of_read hread).1, resultOf_item?] at found
          obtain rfl := Option.some.inj found
          have hrest : x.rest <:+ c.rest := Lexeme.read_rest_suffix hread
          have hslice := hc.textIn? (List.suffix_refl _) hrest
          rw [placeOf_rest] at hslice
          rw [tokenOf, String.toList_ofList]
          exact hslice
  | fault found hf =>
      obtain ⟨hstart, hstop⟩ := Lexeme.read_fault_suffix found _ hf
      exact hc.textIn? hstart hstop
  | remaining ahead =>
      have hslice := hc.textIn? ahead (List.nil_suffix)
      rwa [textBefore_nil] at hslice
  | word =>
      have hslice := hc.textIn? (List.suffix_refl _) (List.dropWhile_suffix isNameChar)
      rwa [placeOf_rest, textBefore_dropWhile] at hslice
  | fileName ahead found =>
      rw [← textBefore_of_fileName found]
      exact hc.textIn? ahead (Comment.fileName?_suffix found)
  | lineNumber ahead =>
      rw [← textBefore_dropWhile]
      exact hc.textIn? ahead (List.dropWhile_suffix _)

/-- A file name is left of its quoted text without the first byte and the last one. -/
theorem unquoted_of_fileName {text file rest : List Char}
    (found : Comment.fileName? text = some (file, rest))
    : let quoted := textBefore text rest
      2 ≤ utf8Length quoted
      ∧ (textFrom? 1 quoted).bind (textUpTo? (utf8Length quoted - 2)) = some file := by
  intro quoted
  have hquoted : quoted = '"' :: (file ++ ['"']) := textBefore_of_fileName found
  have hlength : utf8Length quoted = utf8Length file + 2 := by
    have hquote : utf8Length ['"'] = 1 := rfl
    rw [hquoted, utf8Length, utf8Length_append, hquote, Nat.add_comm]
    rfl
  have hfrom : textFrom? 1 quoted = some (file ++ ['"']) := by
    rw [hquoted]
    exact textFrom?_append ['"'] (file ++ ['"'])
  refine ⟨by omega, ?_⟩
  rw [hlength, hfrom, Option.bind_some, Nat.add_sub_cancel, textUpTo?_append]

-----------------------------------------------------------------------------------------
-- One step
-----------------------------------------------------------------------------------------

/-- All that can be relied on for the next step of a scanner at a place in a source: it finds the
end of the input exactly there, and otherwise moves over at least one character; what it counts
down is positive; and what it cuts out is there.
-/
structure StepsSafely (s : Scanner) (c : Cursor) (source : List Char) : Prop where
  atEnd : (s.next c).result = .eof ↔ c.offset = utf8Length source
  stays : (s.next c).result = .eof → (s.next c).cursor = c
  forward
    : (s.next c).result ≠ .eof
      → ∃ text, text ≠ [] ∧ text <+: c.rest ∧ (s.next c).cursor = c.advanceOver text
  braces
    : ∀ text,
        c.rest = '{' :: text
        → Nesting.CountsDown true '{' '}' text
            (Nesting.closeBrace 1 { rest := text, trials := s.trials })
  brackets
    : ∀ text,
        c.rest = '[' :: text
        → Nesting.CountsDown false '[' ']' text
            (Nesting.closeBracket 1 { rest := text, trials := s.trials })
  slices : ∀ span text, s.Slices c span text → span.textIn? source = some text
  unquoted
    : ∀ text file rest,
        Comment.fileName? text = some (file, rest)
        → let quoted := textBefore text rest
          2 ≤ utf8Length quoted
          ∧ (textFrom? 1 quoted).bind (textUpTo? (utf8Length quoted - 2)) = some file

/-- A step at the end of the input finds nothing and stays there. -/
theorem next_of_atEnd {s : Scanner} {c : Cursor} (h : c.rest = [])
    : s.next c = { result := .eof, scanner := s, cursor := c } := by
  have hread : Lexeme.read s.mode s.naming { rest := c.rest, trials := s.trials } = none :=
    Lexeme.read_eq_none_iff.mpr h
  simp only [next, hread]

/-- Before the end a step finds something, and moves over it. -/
theorem next_of_ahead {c : Cursor} (s : Scanner) (h : c.rest ≠ [])
    : (s.next c).result ≠ .eof
      ∧ ∃ text, text ≠ [] ∧ text <+: c.rest ∧ (s.next c).cursor = c.advanceOver text := by
  cases hread : Lexeme.read s.mode s.naming { rest := c.rest, trials := s.trials } with
  | none => exact absurd (Lexeme.read_eq_none_iff.mp hread) h
  | some x =>
      obtain ⟨hresult, -, -, -⟩ := next_of_read hread
      have hitem := resultOf_item? c x
      rw [← hresult] at hitem
      have hsuffix : x.rest <:+ c.rest := Lexeme.read_rest_suffix hread
      have hsplit := textBefore_append_of_suffix hsuffix
      refine ⟨?_, textBefore c.rest x.rest, ?_, ⟨x.rest, hsplit⟩, cursor_of_read hread hsplit.symm⟩
      · intro heof
        rw [heof] at hitem
        cases hitem
      · exact textBefore_ne_nil hsuffix (Lexeme.read_length_lt hread)

/-- A step keeps the cursor in the source. -/
theorem next_isIn (s : Scanner) {c : Cursor} {source : List Char} (h : c.IsIn source)
    : (s.next c).cursor.IsIn source := by
  by_cases hrest : c.rest = []
  · rw [next_of_atEnd hrest]
    exact h
  · obtain ⟨-, text, -, ahead, hcursor⟩ := s.next_of_ahead hrest
    rw [hcursor]
    exact h.advanceOver ahead

/-- From everywhere in a source every scanner steps safely. -/
theorem stepsSafely (s : Scanner) {c : Cursor} {source : List Char} (h : c.IsIn source)
    : s.StepsSafely c source := by
  constructor
  case atEnd =>
    rw [← h.rest_eq_nil_iff]
    constructor
    · intro heof
      by_contra hrest
      exact (s.next_of_ahead hrest).1 heof
    · intro hrest
      rw [next_of_atEnd hrest]
  case stays =>
    intro heof
    by_cases hrest : c.rest = []
    · rw [next_of_atEnd hrest]
    · exact absurd heof (s.next_of_ahead hrest).1
  case forward =>
    intro hne
    have hrest : c.rest ≠ [] := by
      intro hrest
      rw [next_of_atEnd hrest] at hne
      exact hne rfl
    exact (s.next_of_ahead hrest).2
  case braces => exact fun text _ => Nesting.closeBrace_countsDown text s.trials
  case brackets => exact fun text _ => Nesting.closeBracket_countsDown text s.trials
  case slices => exact fun span text hslice => hslice.textIn? h
  case unquoted => exact fun text file rest found => unquoted_of_fileName found

end Scanner

-----------------------------------------------------------------------------------------
-- Places that scans lead to
-----------------------------------------------------------------------------------------

/-- What a caller does with a cursor if it has scanners too: a move of its own, or a step of a
scanner in whatever state.
-/
inductive Use where
  | move (m : Move)
  | scan (s : Scanner)

namespace MarkedCursor

def use (c : MarkedCursor) : Use → MarkedCursor
  | .move m => c.move m
  | .scan s => c.withCursor (s.next c.cursor).cursor

def useAll (c : MarkedCursor) (uses : List Use) : MarkedCursor := uses.foldl use c

/-- No use of a cursor leads out of the source, by induction on the uses. -/
theorem IsIn.useAll {c : MarkedCursor} {source : List Char} (h : c.IsIn source) (uses : List Use)
    : (c.useAll uses).IsIn source := by
  induction uses generalizing c with
  | nil => exact h
  | cons u uses ih =>
      refine ih ?_
      cases u with
      | move m => exact h.move m
      | scan s => exact { h with cursor := s.next_isIn h.cursor }

end MarkedCursor

-----------------------------------------------------------------------------------------
-- The number of steps
-----------------------------------------------------------------------------------------

namespace Lexer

/-- Lets the scanner take one step, and keeps what it discards; at the end of the input there is no
next lexer.
-/
def scanOnce (l : Lexer) : Option Lexer :=
  let step := l.scanner.next l.cursor
  match step.result with
  | .eof => none
  | .token _ => some { l with scanner := step.scanner, cursor := step.cursor }
  | .skip token =>
      some { scanner := step.scanner, cursor := step.cursor, discarded := token :: l.discarded }
  | .error token diagnostic =>
      some {
        scanner := step.scanner.report diagnostic
        cursor := step.cursor
        discarded := token :: l.discarded
      }

/-- Scans the rest of the input if that takes at most so many steps, of which the last one finds
the end of the input.
-/
def drainWithin : Nat → Lexer → Option Lexer
  | 0, _ => none
  | steps + 1, l =>
      match l.scanOnce with
      | none => some l
      | some next => next.drainWithin steps

/-- A step of the scanner is one step of a run. -/
theorem scanOnce_of_found {s : Step} (found : s.lexer.lexeme? = some s.lexeme)
    : s.lexer.scanOnce = some s.after := by
  unfold lexeme? at found
  simp only [scanOnce, Scanner.next, found, Step.after, Step.scanner]
  cases s.lexeme.kind <;> simp [TokenKind.isDiscarded, Step.item]

theorem scanOnce_of_none {l : Lexer} (h : l.lexeme? = none) : l.scanOnce = none := by
  rw [scanOnce, Scanner.next_of_atEnd (lexeme?_eq_none_iff.mp h)]

/-- Draining depends on the next pull alone. -/
theorem drain_eq_of_pull_eq {l m : Lexer} (h : l.pull = m.pull) : l.drain = m.drain := by
  cases hpull : m.pull.1.isSome with
  | true => rw [drain_of_isSome hpull, drain_of_isSome (by rwa [h]), h]
  | false =>
      have hnone : m.pull.1.isNone = true := by simpa using hpull
      rw [drain_of_none hnone, drain_of_none (by rwa [h]), h]

/-- Draining ends in the same way before and after a step. -/
theorem drain_after {s : Step} (found : s.lexer.lexeme? = some s.lexeme)
    : s.after.drain = s.lexer.drain := by
  cases hd : s.lexeme.kind.isDiscarded with
  | true => exact drain_eq_of_pull_eq (pull_of_discarded found hd).symm
  | false =>
      have hpull := pull_of_kept found hd
      rw [drain_of_isSome (l := s.lexer) (by rw [hpull]; rfl), hpull]

/-- At the end of the input one step is enough. -/
theorem drainWithin_of_none {l : Lexer} (h : l.lexeme? = none) (steps : Nat)
    : l.drainWithin (steps + 1) = some l.drain := by
  have hpull := pull_of_none h
  have hdrain : l.drain = l := by rw [drain_of_none (by rw [hpull]; rfl), hpull]
  rw [drainWithin, scanOnce_of_none h, hdrain]

/-- One step for each character that is left and one more for the end are enough to drain a lexer,
by induction on the bound: a step leaves less to read.
-/
theorem drainWithin_eq_some (l : Lexer) {steps : Nat} (enough : l.cursor.rest.length ≤ steps)
    : l.drainWithin (steps + 1) = some l.drain := by
  induction steps generalizing l with
  | zero =>
      have hrest := List.eq_nil_of_length_eq_zero (Nat.le_zero.mp enough)
      exact drainWithin_of_none (lexeme?_eq_none_iff.mpr hrest) 0
  | succ steps ih =>
      cases found : l.lexeme? with
      | none => exact drainWithin_of_none found (steps + 1)
      | some x =>
          let s : Step := { lexer := l, lexeme := x }
          have hlt : s.after.cursor.rest.length < l.cursor.rest.length := s.after_length_lt found
          have hrest := ih s.after (by omega)
          rw [drainWithin, scanOnce_of_found (s := s) found]
          exact hrest.trans (congrArg some (drain_after (s := s) found))

/-- The steps of a run are paid for by what was left to read before it, by induction on the run. -/
theorem Scans.steps_le {first last : Lexer} {steps : List Step} (run : Scans first steps last)
    : last.cursor.rest.length + steps.length ≤ first.cursor.rest.length := by
  induction run with
  | refl l => exact Nat.le_refl _
  | @step s steps last found _ ih =>
      have hlt := s.after_length_lt found
      rw [List.length_cons]
      omega
  | setMode mode _ ih => exact ih

end Lexer

/-- Wherever uses of a cursor lead in a source, every scanner steps safely from there. Whatever was
asked of a lexer before, to scan the rest of its source takes at most one step for each character of
the source and one for its end.
-/
theorem Scanner.steps_safely_everywhere (source : List Char) (config : ScannerConfig)
    (naming : Naming) (uses : List Use) (requests : List Lexer.Request)
    : (∀ s : Scanner, s.StepsSafely ((MarkedCursor.ofText source).useAll uses).cursor source)
      ∧ let l := (Lexer.create source config naming).serveAll requests
        (l.drainWithin (source.length + 1)).map Lexer.stream = some l.tokenize := by
  constructor
  · intro s
    exact s.stepsSafely ((MarkedCursor.isIn_ofText source).useAll uses).cursor
  · intro l
    obtain ⟨steps, run⟩ := Lexer.serveAll_scans (Lexer.create source config naming) requests
    have enough : l.cursor.rest.length ≤ source.length :=
      Nat.le_trans (Nat.le_add_right _ _) run.steps_le
    rw [l.drainWithin_eq_some enough]
    rfl

/-- Back at the start of a source with a closing brace too many, a scanner counts down only the brace
that is open, and goes forward.
-/
theorem Scanner.steps_safely_everywhere_strayBrace
    : let s := create {} uppercaseNaming
      let c :=
        ((MarkedCursor.ofText ['{', '}', '}']).useAll [.scan s, .move .advance, .move (.seek 0)]).cursor
      c.rest = '{' :: ['}', '}']
      ∧ (Nesting.closeBrace 1 { rest := ['}', '}'], trials := s.trials }).1 ≠ .unbalanced
      ∧ (s.next c).result ≠ .eof
      ∧ ∃ text, text ≠ [] ∧ text <+: c.rest ∧ (s.next c).cursor = c.advanceOver text := by
  intro s c
  obtain ⟨safely, -⟩ := steps_safely_everywhere ['{', '}', '}'] {} uppercaseNaming
    [.scan s, .move .advance, .move (.seek 0)] []
  have hrest : c.rest = '{' :: ['}', '}'] := by decide +kernel
  have hne : (s.next c).result ≠ .eof := by
    intro heof
    have hend : c.offset = 3 := (safely s).atEnd.mp heof
    revert hend
    decide +kernel
  exact ⟨hrest, ((safely s).braces _ hrest).balanced, hne, (safely s).forward hne⟩

end GrammarFrontend
