import GrammarFrontend.Proofs.Lexeme.Rereading
import GrammarFrontend.Proofs.Scanner.Reports

/-! Items scanned again. The text of an item alone, given to a fresh scanner in the mode in which
the item was found, is one item of the same kind, with the same diagnostics and directives. Only
the places differ, by the place where the item begins.
-/

namespace GrammarFrontend

/-- The diagnostic `d` of a text that begins at `base` is `e` when the text stands alone. -/
structure Diagnostic.Shifted (base : Position) (e d : Diagnostic) : Prop where
  kind : d.kind = e.kind
  args : d.args = e.args
  span
    : ∃ alone whole : Span,
        e.span = some alone
        ∧ d.span = some whole
        ∧ whole.start.offset = base.offset + alone.start.offset
        ∧ whole.stop.offset = base.offset + alone.stop.offset

/-- Two directives name one line of one file. -/
def Directive.SameOrigin (e d : Directive) : Prop := d.file = e.file ∧ d.line = e.line

namespace ScanResult

/-- The item that was found. -/
def item? : ScanResult → Option Token
  | token t | skip t | error t _ => some t
  | eof => none

/-- Two results of one variant, with items of one kind and text; the second one was found at
`base` and the first one in a text of its own. -/
inductive Repeats (base : Position) : ScanResult → ScanResult → Prop
  | token {u t : Token} (kind : t.kind = u.kind) (text : t.text = u.text)
    : Repeats base (.token u) (.token t)
  | skip {u t : Token} (kind : t.kind = u.kind) (text : t.text = u.text)
    : Repeats base (.skip u) (.skip t)
  | error {u t : Token} {e d : Diagnostic} (kind : t.kind = u.kind) (text : t.text = u.text)
    (diagnostic : e.Shifted base d)
    : Repeats base (.error u e) (.error t d)

end ScanResult

-----------------------------------------------------------------------------------------
-- One step of a scanner
-----------------------------------------------------------------------------------------

namespace Scanner

/-- What a scanner makes of the lexeme at the cursor. -/
def resultOf (c : Cursor) (x : Lexeme) : ScanResult :=
  match x.kind with
  | .byteOrderMark => .skip (tokenOf c x)
  | .errorChar => .error (tokenOf c x) (unrecognized (tokenOf c x))
  | _ => .token (tokenOf c x)

theorem resultOf_item? (c : Cursor) (x : Lexeme) : (resultOf c x).item? = some (tokenOf c x) := by
  unfold resultOf
  split <;> rfl

/-- A step with a lexeme at the cursor moves behind it, and gives what is made of it. -/
theorem next_of_read {s : Scanner} {c : Cursor} {x : Lexeme}
    (found : Lexeme.read s.mode s.naming { rest := c.rest, trials := s.trials } = some x)
    : (s.next c).result = resultOf c x
      ∧ (s.next c).cursor.rest = x.rest
      ∧ (s.next c).scanner.reported = (s.absorb c x).reported
      ∧ (s.next c).scanner.directives = (s.absorb c x).directives := by
  simp only [next, found]
  split <;> simp_all [resultOf]

end Scanner

-----------------------------------------------------------------------------------------
-- A lexeme in its source and alone
-----------------------------------------------------------------------------------------

/-- A lexeme in its place at a cursor, and the same lexeme in a text of its own. -/
structure Lexeme.Isolated (c : Cursor) (whole alone : Lexeme) : Prop where
  goesOn : GoesOn whole.rest alone whole
  inText : whole.rest <:+ c.rest
  faults
    : ∀ f ∈ alone.faults,
        f.start <:+ textBefore c.rest whole.rest ∧ f.stop <:+ f.start

namespace Lexeme.Isolated

variable {c : Cursor} {whole alone : Lexeme}

/-- The text of the lexeme, as a source of its own. -/
abbrev source (c : Cursor) (whole : Lexeme) : Cursor := .ofText (textBefore c.rest whole.rest)

/-- What is found in a source is found in its own text alone. -/
theorem exists_of_read {mode : ScanMode} {naming : Naming} {trials : Trials}
    (found : read mode naming { rest := c.rest, trials } = some whole) (others : Trials)
    : ∃ alone,
        read mode naming { rest := textBefore c.rest whole.rest, trials := others } = some alone
        ∧ Isolated c whole alone := by
  have inText : whole.rest <:+ c.rest := read_rest_suffix found
  rw [← textBefore_append_of_suffix inText] at found
  obtain ⟨alone, hread, goesOn⟩ := read_alone found rfl others
  exact ⟨alone, hread, { goesOn, inText, faults := read_fault_suffix hread }⟩

theorem rest_eq_nil (h : Isolated c whole alone) : alone.rest = [] := by
  have hrest := h.goesOn.rest
  rw [List.self_eq_append_left] at hrest
  exact hrest

/-- A place in the lexeme is as far behind its begin in the source as in its text alone. -/
theorem placeOf_offset (h : Isolated c whole alone) {place : List Char}
    (hp : place <:+ textBefore c.rest whole.rest)
    : (Scanner.placeOf c (place ++ whole.rest)).offset
      = c.position.offset + (Scanner.placeOf (source c whole) place).offset := by
  have hall := textBefore_append_of_suffix h.inText
  have hbefore
      : textBefore c.rest (place ++ whole.rest)
        = textBefore (textBefore c.rest whole.rest) place := by
    rw [← textBefore_append_append hp whole.rest, hall]
  rw [Scanner.placeOf, Scanner.placeOf, Position.advanceOver_offset, Position.advanceOver_offset,
    hbefore]
  exact congrArg (c.position.offset + ·) (Nat.zero_add _).symm

/-- The diagnostic of a fault in the lexeme shifts with it. -/
theorem diagnosticOf (h : Isolated c whole alone) {f : Fault}
    (hstart : f.start <:+ textBefore c.rest whole.rest) (hstop : f.stop <:+ f.start)
    : (Scanner.diagnosticOf (source c whole) f).Shifted c.position
        (Scanner.diagnosticOf c (f.followedBy whole.rest)) := by
  constructor
  case kind => rfl
  case args =>
    exact congrArg (fun text => [String.ofList text]) (textBefore_append_append hstop whole.rest)
  case span =>
    exact ⟨_, _, rfl, rfl, h.placeOf_offset hstart, h.placeOf_offset (hstop.trans hstart)⟩

/-- The diagnostics of all faults shift with the lexeme, because the faults lie in it. -/
theorem diagnostics (h : Isolated c whole alone)
    : List.Forall₂ (Diagnostic.Shifted c.position)
        (alone.faults.map (Scanner.diagnosticOf (source c whole)))
        (whole.faults.map (Scanner.diagnosticOf c)) := by
  rw [h.goesOn.faults, List.map_map, List.forall₂_map_left_iff, List.forall₂_map_right_iff,
    List.forall₂_same]
  intro f hf
  obtain ⟨hstart, hstop⟩ := h.faults f hf
  exact h.diagnosticOf hstart hstop

/-- The diagnostic of a character that begins no token shifts with it. -/
theorem unrecognized (h : Isolated c whole alone)
    : (Scanner.unrecognized (Scanner.tokenOf (source c whole) alone)).Shifted c.position
        (Scanner.unrecognized (Scanner.tokenOf c whole)) := by
  have hshift := h.diagnosticOf
    (f := {
      kind := .unrecognizedCharacter
      start := textBefore c.rest whole.rest
      stop := []
    })
    (List.suffix_refl _) List.nil_suffix
  have halone := Scanner.diagnosticOf_whole (source c whole) alone .unrecognizedCharacter
  have hwhole := Scanner.diagnosticOf_whole c whole .unrecognizedCharacter
  rw [h.rest_eq_nil] at halone
  rw [Fault.followedBy, textBefore_append_of_suffix h.inText] at hshift
  exact (hwhole ▸ halone ▸ hshift :)

/-- The directives name the same lines of the same files. -/
theorem directives (h : Isolated c whole alone)
    : List.Forall₂ Directive.SameOrigin
        (alone.origin.toList.map (Scanner.directiveOf (source c whole)))
        (whole.origin.toList.map (Scanner.directiveOf c)) := by
  rw [h.goesOn.origin]
  cases alone.origin with
  | none => exact .nil
  | some origin => exact .cons ⟨rfl, rfl⟩ .nil

/-- The item has the same kind and the same text. -/
theorem tokenOf (h : Isolated c whole alone)
    : (Scanner.tokenOf c whole).kind = (Scanner.tokenOf (source c whole) alone).kind
      ∧ (Scanner.tokenOf c whole).text = (Scanner.tokenOf (source c whole) alone).text := by
  refine ⟨h.goesOn.kind.symm, ?_⟩
  have hempty := textBefore_append (textBefore c.rest whole.rest) []
  rw [List.append_nil, ← h.rest_eq_nil] at hempty
  exact congrArg String.ofList hempty.symm

/-- What is made of the lexeme in the source is what is made of it alone. -/
theorem resultOf (h : Isolated c whole alone)
    : ScanResult.Repeats c.position (Scanner.resultOf (source c whole) alone)
        (Scanner.resultOf c whole) := by
  obtain ⟨hkind, htext⟩ := h.tokenOf
  unfold Scanner.resultOf
  rw [← h.goesOn.kind]
  split
  · exact .skip hkind htext
  · exact .error hkind htext h.unrecognized
  · exact .token hkind htext

end Lexeme.Isolated

namespace Lexer

/-- The scan of an item where it stands. -/
def Step.scan (s : Step) : ScanStep := s.lexer.scanner.next s.lexer.cursor

/-- The scan of the text of an item alone, with a fresh scanner in the mode of the step. -/
def Step.rescan (s : Step) (config : ScannerConfig) (naming : Naming) : ScanStep :=
  ((Scanner.create config naming).setMode s.lexer.mode).next (.ofText s.item.text.toList)

/-- Scanning the text of an item alone repeats the scan of the item: the result, all of the text,
and what the scan adds to the reports and to the directives.
-/
structure Step.Rescans (s : Step) (config : ScannerConfig) (naming : Naming) : Prop where
  item : s.scan.result.item? = some s.item
  result : ScanResult.Repeats s.item.span.start (s.rescan config naming).result s.scan.result
  consumed : (s.rescan config naming).cursor.rest = []
  reports
    : ∃ added,
        s.scan.scanner.reported = added ++ s.lexer.scanner.reported
        ∧ List.Forall₂ (Diagnostic.Shifted s.item.span.start)
            (s.rescan config naming).scanner.reported added
  directives
    : ∃ added,
        s.scan.scanner.directives = added ++ s.lexer.scanner.directives
        ∧ List.Forall₂ Directive.SameOrigin (s.rescan config naming).scanner.directives added

/-- A lexer that runs for a caller's configuration and naming convention, between two steps. -/
structure RunsFor (config : ScannerConfig) (naming : Naming) (l : Lexer) : Prop where
  naming : l.scanner.naming = naming
  recordsDirectives : l.scanner.recordsDirectives = config.recordsDirectives
  idle : l.scanner.trials.depth = 0

theorem RunsFor.after {config : ScannerConfig} {naming : Naming} {s : Step}
    (found : s.lexer.lexeme? = some s.lexeme) (h : s.lexer.RunsFor config naming)
    : s.after.RunsFor config naming := by
  obtain ⟨hnaming, hrecords, idle⟩ := h
  have hkept
      : s.after.scanner.naming = s.lexer.scanner.naming
        ∧ s.after.scanner.recordsDirectives = s.lexer.scanner.recordsDirectives := by
    simp only [Step.after, Step.scanner, Scanner.absorb_eq, Scanner.report]
    split
    · exact ⟨rfl, rfl⟩
    · split <;> exact ⟨rfl, rfl⟩
    · exact ⟨rfl, rfl⟩
  exact {
    naming := hkept.1.trans hnaming
    recordsDirectives := hkept.2.trans hrecords
    idle := (s.after_depth found).trans idle
  }

/-- The scan of an item is repeated by the scan of its text alone. -/
theorem Step.rescans {s : Step} {config : ScannerConfig} {naming : Naming}
    (found : s.lexer.lexeme? = some s.lexeme) (h : s.lexer.RunsFor config naming)
    : s.Rescans config naming := by
  obtain ⟨rfl, hrecords, idle⟩ := h
  have htext : s.item.text.toList = textBefore s.lexer.cursor.rest s.lexeme.rest := by
    rw [item, Scanner.tokenOf, String.toList_ofList]
  obtain ⟨alone, hread, isolated⟩ := Lexeme.Isolated.exists_of_read found Trials.initial
  let fresh := (Scanner.create config s.lexer.scanner.naming).setMode s.lexer.mode
  have hfresh
      : Lexeme.read fresh.mode fresh.naming
          { rest := (Cursor.ofText s.item.text.toList).rest, trials := fresh.trials }
        = some alone := by
    rw [htext]
    exact hread
  obtain ⟨hresult, -, hreported, hdirectives⟩ := Scanner.next_of_read found
  obtain ⟨hagain, hrest, hreports, hnoted⟩ := Scanner.next_of_read hfresh
  have hdepth : s.lexeme.next.trials.depth = 0 := (Lexeme.read_depth found).trans idle
  have hidle : alone.next.trials.depth = 0 := Lexeme.read_depth hfresh
  rw [Scanner.absorb_eq] at hreported hdirectives hreports hnoted
  rw [if_pos hdepth] at hreported
  rw [if_pos hidle] at hreports
  constructor
  case item => exact hresult ▸ Scanner.resultOf_item? _ _
  case result =>
    have hrepeats := isolated.resultOf
    rw [Lexeme.Isolated.source, ← htext] at hrepeats
    rw [rescan, scan, hagain, hresult]
    exact hrepeats
  case consumed => exact hrest.trans isolated.rest_eq_nil
  case reports =>
    refine ⟨_, hreported, ?_⟩
    have hshift := isolated.diagnostics
    rw [Lexeme.Isolated.source, ← htext] at hshift
    have hall : fresh.reported = [] := rfl
    rw [rescan, hreports, hall, List.append_nil]
    exact List.forall₂_reverse_iff.mpr hshift
  case directives =>
    refine ⟨_, hdirectives, ?_⟩
    have hsame := isolated.directives
    rw [Lexeme.Isolated.source, ← htext] at hsame
    have hall : fresh.directives = [] := rfl
    have hrecorded : fresh.recordsDirectives = s.lexer.scanner.recordsDirectives := hrecords.symm
    rw [rescan, hnoted, hall, List.append_nil, hrecorded]
    split
    · exact hsame
    · exact .nil

theorem Runs.rescans {config : ScannerConfig} {naming : Naming} {first last : Lexer}
    {steps : List Step} (run : Runs first steps last) (h : first.RunsFor config naming)
    : ∀ s ∈ steps, s.Rescans config naming := by
  induction run with
  | refl l => simp
  | step found _ ih =>
      intro s hs
      rcases List.mem_cons.mp hs with rfl | hs
      · exact s.rescans found h
      · exact ih (h.after found) s hs

/-- The items that a lexer has found since the start of a source are those of steps that can each
be scanned again from the text of the item alone. The lexer adds the token for the end of the input
without a scan.
-/
def ItemsRescan (config : ScannerConfig) (naming : Naming) (source : List Char) (l : Lexer)
    : Prop :=
  ∃ steps,
    Runs (create source config naming) steps l
    ∧ l.stream.items = steps.map (·.item) ++ [.eofAt l.cursor.position]
    ∧ ∀ s ∈ steps, s.Rescans config naming

/-- The items of any run from the start of a source can be scanned again. -/
theorem Runs.itemsRescan {source : List Char} {config : ScannerConfig} {naming : Naming}
    {steps : List Step} {l : Lexer} (run : Runs (create source config naming) steps l)
    : l.ItemsRescan config naming source := by
  have start : (create source config naming).RunsFor config naming := by
    exact { naming := rfl, recordsDirectives := rfl, idle := rfl }
  exact ⟨steps, run, run.scans.stream_items.1, run.rescans start⟩

/-- However many tokens are asked for, and also when the rest is scanned at once, every item can be
scanned again from its text alone, with a fresh scanner in the mode in which it was found.
-/
theorem items_rescan (source : List Char) (config : ScannerConfig) (naming : Naming) (n : Nat)
    : let l := (create source config naming).serveAll (List.replicate n .next)
      l.ItemsRescan config naming source ∧ l.drain.ItemsRescan config naming source := by
  obtain ⟨steps, run⟩ := serveAll_runs (create source config naming) n
  obtain ⟨more, rest, -⟩ :=
    drain_runs ((create source config naming).serveAll (List.replicate n .next))
  exact ⟨run.itemsRescan, (run.trans rest).itemsRescan⟩

end Lexer

end GrammarFrontend
