import GrammarFrontend.Proofs.Lexeme.Kinds
import GrammarFrontend.Scanner.Lexer

/-! A lexer's work as a sequence of steps, one for each item that it finds. Pulling tokens, draining
the input and changing the mode in between all come down to such sequences, so that a property of
whole runs follows from what one step does.
-/

namespace GrammarFrontend

/-- A list of reports is kept, latest first, unless a trial is running; nothing else changes. The
induction is on the list.
-/
theorem Scanner.foldl_report (s : Scanner) (reports : List Diagnostic)
    : reports.foldl report s
      = { s with
          reported := (if s.trials.depth = 0 then reports.reverse else []) ++ s.reported } := by
  induction reports generalizing s with
  | nil => simp
  | cons d reports ih =>
      rw [List.foldl_cons, ih, report]
      split <;> simp

/-- What a scanner takes in of a lexeme: the mode after it, its trials, its directive if these are
recorded, and the diagnostics of its faults.
-/
theorem Scanner.absorb_eq (s : Scanner) (c : Cursor) (x : Lexeme)
    : s.absorb c x
      = { s with
          mode := s.modeAfter x.kind
          trials := x.next.trials
          directives :=
            (if s.recordsDirectives then x.origin.toList.map (directiveOf c) else [])
            ++ s.directives
          reported :=
            (if x.next.trials.depth = 0 then (x.faults.map (diagnosticOf c)).reverse else [])
            ++ s.reported } :=
  foldl_report _ _

namespace Lexer

-----------------------------------------------------------------------------------------
-- One item
-----------------------------------------------------------------------------------------

/-- The lexeme at the cursor, which the next step finds. -/
def lexeme? (l : Lexer) : Option Lexeme :=
  Lexeme.read l.scanner.mode l.scanner.naming { rest := l.cursor.rest, trials := l.scanner.trials }

/-- A lexeme that a lexer finds, with the lexer as it was before. -/
structure Step where
  lexer : Lexer
  lexeme : Lexeme

/-- The item of a step: its lexeme as a token, whether it is handed out or discarded. -/
def Step.item (s : Step) : Token := Scanner.tokenOf s.lexer.cursor s.lexeme

/-- What a step reports, in the order of the reports: the faults of its lexeme, then the character
that begins none.
-/
def Step.reports (s : Step) : List Diagnostic :=
  s.lexeme.faults.map (Scanner.diagnosticOf s.lexer.cursor)
  ++ if s.lexeme.kind = .errorChar then [Scanner.unrecognized s.item] else []

/-- The scanner after a step. -/
def Step.scanner (s : Step) : Scanner :=
  let absorbed := s.lexer.scanner.absorb s.lexer.cursor s.lexeme
  match s.lexeme.kind with
  | .byteOrderMark => absorbed
  | .errorChar => absorbed.report (Scanner.unrecognized s.item)
  | _ => { absorbed with history := s.item :: absorbed.history }

/-- The lexer after a step. -/
def Step.after (s : Step) : Lexer :=
  {
    scanner := s.scanner
    cursor := { s.lexer.cursor with rest := s.lexeme.rest, position := s.item.span.stop }
    discarded :=
      if s.lexeme.kind.isDiscarded then s.item :: s.lexer.discarded else s.lexer.discarded
  }

/-- A lexer has no lexeme exactly at the end of its input. -/
theorem lexeme?_eq_none_iff {l : Lexer} : l.lexeme? = none ↔ l.cursor.rest = [] :=
  Lexeme.read_eq_none_iff

/-- A step leaves less to read, because every lexeme takes a character. -/
theorem Step.after_length_lt {s : Step} (found : s.lexer.lexeme? = some s.lexeme)
    : s.after.cursor.rest.length < s.lexer.cursor.rest.length :=
  Lexeme.read_length_lt found

/-- At the end of the input there is nothing to pull, and the lexer stays as it is. -/
theorem pull_of_none {l : Lexer} (h : l.lexeme? = none) : l.pull = (none, l) := by
  have hnext
      : l.scanner.next l.cursor
        = { result := .eof, scanner := l.scanner, cursor := l.cursor } := by
    unfold lexeme? at h
    simp only [Scanner.next, h]
  rw [pull]
  split <;> simp_all

/-- A discarded item is passed over, and the pull goes on after it. -/
theorem pull_of_discarded {s : Step} (found : s.lexer.lexeme? = some s.lexeme)
    (hd : s.lexeme.kind.isDiscarded = true)
    : s.lexer.pull = s.after.pull := by
  unfold lexeme? at found
  have hk : s.lexeme.kind = .byteOrderMark ∨ s.lexeme.kind = .errorChar := by
    cases h : s.lexeme.kind <;> simp [h, TokenKind.isDiscarded] at hd ⊢
  rw [pull]
  rcases hk with hk | hk
  · have hnext
        : s.lexer.scanner.next s.lexer.cursor
          = { result := .skip s.item, scanner := s.scanner, cursor := s.after.cursor } := by
      simp only [Scanner.next, found, hk, Step.scanner, Step.after, Step.item]
    split <;> simp_all [Step.after]
  · have hnext
        : s.lexer.scanner.next s.lexer.cursor
          = {
              result := .error s.item (Scanner.unrecognized s.item)
              scanner := s.lexer.scanner.absorb s.lexer.cursor s.lexeme
              cursor := s.after.cursor
            } := by
      simp only [Scanner.next, found, hk, Step.after, Step.item]
    split
    case h_4 token diagnostic h =>
      rw [hnext] at h
      obtain ⟨rfl, rfl⟩ := ScanResult.error.inj h
      simp [hnext, Step.after, Step.scanner, hk, TokenKind.isDiscarded]
    all_goals simp_all

/-- Any other item is pulled as the next token. -/
theorem pull_of_kept {s : Step} (found : s.lexer.lexeme? = some s.lexeme)
    (hd : s.lexeme.kind.isDiscarded = false)
    : s.lexer.pull = (some s.item, s.after) := by
  unfold lexeme? at found
  have hnext
      : s.lexer.scanner.next s.lexer.cursor
        = { result := .token s.item, scanner := s.scanner, cursor := s.after.cursor } := by
    simp only [Scanner.next, found, Step.scanner, Step.after, Step.item]
    split <;> simp_all [TokenKind.isDiscarded]
  rw [pull]
  split <;> simp_all [Step.after]

/-- The text of an item and what is left after it make up what was left before it. -/
theorem Step.item_text_append {s : Step} (found : s.lexer.lexeme? = some s.lexeme)
    : s.item.text.toList ++ s.lexeme.rest = s.lexer.cursor.rest := by
  have hs : s.lexeme.rest <:+ s.lexer.cursor.rest := Lexeme.read_rest_suffix found
  simpa [item, Scanner.tokenOf] using textBefore_append_of_suffix hs

/-- An item is not empty, because its lexeme leaves less to read. -/
theorem Step.item_text_ne_nil {s : Step} (found : s.lexer.lexeme? = some s.lexeme)
    : s.item.text.toList ≠ [] := by
  have hs : s.lexeme.rest <:+ s.lexer.cursor.rest := Lexeme.read_rest_suffix found
  rw [item, Scanner.tokenOf, String.toList_ofList]
  exact textBefore_ne_nil hs (s.after_length_lt found)

/-- An item begins at the cursor. -/
theorem Step.item_start (s : Step) : s.item.span.start = s.lexer.cursor.position := rfl

/-- An item ends where moving over its text leads. -/
theorem Step.item_stop (s : Step)
    : s.item.span.stop = s.item.span.start.advanceOver s.item.text.toList := by
  simp [item, Scanner.tokenOf]

/-- The kind of the end of the input is no item's kind. -/
theorem Step.item_kind_ne_eof {s : Step} (found : s.lexer.lexeme? = some s.lexeme)
    : s.item.kind ≠ .eof :=
  Lexeme.read_kind_ne_eof found

/-- A step hands out its item exactly if the item is not discarded. -/
theorem Step.after_tokens (s : Step)
    : s.after.tokens = s.lexer.tokens ++ [s.item].filter (!·.kind.isDiscarded) := by
  have hkind : s.item.kind = s.lexeme.kind := rfl
  simp only [after, scanner, tokens, Scanner.tokens, Scanner.absorb_eq, Scanner.report]
  cases hk : s.lexeme.kind <;> simp [hk, hkind, TokenKind.isDiscarded]
  split <;> rfl

/-- A step keeps its item with the discarded input exactly if the item is discarded. -/
theorem Step.after_discarded (s : Step)
    : s.after.discarded.reverse
      = s.lexer.discarded.reverse ++ [s.item].filter (·.kind.isDiscarded) := by
  have hkind : s.item.kind = s.lexeme.kind := rfl
  cases hd : s.lexeme.kind.isDiscarded <;> simp [after, hd, hkind]

/-- A step makes the trials of its lexeme. -/
theorem Step.after_trials (s : Step) : s.after.scanner.trials = s.lexeme.next.trials := by
  simp only [after, scanner, Scanner.absorb_eq, Scanner.report]
  split
  · rfl
  · split <;> rfl
  · rfl

-----------------------------------------------------------------------------------------
-- Runs
-----------------------------------------------------------------------------------------

/-- One lexer comes from another by these steps alone. -/
inductive Runs : Lexer → List Step → Lexer → Prop
  | refl (l : Lexer) : Runs l [] l
  | step {s : Step} {steps : List Step} {last : Lexer}
    (found : s.lexer.lexeme? = some s.lexeme) (more : Runs s.after steps last)
    : Runs s.lexer (s :: steps) last

/-- Runs join end to end, by induction on the first one. -/
theorem Runs.trans {first middle last : Lexer} {steps more : List Step}
    (hl : Runs first steps middle) (hr : Runs middle more last)
    : Runs first (steps ++ more) last := by
  induction hl with
  | refl l => exact hr
  | step found _ ih => exact .step found (ih hr)

/-- What every step keeps, a run keeps, by induction on the run. -/
theorem Runs.keeps {P : Lexer → Prop}
    (hstep : ∀ s : Step, s.lexer.lexeme? = some s.lexeme → P s.lexer → P s.after)
    {first last : Lexer} {steps : List Step} (run : Runs first steps last) (holds : P first)
    : P last := by
  induction run with
  | refl l => exact holds
  | step found _ ih => exact ih (hstep _ found holds)

/-- A pull is a run, by induction on what is left to read; it ends before the end of the input
only with a token.
-/
theorem pull_runs (l : Lexer)
    : ∃ steps, Runs l steps l.pull.2 ∧ (l.pull.1 = none → l.pull.2.cursor.rest = []) := by
  cases h : l.lexeme? with
  | none => exact ⟨[], by rw [pull_of_none h]; exact ⟨.refl l, fun _ => lexeme?_eq_none_iff.mp h⟩⟩
  | some x =>
      let s : Step := { lexer := l, lexeme := x }
      cases hd : s.lexeme.kind.isDiscarded with
      | true =>
          obtain ⟨steps, run, final⟩ := pull_runs s.after
          rw [pull_of_discarded (s := s) h hd]
          exact ⟨s :: steps, .step h run, final⟩
      | false =>
          rw [pull_of_kept (s := s) h hd]
          exact ⟨[s], Runs.step (s := s) h (.refl s.after), by simp⟩
termination_by l.cursor.rest.length
decreasing_by exact s.after_length_lt h

/-- Draining ends where there is no token to pull. -/
theorem drain_of_none {l : Lexer} (h : l.pull.1.isNone = true) : l.drain = l.pull.2 := by
  rw [drain]
  split <;> simp_all

/-- Draining goes on after a token. -/
theorem drain_of_isSome {l : Lexer} (h : l.pull.1.isSome = true) : l.drain = l.pull.2.drain := by
  rw [drain]
  split <;> simp_all

/-- Draining is a run to the end of the input, by the recursion of `drain`. -/
theorem drain_runs (l : Lexer) : ∃ steps, Runs l steps l.drain ∧ l.drain.cursor.rest = [] := by
  fun_induction drain l with
  | case1 l h =>
      obtain ⟨steps, run, final⟩ := pull_runs l
      exact ⟨steps, run, final h⟩
  | case2 l token h ih =>
      obtain ⟨steps, run, -⟩ := pull_runs l
      obtain ⟨more, rest, final⟩ := ih
      exact ⟨steps ++ more, run.trans rest, final⟩

/-- One lexer comes from another by these steps, with changes of the mode anywhere between them. -/
inductive Scans : Lexer → List Step → Lexer → Prop
  | refl (l : Lexer) : Scans l [] l
  | step {s : Step} {steps : List Step} {last : Lexer}
    (found : s.lexer.lexeme? = some s.lexeme) (more : Scans s.after steps last)
    : Scans s.lexer (s :: steps) last
  | setMode {l last : Lexer} {steps : List Step} (mode : ScanMode)
    (more : Scans (l.setMode mode) steps last)
    : Scans l steps last

/-- A run needs no changes of the mode, by induction on it. -/
theorem Runs.scans {first last : Lexer} {steps : List Step} (run : Runs first steps last)
    : Scans first steps last := by
  induction run with
  | refl l => exact .refl l
  | step found _ ih => exact .step found ih

/-- Runs with changes of the mode join end to end, by induction on the first one. -/
theorem Scans.trans {first middle last : Lexer} {steps more : List Step}
    (hl : Scans first steps middle) (hr : Scans middle more last)
    : Scans first (steps ++ more) last := by
  induction hl with
  | refl l => exact hr
  | step found _ ih => exact .step found (ih hr)
  | setMode mode _ ih => exact .setMode mode (ih hr)

-----------------------------------------------------------------------------------------
-- Requests of a caller
-----------------------------------------------------------------------------------------

/-- What a caller asks of a lexer before the rest of the input is scanned at once. -/
inductive Request where
  | next
  | setMode (mode : ScanMode)
deriving DecidableEq, Repr

def serve (l : Lexer) : Request → Lexer
  | .next => l.next.2
  | .setMode mode => l.setMode mode

/-- The lexer after requests one after another. -/
def serveAll (l : Lexer) (requests : List Request) : Lexer := requests.foldl serve l

/-- Serving requests is a run, by induction on them. -/
theorem serveAll_scans (l : Lexer) (requests : List Request)
    : ∃ steps, Scans l steps (l.serveAll requests) := by
  induction requests generalizing l with
  | nil => exact ⟨[], .refl l⟩
  | cons request requests ih =>
      obtain ⟨more, rest⟩ := ih (l.serve request)
      cases request with
      | next =>
          obtain ⟨steps, run, -⟩ := pull_runs l
          exact ⟨steps ++ more, run.scans.trans rest⟩
      | setMode mode => exact ⟨more, .setMode mode rest⟩

/-- Requests for tokens alone make a run without changes of the mode, by induction on them. -/
theorem serveAll_runs (l : Lexer) (n : Nat)
    : ∃ steps, Runs l steps (l.serveAll (List.replicate n .next)) := by
  induction n generalizing l with
  | zero => exact ⟨[], .refl l⟩
  | succ n ih =>
      obtain ⟨steps, run, -⟩ := pull_runs l
      obtain ⟨more, rest⟩ := ih l.pull.2
      exact ⟨steps ++ more, run.trans rest⟩

/-- Requests and then the rest of the input make one run to the end of the input. -/
theorem serveAll_drain_scans (l : Lexer) (requests : List Request)
    : ∃ steps,
        Scans l steps (l.serveAll requests).drain
        ∧ (l.serveAll requests).drain.cursor.rest = [] := by
  obtain ⟨steps, run⟩ := serveAll_scans l requests
  obtain ⟨more, rest, final⟩ := drain_runs (l.serveAll requests)
  exact ⟨steps ++ more, run.trans rest.scans, final⟩

end Lexer

end GrammarFrontend
