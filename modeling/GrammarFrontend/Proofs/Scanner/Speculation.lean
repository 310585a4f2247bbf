import GrammarFrontend.Proofs.Lexeme.Trials
import GrammarFrontend.Proofs.Scanner.Progress

/-! Trials on the whole state of a scanner. An attempt may move the cursor, hand out tokens and
report before it fails, and then the mark and the number of tokens taken before it bring everything
back, except for the note that it failed. A step of the scanner is a chain of moves and of such
trials, so the note is at any time that of the latest trial.
-/

namespace GrammarFrontend

/-- A scanner with the cursor that it reads from. -/
structure ScanState where
  scanner : Scanner
  cursor : Cursor

/-- Keeps only the first `count` tokens that were handed out. -/
def Scanner.truncate (s : Scanner) (count : Nat) : Scanner :=
  { s with history := s.history.drop (s.history.length - count) }

namespace ScanState

def withTrials (x : ScanState) (trials : Trials) : ScanState :=
  { x with scanner := { x.scanner with trials } }

/-- The state with the outcome of a trial noted. -/
def flagged (x : ScanState) (failed : Bool) : ScanState :=
  x.withTrials { x.scanner.trials with failed }

def moveOver (x : ScanState) (text : List Char) : ScanState :=
  { x with cursor := x.cursor.advanceOver text }

def handOut (x : ScanState) (token : Token) : ScanState :=
  { x with scanner := { x.scanner with history := token :: x.scanner.history } }

def report (x : ScanState) (d : Diagnostic) : ScanState :=
  { x with scanner := x.scanner.report d }

/-- What a recogniser of lexemes sees of a state. -/
def probe (x : ScanState) : Probe := { rest := x.cursor.rest, trials := x.scanner.trials }

/-- The state with one more trial running. -/
def opened (x : ScanState) : ScanState := x.withTrials x.scanner.trials.opened

/-- The state with the latest trial ended. -/
def closed (x : ScanState) (failed : Bool) : ScanState :=
  x.withTrials (x.scanner.trials.closed failed)

/-- The state with the cursor back at a mark, and without the tokens beyond the first `emitted`. -/
def rolledBack (x : ScanState) (mark : Mark) (emitted : Nat) : ScanState :=
  { scanner := x.scanner.truncate emitted, cursor := x.cursor.rewind mark }

/-- Makes a trial of an attempt that works on the whole state, which is rolled back if the attempt
fails.
-/
def speculate {α : Type} (attempt : ScanState → Option α × ScanState) (x : ScanState)
    : Option α × ScanState :=
  let (outcome, ended) := attempt x.opened
  let closed := ended.closed outcome.isNone
  match outcome with
  | some finding => (some finding, closed)
  | none => (none, closed.rolledBack x.cursor.mark x.scanner.history.length)

-----------------------------------------------------------------------------------------
-- Rolling back
-----------------------------------------------------------------------------------------

/-- What an attempt may do: move forward over the input, hand out tokens and report. -/
inductive Works : ScanState → ScanState → Prop
  | done (x : ScanState) : Works x x
  | moves {x y : ScanState} {text : List Char} (ahead : text <+: x.cursor.rest)
    (more : Works (x.moveOver text) y)
    : Works x y
  | handsOut {x y : ScanState} (token : Token) (more : Works (x.handOut token) y) : Works x y
  | reports {x y : ScanState} (d : Diagnostic) (more : Works (x.report d) y) : Works x y

/-- While a trial is running, work on a state adds tokens and moves the cursor, and changes nothing
else: what is reported then is not kept.
-/
theorem Works.leaves {x y : ScanState} (work : Works x y) (running : x.scanner.trials.depth ≠ 0)
    : y.cursor.source = x.cursor.source
      ∧ ∃ tokens, y.scanner = { x.scanner with history := tokens ++ x.scanner.history } := by
  induction work with
  | done x => exact ⟨rfl, [], rfl⟩
  | moves _ _ ih => exact ih running
  | handsOut token _ ih =>
      obtain ⟨hsource, tokens, hscanner⟩ := ih running
      refine ⟨hsource, tokens ++ [token], ?_⟩
      rw [hscanner, List.append_assoc]
      rfl
  | @reports x y d _ ih =>
      have hsilent : x.report d = x := by
        rw [report, Scanner.report, if_neg running]
      rw [hsilent] at ih
      exact ih running

/-- Whatever an attempt has done before it fails, only the note of the failure stays. -/
theorem speculate_of_none {α : Type} {attempt : ScanState → Option α × ScanState}
    {x y : ScanState} (h : attempt x.opened = (none, y)) (work : x.opened.Works y)
    : x.speculate attempt = (none, x.flagged true) := by
  obtain ⟨hsource, tokens, hscanner⟩ := work.leaves (Nat.succ_ne_zero _)
  have hcursor : y.cursor.rewind x.cursor.mark = x.cursor := by
    rw [Cursor.rewind, hsource]
    rfl
  have hkept
      : (y.closed true).scanner.truncate x.scanner.history.length = (x.flagged true).scanner := by
    rw [closed, withTrials, hscanner, Scanner.truncate]
    dsimp only [opened, withTrials]
    rw [List.length_append, Nat.add_sub_cancel, List.drop_left]
    rfl
  have hrun
      : x.speculate attempt
        = (none, (y.closed true).rolledBack x.cursor.mark x.scanner.history.length) := by
    rw [speculate, h]
    rfl
  rw [hrun, rolledBack, hkept, show (y.closed true).cursor = y.cursor from rfl, hcursor]
  rfl

/-- What an attempt has done stays if it succeeds. -/
theorem speculate_of_some {α : Type} {attempt : ScanState → Option α × ScanState}
    {x y : ScanState} {finding : α} (h : attempt x.opened = (some finding, y))
    : x.speculate attempt = (some finding, y.closed false) := by
  rw [speculate, h]
  rfl

end ScanState

-----------------------------------------------------------------------------------------
-- The trials of the scanner
-----------------------------------------------------------------------------------------

theorem Comment.directive_length_lt {text rest : List Char} {found : List Char × Nat}
    (h : directive text = some (found, rest))
    : rest.length < text.length := by
  obtain ⟨file, line⟩ := found
  obtain ⟨n, rfl, -⟩ := directive_eq_some_iff.mp h
  have hbody : n.body ≠ [] :=
    List.append_ne_nil_of_right_ne_nil _ (List.append_ne_nil_of_left_ne_nil n.wordGap.filled _)
  rw [List.length_append]
  exact Nat.lt_add_of_pos_left (List.length_pos_iff.mpr hbody)

namespace Trial

/-- The attempt of a trial on the whole state, of which it moves the cursor alone. -/
def onScan (t : Trial) (x : ScanState) : Option t.Finding × ScanState :=
  let (outcome, cursor) := t.attempt x.cursor
  (outcome, { x with cursor })

/-- A trial that succeeds takes a character. -/
theorem read_length_lt (t : Trial) {text rest : List Char} {finding : t.Finding}
    (h : t.read text = some (finding, rest))
    : rest.length < text.length := by
  cases t with
  | docStar =>
      have found : Comment.docStar text = some ((), rest) := h
      unfold Comment.docStar at found
      split at found <;> cases found
      exact Nat.lt_succ_self _
  | directive => exact Comment.directive_length_lt h
  | quotation =>
      have found : Quotation.skip text = some ((), rest) := h
      have hle := (Quotation.skip_suffix found).length_le
      cases text with
      | nil => cases found
      | cons quote text => exact Nat.lt_succ_of_le hle
  | brace =>
      have opens := Word.brace_eq_some_iff.mp h
      have hle := (List.dropWhile_suffix (l := text) isBlank).length_le
      rw [opens] at hle
      exact hle

/-- A trial leaves no trace but the note of its outcome and, if it succeeds, the text that the
cursor has moved over. The recogniser that makes it sees a trial of what is left to read.
-/
structure LeavesNoTrace (t : Trial) (x : ScanState) : Prop where
  failed : (x.speculate t.onScan).1 = none → (x.speculate t.onScan).2 = x.flagged true
  succeeded
    : ∀ finding,
        (x.speculate t.onScan).1 = some finding
        → ∃ text,
            text ≠ []
            ∧ text <+: x.cursor.rest
            ∧ (x.speculate t.onScan).2 = (x.flagged false).moveOver text
  reads
    : x.probe.speculate t.read = ((x.speculate t.onScan).1, (x.speculate t.onScan).2.probe)

/-- No trial leaves a trace, wherever it is made and in whatever state the scanner is. -/
theorem leavesNoTrace (t : Trial) (x : ScanState) : t.LeavesNoTrace x := by
  have hends := t.carriesOut x.cursor
  have hattempt
      : t.onScan x.opened
        = ((t.attempt x.cursor).1, { x.opened with cursor := (t.attempt x.cursor).2 }) :=
    rfl
  generalize t.attempt x.cursor = result at hends hattempt
  cases hread : t.read x.cursor.rest with
  | none =>
      rw [hread] at hends
      cases hends with
      | @broken text ahead =>
          have hfails : x.speculate t.onScan = (none, x.flagged true) :=
            ScanState.speculate_of_none hattempt (.moves ahead (.done _))
          constructor
          case failed =>
            intro _
            rw [hfails]
          case succeeded =>
            intro finding h
            rw [hfails] at h
            cases h
          case reads =>
            rw [hfails]
            exact Probe.speculate_of_none hread
  | some found =>
      rw [hread] at hends
      cases hends with
      | @found finding text rest ahead =>
          have hsucceeds
              : x.speculate t.onScan = (some finding, (x.flagged false).moveOver text) :=
            ScanState.speculate_of_some hattempt
          constructor
          case failed =>
            intro h
            rw [hsucceeds] at h
            cases h
          case succeeded =>
            intro _ _
            refine ⟨text, ?_, ⟨rest, ahead.symm⟩, congrArg Prod.snd hsucceeds⟩
            rintro rfl
            have hlt := t.read_length_lt hread
            rw [ahead] at hlt
            exact Nat.lt_irrefl _ hlt
          case reads =>
            have hprobe
                : ((x.flagged false).moveOver text).probe
                  = { rest, trials := { x.scanner.trials with failed := false } } := by
              rw [ScanState.probe, ← Cursor.advanceOver_rest ahead]
              rfl
            rw [hsucceeds, hprobe]
            exact Probe.speculate_of_some hread

/-- Whatever its outcome, a trial moves over some text, if only over none. -/
theorem LeavesNoTrace.moves {t : Trial} {x : ScanState} (trace : t.LeavesNoTrace x)
    : ∃ text,
        text <+: x.cursor.rest
        ∧ ∀ trials,
            (x.speculate t.onScan).2.withTrials trials = (x.withTrials trials).moveOver text := by
  cases h : (x.speculate t.onScan).1 with
  | none =>
      refine ⟨[], List.nil_prefix, ?_⟩
      rw [trace.failed h]
      exact fun _ => rfl
  | some finding =>
      obtain ⟨text, -, ahead, hafter⟩ := trace.succeeded finding h
      refine ⟨text, ahead, ?_⟩
      rw [hafter]
      exact fun _ => rfl

end Trial

-----------------------------------------------------------------------------------------
-- Steps of the scanner
-----------------------------------------------------------------------------------------

namespace ScanState

/-- One state comes from another by moves forward and by these trials, in their order. -/
inductive Makes : ScanState → List Tried → ScanState → Prop
  | stay (x : ScanState) : Makes x [] x
  | moves {x y : ScanState} {tried : List Tried} {text : List Char}
    (ahead : text <+: x.cursor.rest) (more : Makes (x.moveOver text) tried y)
    : Makes x tried y
  | tries {x y : ScanState} {tried : List Tried} (trial : Trial)
    (more : Makes (x.speculate trial.onScan).2 tried y)
    : Makes x ({ trial, text := x.cursor.rest } :: tried) y

theorem moveOver_moveOver (x : ScanState) (first second : List Char)
    : (x.moveOver first).moveOver second = x.moveOver (first ++ second) := by
  rw [moveOver, moveOver, Cursor.advanceOver_advanceOver]
  rfl

/-- What a recogniser of lexemes makes, a scan state makes; only its trials and its cursor change.
The induction is on what the recogniser makes.
-/
theorem makes_of_probe {p q : Probe} {tried : List Tried} (made : p.Makes tried q) {x : ScanState}
    (same : x.probe = p)
    : ∃ text,
        x.cursor.rest = text ++ q.rest
        ∧ x.Makes tried ((x.withTrials q.trials).moveOver text) := by
  induction made generalizing x with
  | stay p =>
      subst same
      exact ⟨[], rfl, .stay x⟩
  | @moves p q tried rest ahead _ ih =>
      subst same
      obtain ⟨text, hsplit⟩ := ahead
      have hrest : (x.moveOver text).cursor.rest = rest := Cursor.advanceOver_rest hsplit.symm
      have hprobe : (x.moveOver text).probe = x.probe.moveTo rest := by
        rw [probe, hrest]
        rfl
      obtain ⟨more, hmore, made⟩ := ih hprobe
      refine ⟨text ++ more, ?_, .moves ⟨rest, hsplit⟩ ?_⟩
      · rw [List.append_assoc, ← hmore, hrest]
        exact hsplit.symm
      · rw [← moveOver_moveOver]
        exact made
  | @tries p q tried trial _ ih =>
      subst same
      have trace := trial.leavesNoTrace x
      have hprobe : (x.speculate trial.onScan).2.probe = (x.probe.speculate trial.read).2 :=
        (congrArg Prod.snd trace.reads).symm
      obtain ⟨more, hmore, made⟩ := ih hprobe
      obtain ⟨text, ⟨rest, hsplit⟩, hmoves⟩ := trace.moves
      have hcursor : (x.speculate trial.onScan).2.cursor = x.cursor.advanceOver text :=
        congrArg cursor (hmoves x.scanner.trials)
      rw [hcursor, Cursor.advanceOver_rest hsplit.symm] at hmore
      refine ⟨text ++ more, ?_, .tries trial ?_⟩
      · rw [List.append_assoc, ← hmore, hsplit]
      · rw [← moveOver_moveOver, ← hmoves]
        exact made

end ScanState

namespace Scanner

/-- The trials that the next step makes at a cursor. -/
def triedAt (s : Scanner) (c : Cursor) : List Tried := Lexeme.tried s.mode c.rest

/-- The scanner and its cursor as they are when all trials of the next step are made. -/
def triedOut (s : Scanner) (c : Cursor) : ScanState :=
  { scanner := { s with trials := (s.next c).scanner.trials }, cursor := (s.next c).cursor }

theorem triedAt_of_atEnd {s : Scanner} {c : Cursor} (h : c.rest = []) : s.triedAt c = [] := by
  rw [triedAt, h]
  rfl

theorem next_trials_of_read {s : Scanner} {c : Cursor} {x : Lexeme}
    (found : Lexeme.read s.mode s.naming { rest := c.rest, trials := s.trials } = some x)
    : (s.next c).scanner.trials = x.next.trials := by
  simp only [next, found, absorb_eq]
  split <;> rfl

/-- A step is made by moves and trials: they lead to where it ends, and leave the trials that it
leaves.
-/
theorem next_makes (s : Scanner) (c : Cursor)
    : ScanState.Makes { scanner := s, cursor := c } (s.triedAt c) (s.triedOut c) := by
  rw [triedOut]
  cases found : Lexeme.read s.mode s.naming { rest := c.rest, trials := s.trials } with
  | none =>
      have hend : c.rest = [] := Lexeme.read_eq_none_iff.mp found
      rw [next_of_atEnd hend, triedAt_of_atEnd hend]
      exact .stay _
  | some x =>
      obtain ⟨text, hsplit, made⟩ :=
        ScanState.makes_of_probe (Lexeme.read_makes found) (x := { scanner := s, cursor := c }) rfl
      rw [next_trials_of_read found, cursor_of_read found hsplit]
      exact made

/-- After a step as many trials are running as before, and the latest one made is noted. -/
theorem next_trials (s : Scanner) (c : Cursor)
    : (s.next c).scanner.trials
      = { depth := s.trials.depth, failed := failedLast s.trials.failed (s.triedAt c) } := by
  cases found : Lexeme.read s.mode s.naming { rest := c.rest, trials := s.trials } with
  | none =>
      have hend : c.rest = [] := Lexeme.read_eq_none_iff.mp found
      rw [next_of_atEnd hend, triedAt_of_atEnd hend]
      rfl
  | some x =>
      rw [next_trials_of_read found]
      exact (Lexeme.read_makes found).trials_eq

-----------------------------------------------------------------------------------------
-- Runs of the scanner
-----------------------------------------------------------------------------------------

/-- What a caller asks of a scanner. -/
inductive Request where
  | next (c : Cursor)
  | setMode (mode : ScanMode)

def serve (s : Scanner) : Request → Scanner
  | .next c => (s.next c).scanner
  | .setMode mode => s.setMode mode

/-- The scanner after requests one after another. -/
def serveAll (s : Scanner) (requests : List Request) : Scanner := requests.foldl serve s

/-- The trials that a scanner makes for requests one after another. -/
def triedFor (s : Scanner) : List Request → List Tried
  | [] => []
  | .next c :: requests => s.triedAt c ++ (s.serve (.next c)).triedFor requests
  | .setMode mode :: requests => (s.serve (.setMode mode)).triedFor requests

/-- After requests as many trials are running as before, and the latest one made is noted, by
induction on the requests.
-/
theorem serveAll_trials (s : Scanner) (requests : List Request)
    : (s.serveAll requests).trials
      = {
          depth := s.trials.depth
          failed := failedLast s.trials.failed (s.triedFor requests)
        } := by
  induction requests generalizing s with
  | nil => rfl
  | cons request requests ih =>
      have hrest := ih (s.serve request)
      cases request with
      | next c =>
          rw [serve, next_trials] at hrest
          rw [triedFor, failedLast_append]
          exact hrest
      | setMode mode => exact hrest

end Scanner

namespace Lexer

/-- The trials that a step of a lexer makes. -/
def Step.tried (s : Step) : List Tried := s.lexer.scanner.triedAt s.lexer.cursor

/-- A lexer notes the latest one of the trials that its steps make, by induction on the steps. -/
theorem Scans.trials_eq {first last : Lexer} {steps : List Step} (run : Scans first steps last)
    : last.scanner.trials
      = {
          depth := first.scanner.trials.depth
          failed := failedLast first.scanner.trials.failed (steps.flatMap Step.tried)
        } := by
  induction run with
  | refl l => rfl
  | step found _ ih =>
      rw [ih, Step.after_trials, (Lexeme.read_makes found).trials_eq, List.flatMap_cons,
        failedLast_append]
      rfl
  | setMode mode _ ih => exact ih

/-- By the steps that lead from one lexer to another one, no trial is left running there, and the
outcome of the latest one is noted.
-/
def Settles (first last : Lexer) : Prop :=
  ∃ steps,
    Scans first steps last
    ∧ last.scanner.trials = { depth := 0, failed := failedLast false (steps.flatMap Step.tried) }

end Lexer

-----------------------------------------------------------------------------------------
-- The whole scanner
-----------------------------------------------------------------------------------------

/-- Trials leave no trace in any state of a scanner and its input, and a step is made by them and by
moves. So at any time of a run no trial is left running, and the note is the outcome of the latest
one, whether a scanner is asked for tokens or a lexer, and also when the lexer is drained.
-/
theorem Scanner.trials_leave_no_trace (config : ScannerConfig) (naming : Naming)
    : (∀ (t : Trial) (x : ScanState), t.LeavesNoTrace x)
      ∧ (∀ (s : Scanner) (c : Cursor),
          ScanState.Makes { scanner := s, cursor := c } (s.triedAt c) (s.triedOut c))
      ∧ (∀ requests : List Request,
          let fresh := create config naming
          (fresh.serveAll requests).trials
          = { depth := 0, failed := failedLast false (fresh.triedFor requests) })
      ∧ ∀ (source : List Char) (requests : List Lexer.Request),
          let fresh := Lexer.create source config naming
          fresh.Settles (fresh.serveAll requests)
          ∧ fresh.Settles (fresh.serveAll requests).drain := by
  refine ⟨Trial.leavesNoTrace, next_makes, serveAll_trials _, ?_⟩
  intro source requests fresh
  obtain ⟨steps, run⟩ := fresh.serveAll_scans requests
  obtain ⟨allSteps, drained, -⟩ := fresh.serveAll_drain_scans requests
  exact ⟨⟨steps, run, run.trials_eq⟩, ⟨allSteps, drained, drained.trials_eq⟩⟩

example
    : let x : ScanState :=
        { scanner := .create {} uppercaseNaming, cursor := .ofText " = 1".toList }
      x.speculate Trial.brace.onScan = (none, x.flagged true) :=
  rfl

end GrammarFrontend
