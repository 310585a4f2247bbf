import GrammarFrontend.Proofs.Literal.Blame

/-! The wrong escape that decoding a literal stops at, and the first one reported for the literal.
Both are at the same place, and their texts differ by one closing brace at most.
-/

namespace GrammarFrontend

-----------------------------------------------------------------------------------------
-- The item of a literal
-----------------------------------------------------------------------------------------

/-- Where decoding a closed string literal stops at a wrong escape, the first report of the literal is
about that escape and begins with it. The report quotes the same text, or a closing brace more where
digits in braces are wrong in number.
-/
def Token.BlamesAlike (t : Token) (reports : List Diagnostic) : Prop :=
  (∀ d ∈ reports, d.kind ≠ .unterminatedStringLiteral)
  → ∀ text offset,
      Literal.decode t.text = .error (.invalidEscape text offset)
      → ∃ before left scanned d more span,
          t.text.toList = before ++ (text.toList ++ left)
          ∧ offset = utf8Length before
          ∧ reports = d :: more
          ∧ d.kind = .invalidEscapeSequence
          ∧ d.span = some span
          ∧ span.start.offset = t.span.start.offset + offset
          ∧ d.args = [String.ofList scanned]
          ∧ Literal.Rescanned text.toList left scanned

/-- Only a literal between quotes has wrong escapes. -/
theorem Literal.decode_eq_invalidEscape {text escape : String} {offset : Nat}
    (h : decode text = .error (.invalidEscape escape offset))
    : ∃ body,
        text.toList = '\'' :: (body ++ ['\''])
        ∧ decodeFrom 1 body = .error (.invalidEscape escape offset) := by
  unfold decode at h
  split at h
  · cases h
  · rename_i body hbody
    refine ⟨body, inner?_eq_some.mp hbody, ?_⟩
    cases he : decodeFrom 1 body with
    | ok chars =>
        rw [he] at h
        cases h
    | error e =>
        rw [he] at h
        cases h
        rfl

namespace Lexer

/-- The wrong escape of a literal is the first one that its step reports. -/
theorem Step.blamesAlike {s : Step} (found : s.lexer.lexeme? = some s.lexeme)
    (hk : s.item.kind = .stringLiteral)
    : s.item.BlamesAlike s.reports := by
  intro terminated text offset blames
  obtain ⟨body, hquoted, blames⟩ := Literal.decode_eq_invalidEscape blames
  obtain ⟨consumed, rest, opens, htext, happ, hreports⟩ := s.literal_read found hk
  obtain ⟨-, rfl⟩ := List.cons.inj (htext.symm.trans hquoted)
  have hbody : rest = body ++ '\'' :: (StringLiteral.close rest).rest := by
    rw [← List.singleton_append, ← List.append_assoc]
    exact happ.symm
  have closed : (StringLiteral.close rest).closed = true := by
    by_contra unclosed
    rw [Bool.not_eq_true] at unclosed
    rw [hreports, unclosed] at terminated
    exact terminated _ (List.mem_map.mpr ⟨_, List.mem_append_right _ (.head _), rfl⟩) rfl
  have ends := congrArg (fun text => (StringLiteral.close text).rest) hbody
  rw [hbody] at closed
  obtain ⟨before, left, scanned, fault, more, rfl, rfl, rescanned, hfaults, hkind, hstart,
    hscanned⟩ := Literal.faults_of_invalidEscape closed ends.symm blames
  have hcursor : s.lexer.cursor.rest = ('\'' :: before) ++ fault.start := by
    rw [opens, hbody, hstart]
    simp
  have hplace
      : Scanner.placeOf s.lexer.cursor fault.start
        = s.lexer.cursor.position.advanceOver ('\'' :: before) := by
    rw [Scanner.placeOf, hcursor, textBefore_append]
  have hsize : 1 + utf8Length before = utf8Length ('\'' :: before) := rfl
  rw [hbody, hfaults, List.cons_append, List.map_cons] at hreports
  refine ⟨'\'' :: before, left ++ ['\''], scanned, _, _, _, ?_, rfl, hreports, hkind, rfl, ?_, ?_,
    rescanned⟩
  · rw [hquoted]
    simp
  · rw [hplace, Position.advanceOver_offset, s.item_start, hsize]
  · rw [Scanner.diagnosticOf, hscanned, textBefore_append]

-----------------------------------------------------------------------------------------
-- Runs
-----------------------------------------------------------------------------------------

/-- The string literals among the steps of a run are blamed as they are reported, by induction on the
run.
-/
theorem Scans.blamesAlike {first last : Lexer} {steps : List Step} (run : Scans first steps last)
    : ∀ s ∈ steps, s.item.kind = .stringLiteral → s.item.BlamesAlike s.reports := by
  induction run with
  | refl l => simp
  | step found _ ih =>
      intro s hs
      rcases List.mem_cons.mp hs with rfl | hs
      · exact s.blamesAlike found
      · exact ih s hs
  | setMode _ _ ih => exact ih

/-- The steps account for a lexer's tokens and diagnostics, and the first report of a closed string
literal among their items is about the escape that decoding it stops at.
-/
structure WrongEscapesShared (l : Lexer) (steps : List Step) : Prop where
  tokens : l.tokens = (steps.map (·.item)).filter (!·.kind.isDiscarded)
  diagnostics : l.diagnostics = (steps.map (·.reports)).flatten
  blames : ∀ s ∈ steps, s.item.kind = .stringLiteral → s.item.BlamesAlike s.reports

/-- The steps of a run from the start of a source account for its wrong escapes. -/
theorem Scans.wrongEscapesShared {source : List Char} {config : ScannerConfig} {naming : Naming}
    {l : Lexer} {steps : List Step} (run : Scans (create source config naming) steps l)
    : l.WrongEscapesShared steps := by
  have stands : (create source config naming).cursor.StandsIn source [] := ⟨rfl, rfl⟩
  exact {
    tokens := run.tokens
    diagnostics := (run.explained rfl stands).1
    blames := run.blamesAlike
  }

/-- However tokens are pulled and the mode is changed, and whether or not the rest is then scanned,
a closed string literal is reported first for the escape that decoding it stops at. The two texts
are the same, unless the escape has none or more than six digits in braces.
-/
theorem wrong_escapes_shared (source : List Char) (config : ScannerConfig) (naming : Naming)
    (requests : List Request)
    : let start := create source config naming
      let served := start.serveAll requests
      (∃ steps, Scans start steps served ∧ served.WrongEscapesShared steps)
      ∧ ∃ steps, Scans start steps served.drain ∧ served.drain.WrongEscapesShared steps := by
  obtain ⟨steps, run⟩ := serveAll_scans (create source config naming) requests
  obtain ⟨more, rest, -⟩ := serveAll_drain_scans (create source config naming) requests
  exact ⟨⟨steps, run, run.wrongEscapesShared⟩, more, rest, rest.wrongEscapesShared⟩

/-- The texts are not always the same: of an escape with no digits in its braces a decoder does not
quote the closing brace.
-/
theorem not_same_text
    : ¬ ∀ (source : List Char) (config : ScannerConfig) (naming : Naming) (steps : List Step)
        (last : Lexer),
        Scans (create source config naming) steps last
        → ∀ s ∈ steps,
            s.item.kind = .stringLiteral
            → (∀ d ∈ s.reports, d.kind ≠ .unterminatedStringLiteral)
            → ∀ text offset,
                Literal.decode s.item.text = .error (.invalidEscape text offset)
                → ∃ d more span,
                    s.reports = d :: more
                    ∧ d.kind = .invalidEscapeSequence
                    ∧ d.span = some span
                    ∧ span.start.offset = s.item.span.start.offset + offset
                    ∧ d.args = [text] := by
  intro h
  let start := create "'\\u\x7b\x7d'".toList {} uppercaseNaming
  let s : Step :=
    {
      lexer := start
      lexeme := StringLiteral.read { rest := start.cursor.rest, trials := start.scanner.trials }
    }
  have found : s.lexer.lexeme? = some s.lexeme := rfl
  obtain ⟨d, more, span, hreports, -, -, -, hargs⟩ :=
    h _ {} uppercaseNaming [s] s.after (.step found (.refl _)) s (.head _) (by decide +kernel)
      (by decide +kernel) "\\u\x7b" 1 (by decide +kernel)
  have hscanned : s.reports.map (·.args) = [["\\u\x7b\x7d"]] := by decide +kernel
  rw [hreports, List.map_cons, hargs] at hscanned
  simp at hscanned

end Lexer

end GrammarFrontend
