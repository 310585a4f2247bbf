import GrammarFrontend.Proofs.Lexeme.Kinds

/-! What can be wrong with a lexeme. Delimited text that is not closed is cut at the end of the
input, or of the line where it may not cross lines, and has one fault that covers it; only string
literals have faults inside them, which stand one after another.
-/

namespace GrammarFrontend

/-- The input ends or a line ends where `rest` is left to read. -/
def AtLineEnd (rest : List Char) : Prop := ∀ c ∈ rest.head?, isLineBreak c = true

-----------------------------------------------------------------------------------------
-- Lexemes cut short
-----------------------------------------------------------------------------------------

/-- Without a closing bracket a character set stops where the line or the input ends, by the
recursion of `close`.
-/
theorem CharSet.close_atLineEnd {text : List Char} (h : (close text).1 = false)
    : AtLineEnd (close text).2 := by
  fun_induction close text with
  | case1 => simp [AtLineEnd]
  | case2 c text hc => simpa [AtLineEnd] using hc
  | case3 c text _ ih => exact ih h
  | case4 c text _ hc => simpa [AtLineEnd] using hc
  | case5 => simp at h
  | case6 c text _ _ _ ih => exact ih h

/-- A character set is closed, or it is cut where the line or the input ends. -/
theorem CharSet.read_cases (p : Probe)
    : ∃ next,
        read p = .plain .charSet next
        ∨ read p = .unterminated .charSet next p.rest .unterminatedCharSet
          ∧ AtLineEnd next.rest := by
  cases h : (close (p.rest.drop 1)).1 with
  | true =>
      refine ⟨p.moveTo (close (p.rest.drop 1)).2, .inl ?_⟩
      simp only [read, h, if_true]
  | false =>
      refine ⟨p.moveTo (close (p.rest.drop 1)).2, .inr ⟨?_, close_atLineEnd h⟩⟩
      simp only [read, h, Bool.false_eq_true, if_false]

namespace Nesting

/-- While a brace is open, reading ends at its closing brace or has nothing left to read. The
induction is by the recursion of `closeBrace`; the depth stays positive, so that no closing brace
comes without an opening one.
-/
theorem closeBrace_ending {depth : Nat} {p : Probe} (h : 0 < depth)
    : (closeBrace depth p).1 = .closed
      ∨ (closeBrace depth p).1 = .unfinished ∧ (closeBrace depth p).2.rest = [] := by
  fun_induction closeBrace depth p with
  | case1 => exact .inr ⟨rfl, rfl⟩
  | case2 _ _ _ ih => exact ih (Nat.succ_pos _)
  | case3 => exact absurd h (Nat.lt_irrefl 0)
  | case4 => exact .inl rfl
  | case5 _ _ _ ih => exact ih (Nat.succ_pos _)
  | case6 _ _ _ ih | case7 _ _ _ ih | case8 _ _ _ ih => exact ih h
  | case9 | case10 =>
      rename_i ih
      exact ih h

/-- While a bracket is open, reading ends at its closing bracket or has nothing left to read, by the
recursion of `closeBracket` on a positive depth.
-/
theorem closeBracket_ending {depth : Nat} {p : Probe} (h : 0 < depth)
    : (closeBracket depth p).1 = .closed
      ∨ (closeBracket depth p).1 = .unfinished ∧ (closeBracket depth p).2.rest = [] := by
  fun_induction closeBracket depth p with
  | case1 => exact .inr ⟨rfl, rfl⟩
  | case2 _ _ _ ih => exact ih (Nat.succ_pos _)
  | case3 => exact absurd h (Nat.lt_irrefl 0)
  | case4 => exact .inl rfl
  | case5 _ _ _ ih => exact ih (Nat.succ_pos _)
  | case6 _ _ _ ih => exact ih h
  | case7 | case8 =>
      rename_i ih
      exact ih h

/-- An action or a predicate is closed, or an action is cut at the end of the input. -/
theorem action_cases (p : Probe)
    : ∃ next,
        action p = .plain .action next
        ∨ action p = .plain .sempred next
        ∨ action p = .unterminated .action next p.rest .unterminatedAction ∧ next.rest = [] := by
  have hend := closeBrace_ending (p := p.skip 1) Nat.one_pos
  unfold action
  split
  · rename_i next h
    split
    · exact ⟨_, .inr (.inl rfl)⟩
    · exact ⟨_, .inl rfl⟩
  · rename_i ending next hopen h
    rw [h] at hend
    rcases hend with hclosed | ⟨-, hrest⟩
    · exact absurd hclosed hopen
    · exact ⟨next, .inr (.inr ⟨rfl, hrest⟩)⟩

/-- An argument action is closed, or it is cut at the end of the input. -/
theorem argAction_cases (p : Probe)
    : ∃ next,
        argAction p = .plain .argAction next
        ∨ argAction p = .unterminated .argAction next p.rest .unterminatedArgAction
          ∧ next.rest = [] := by
  have hend := closeBracket_ending (p := p.skip 1) Nat.one_pos
  unfold argAction
  split
  · exact ⟨_, .inl rfl⟩
  · rename_i ending next hopen h
    rw [h] at hend
    rcases hend with hclosed | ⟨-, hrest⟩
    · exact absurd hclosed hopen
    · exact ⟨next, .inr ⟨rfl, hrest⟩⟩

end Nesting

/-- A block comment, documentation or not, is closed, or it is cut at the end of the input with the
fault of its own kind.
-/
theorem Comment.block_cases (p : Probe)
    : ∃ next,
        block p = .plain .comment next
        ∨ block p = .plain .docComment next
        ∨ block p = .unterminated .comment next p.rest .unterminatedComment ∧ next.rest = []
        ∨ block p = .unterminated .docComment next p.rest .unterminatedDocComment
          ∧ next.rest = [] := by
  simp only [block]
  cases ((p.skip 2).speculate docStar).1.isSome <;> split
  · exact ⟨_, .inl rfl⟩
  · exact ⟨_, .inr (.inr (.inl ⟨rfl, rfl⟩))⟩
  · exact ⟨_, .inr (.inl rfl)⟩
  · exact ⟨_, .inr (.inr (.inr ⟨rfl, rfl⟩))⟩

-----------------------------------------------------------------------------------------
-- Faults inside string literals
-----------------------------------------------------------------------------------------

/-- Faults of one kind that stand one after another in the part of a text from where `start` is left
to where `stop` is left. None of them is empty.
-/
def Fault.Ordered (kind : DiagnosticKind) : List Char → List Fault → List Char → Prop
  | start, [], stop => stop <:+ start
  | start, f :: faults, stop =>
      f.kind = kind
      ∧ f.start <:+ start
      ∧ f.stop <:+ f.start
      ∧ f.stop.length < f.start.length
      ∧ Ordered kind f.stop faults stop

/-- Ordered faults stay ordered in a part that begins earlier. -/
theorem Fault.Ordered.mono {kind : DiagnosticKind} {start earlier stop : List Char}
    {faults : List Fault} (h : Fault.Ordered kind start faults stop) (hs : start <:+ earlier)
    : Fault.Ordered kind earlier faults stop := by
  cases faults with
  | nil => exact List.IsSuffix.trans h hs
  | cons f faults => exact ⟨h.1, h.2.1.trans hs, h.2.2⟩

/-- Each of a row of ordered faults lies in the part of the text, by induction on the row. -/
theorem Fault.Ordered.suffix {kind : DiagnosticKind} {start stop : List Char}
    {faults : List Fault} (h : Fault.Ordered kind start faults stop)
    : ∀ f ∈ faults, f.start <:+ start ∧ f.stop <:+ f.start := by
  induction faults generalizing start with
  | nil => simp
  | cons f faults ih =>
      obtain ⟨-, hstart, hstop, -, rest⟩ := h
      intro g hg
      rcases List.mem_cons.mp hg with rfl | hg
      · exact ⟨hstart, hstop⟩
      · obtain ⟨gstart, gstop⟩ := ih rest g hg
        exact ⟨gstart.trans (hstop.trans hstart), gstop⟩

namespace StringLiteral

/-- The faults that reading a literal finds are those of wrong escapes, one after another, by the
recursion of `close`. An escape takes at least its backslash.
-/
theorem close_ordered (text : List Char)
    : Fault.Ordered .invalidEscapeSequence text (close text).faults (close text).rest := by
  fun_induction close text with
  | case1 => exact List.suffix_refl _
  | case2 text found _ ih => exact ih.mono ((escape_suffix text).trans (List.suffix_cons _ _))
  | case3 text found _ ih =>
      have hs : found.2 <:+ text := escape_suffix text
      refine ⟨rfl, List.suffix_refl _, hs.trans (List.suffix_cons _ _), ?_, ih⟩
      exact Nat.lt_succ_of_le hs.length_le
  | case4 => exact List.suffix_refl _
  | case5 => exact List.suffix_cons _ _
  | case6 c text _ _ _ ih => exact ih.mono (List.suffix_cons _ _)

/-- Without a closing quote a literal stops where the line or the input ends, by the recursion of
`close`.
-/
theorem close_atLineEnd {text : List Char} (h : (close text).closed = false)
    : AtLineEnd (close text).rest := by
  fun_induction close text with
  | case1 => simp [AtLineEnd]
  | case2 text found _ ih => exact ih h
  | case3 text found _ ih => exact ih h
  | case4 c text _ hc => simpa [AtLineEnd] using hc
  | case5 => simp at h
  | case6 c text _ _ _ ih => exact ih h

/-- A string literal has the faults of its escapes and, if it is cut where the line or the input
ends, one more that covers it.
-/
theorem read_faults (p : Probe)
    : ∃ escapes,
        Fault.Ordered .invalidEscapeSequence p.rest escapes (read p).rest
        ∧ ((read p).faults = escapes
          ∨ (read p).faults
              = escapes
                ++ [{
                  kind := .unterminatedStringLiteral
                  start := p.rest
                  stop := (read p).rest
                }]
            ∧ AtLineEnd (read p).rest) := by
  refine ⟨(close (p.rest.drop 1)).faults, (close_ordered _).mono (List.drop_suffix 1 _), ?_⟩
  cases h : (close (p.rest.drop 1)).closed with
  | true =>
      refine .inl ?_
      simp only [read, h, if_true, List.append_nil]
  | false =>
      refine .inr ⟨?_, close_atLineEnd h⟩
      simp only [read, h, Bool.false_eq_true, if_false, Lexeme.rest, Probe.moveTo]

end StringLiteral

-----------------------------------------------------------------------------------------
-- Faults of any lexeme
-----------------------------------------------------------------------------------------

/-- Every fault lies in its lexeme: it begins at or after the lexeme does and ends after it begins.
Only string literals have faults that do not cover the whole lexeme.
-/
theorem Lexeme.read_fault_suffix {mode : ScanMode} {naming : Naming} {p : Probe} {x : Lexeme}
    (h : read mode naming p = some x)
    : ∀ f ∈ x.faults, f.start <:+ p.rest ∧ f.stop <:+ f.start := by
  have hrest : x.rest <:+ p.rest := read_rest_suffix h
  have hwhole (kind : DiagnosticKind)
      : ∀ f ∈ [({ kind, start := p.rest, stop := x.rest } : Fault)],
          f.start <:+ p.rest ∧ f.stop <:+ f.start := by
    intro f hf
    obtain rfl := List.mem_singleton.mp hf
    exact ⟨List.suffix_refl _, hrest⟩
  cases read_recognised h with
  | blockComment =>
      obtain ⟨next, he | he | ⟨he, -⟩ | ⟨he, -⟩⟩ := Comment.block_cases p <;> rw [he] at hwhole ⊢
      · simp [plain]
      · simp [plain]
      · exact hwhole _
      · exact hwhole _
  | lineComment => simp [Comment.line]
  | action =>
      obtain ⟨next, he | he | ⟨he, -⟩⟩ := Nesting.action_cases p <;> rw [he] at hwhole ⊢
      · simp [plain]
      · simp [plain]
      · exact hwhole _
  | charSet =>
      obtain ⟨next, he | ⟨he, -⟩⟩ := CharSet.read_cases p <;> rw [he] at hwhole ⊢
      · simp [plain]
      · exact hwhole _
  | argAction =>
      obtain ⟨next, he | ⟨he, -⟩⟩ := Nesting.argAction_cases p <;> rw [he] at hwhole ⊢
      · simp [plain]
      · exact hwhole _
  | stringLiteral =>
      obtain ⟨escapes, ordered, he | ⟨he, -⟩⟩ := StringLiteral.read_faults p <;> rw [he]
      · exact ordered.suffix
      · intro f hf
        rcases List.mem_append.mp hf with hf | hf
        · exact ordered.suffix f hf
        · exact hwhole _ f hf
  | @undelimited c text =>
      obtain ⟨kind, next, -, he⟩ := undelimited_eq_plain naming p c text
      simp [he, plain]

end GrammarFrontend
