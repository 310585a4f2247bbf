import GrammarFrontend.Lexeme.Basic
import GrammarFrontend.Lexeme.Comment
import GrammarFrontend.Lexeme.Quotation
import GrammarFrontend.Source.Character

/-! Embedded code: actions in braces and argument actions in brackets. Both nest, and neither counts
what a backslash or a quotation hides; an action hides its comments too.
-/

namespace GrammarFrontend.Nesting

/-- How the reading of nested code ends: at its closing mark, at the end of the input, or at a
closing mark that no opening mark precedes. -/
inductive Ending where
  | closed
  | unfinished
  | unbalanced
deriving DecidableEq, Repr

/-- Skips a quotation, or its opening quote alone if there is no closing one. -/
def skipQuotation (p : Probe) : Probe :=
  match p.speculate Quotation.skip with
  | (some _, next) => next
  | (none, next) => next.skip 1

theorem skipQuotation_suffix (p : Probe) : (skipQuotation p).rest <:+ p.rest.tail := by
  unfold skipQuotation
  cases h : Quotation.skip p.rest with
  | none => simp [Probe.speculate_of_none h, Probe.skip, Probe.moveTo]
  | some found =>
      obtain ⟨finding, rest⟩ := found
      rw [Probe.speculate_of_some h]
      exact Quotation.skip_suffix h

theorem skipQuotation_length_lt {c : Char} {text : List Char} {trials : Trials}
    : (skipQuotation { rest := c :: text, trials }).rest.length < text.length + 1 :=
  Nat.lt_succ_of_le (skipQuotation_suffix _).length_le

/-- Reads code in braces up to the brace that closes the outermost one; `depth` braces are open. -/
def closeBrace (depth : Nat) : Probe → Ending × Probe
  | { rest := [], trials } => (.unfinished, { rest := [], trials })
  | { rest := '{' :: text, trials } => closeBrace (depth + 1) { rest := text, trials }
  | { rest := '}' :: text, trials } =>
      match depth with
      | 0 => (.unbalanced, { rest := text, trials })
      | 1 => (.closed, { rest := text, trials })
      | depth + 2 => closeBrace (depth + 1) { rest := text, trials }
  | { rest := '\\' :: text, trials } => closeBrace depth { rest := text.drop 1, trials }
  | { rest := '/' :: '*' :: text, trials } =>
      closeBrace depth { rest := (Comment.afterClose text).getD [], trials }
  | { rest := '/' :: '/' :: text, trials } =>
      closeBrace depth { rest := text.dropWhile (fun c => !isLineBreak c), trials }
  | { rest := c :: text, trials } =>
      if Quotation.isQuote c then
        closeBrace depth (skipQuotation { rest := c :: text, trials })
      else
        closeBrace depth { rest := text, trials }
termination_by p => p.rest.length
decreasing_by
  · simp
  · simp
  · simp only [List.length_drop, List.length_cons]
    omega
  · cases h : Comment.afterClose text with
    | none => simp
    | some rest =>
        have := (Comment.afterClose_suffix h).length_le
        simp
        omega
  · have := (List.dropWhile_suffix (l := text) (fun c => !isLineBreak c)).length_le
    simp
    omega
  · exact skipQuotation_length_lt
  · simp

/-- Reads code in brackets up to the bracket that closes the outermost one; `depth` brackets are
open. -/
def closeBracket (depth : Nat) : Probe → Ending × Probe
  | { rest := [], trials } => (.unfinished, { rest := [], trials })
  | { rest := '[' :: text, trials } => closeBracket (depth + 1) { rest := text, trials }
  | { rest := ']' :: text, trials } =>
      match depth with
      | 0 => (.unbalanced, { rest := text, trials })
      | 1 => (.closed, { rest := text, trials })
      | depth + 2 => closeBracket (depth + 1) { rest := text, trials }
  | { rest := '\\' :: text, trials } => closeBracket depth { rest := text.drop 1, trials }
  | { rest := c :: text, trials } =>
      if Quotation.isQuote c then
        closeBracket depth (skipQuotation { rest := c :: text, trials })
      else
        closeBracket depth { rest := text, trials }
termination_by p => p.rest.length
decreasing_by
  · simp
  · simp
  · simp only [List.length_drop, List.length_cons]
    omega
  · exact skipQuotation_length_lt
  · simp

theorem closeBrace_suffix (depth : Nat) (p : Probe) : (closeBrace depth p).2.rest <:+ p.rest := by
  fun_induction closeBrace depth p with
  | case1 => exact List.suffix_refl _
  | case2 depth text trials ih => exact ih.trans (List.suffix_cons _ _)
  | case3 text trials => exact List.suffix_cons _ _
  | case4 text trials => exact List.suffix_cons _ _
  | case5 text trials depth ih => exact ih.trans (List.suffix_cons _ _)
  | case6 depth text trials ih =>
      exact ih.trans ((List.drop_suffix 1 text).trans (List.suffix_cons _ _))
  | case7 depth text trials ih =>
      refine ih.trans ?_
      cases h : Comment.afterClose text with
      | none => exact List.nil_suffix
      | some rest => exact (Comment.afterClose_suffix h).trans (List.suffix_append ['/', '*'] text)
  | case8 depth text trials ih =>
      exact ih.trans ((List.dropWhile_suffix _).trans (List.suffix_append ['/', '/'] text))
  | case9 =>
      rename_i ih
      exact ih.trans ((skipQuotation_suffix _).trans (List.tail_suffix _))
  | case10 =>
      rename_i ih
      exact ih.trans (List.suffix_cons _ _)

theorem closeBracket_suffix (depth : Nat) (p : Probe)
    : (closeBracket depth p).2.rest <:+ p.rest := by
  fun_induction closeBracket depth p with
  | case1 => exact List.suffix_refl _
  | case2 depth text trials ih => exact ih.trans (List.suffix_cons _ _)
  | case3 text trials => exact List.suffix_cons _ _
  | case4 text trials => exact List.suffix_cons _ _
  | case5 text trials depth ih => exact ih.trans (List.suffix_cons _ _)
  | case6 depth text trials ih =>
      exact ih.trans ((List.drop_suffix 1 text).trans (List.suffix_cons _ _))
  | case7 =>
      rename_i ih
      exact ih.trans ((skipQuotation_suffix _).trans (List.tail_suffix _))
  | case8 =>
      rename_i ih
      exact ih.trans (List.suffix_cons _ _)

/-- An action, or a semantic predicate if a question mark follows its closing brace; the probe
stands before the opening brace. -/
def action (p : Probe) : Lexeme :=
  match closeBrace 1 (p.skip 1) with
  | (.closed, next) =>
      match next.rest with
      | '?' :: rest => .plain .sempred (next.moveTo rest)
      | _ => .plain .action next
  | (_, next) => .unterminated .action next p.rest .unterminatedAction

theorem action_suffix (p : Probe) : (action p).rest <:+ p.rest.drop 1 := by
  have hs := closeBrace_suffix 1 (p.skip 1)
  unfold action
  split
  · rename_i next h
    rw [h] at hs
    split
    · rename_i rest hr
      exact (hr ▸ List.suffix_cons _ _ : rest <:+ next.rest).trans hs
    · exact hs
  · rename_i ending next _ h
    rw [h] at hs
    exact hs

/-- An argument action; the probe stands before the opening bracket. -/
def argAction (p : Probe) : Lexeme :=
  match closeBracket 1 (p.skip 1) with
  | (.closed, next) => .plain .argAction next
  | (_, next) => .unterminated .argAction next p.rest .unterminatedArgAction

theorem argAction_suffix (p : Probe) : (argAction p).rest <:+ p.rest.drop 1 := by
  have hs := closeBracket_suffix 1 (p.skip 1)
  unfold argAction
  split
  · rename_i next h
    rw [h] at hs
    exact hs
  · rename_i ending next _ h
    rw [h] at hs
    exact hs

end GrammarFrontend.Nesting
