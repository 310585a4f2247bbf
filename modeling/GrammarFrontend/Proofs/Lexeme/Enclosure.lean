import GrammarFrontend.Proofs.Lexeme.Alone

/-! Text up to a closing character on one line, where a backslash hides the character after it.
Quotations in embedded code, character sets and string literals all end in this way, although each
of them reads backslashes in a manner of its own.
-/

namespace GrammarFrontend

/-- A text ends with a backslash that hides the next character: one that no other hides. -/
def hidesNext (before : List Char) : Bool :=
  before.foldl (fun hidden c => c == '\\' && !hidden) false

/-- The text stands on one line before the first `closing` character that no backslash hides. -/
structure Enclosed (closing : Char) (body : List Char) : Prop where
  line : ∀ c ∈ body, isLineBreak c = false
  unhidden : hidesNext body = false
  first : ∀ before after, body = before ++ closing :: after → hidesNext before = true

/-- A text has a closing character on its first line that no backslash hides, and `rest` is what
follows the first one.
-/
def ClosedBefore (closing : Char) (text rest : List Char) : Prop :=
  ∃ body, Enclosed closing body ∧ text = body ++ closing :: rest

/-- A text from which on no character on the line closes it. -/
def Unclosed (closing : Char) (text : List Char) : Prop :=
  ∀ body rest, Enclosed closing body → text ≠ body ++ closing :: rest

-----------------------------------------------------------------------------------------
-- Hidden characters
-----------------------------------------------------------------------------------------

/-- A backslash and the character that it hides leave the rest as it is. -/
theorem hidesNext_escape (c : Char) (text : List Char)
    : hidesNext ('\\' :: c :: text) = hidesNext text := by
  simp [hidesNext]

theorem hidesNext_cons {c : Char} (h : c ≠ '\\') (text : List Char)
    : hidesNext (c :: text) = hidesNext text := by
  have hc : (c == '\\') = false := beq_eq_false_iff_ne.mpr h
  rw [hidesNext, List.foldl_cons, hc]
  rfl

namespace Enclosed

variable {closing : Char}

theorem nil : Enclosed closing [] := by
  exact { line := by simp, unhidden := rfl, first := by simp }

theorem escape_iff (h : closing ≠ '\\') (c : Char) (body : List Char)
    : Enclosed closing ('\\' :: c :: body) ↔ isLineBreak c = false ∧ Enclosed closing body := by
  constructor
  · intro ⟨line, unhidden, first⟩
    rw [hidesNext_escape] at unhidden
    refine ⟨line c (by simp), fun d hd => line d (by simp [hd]), unhidden, ?_⟩
    intro before after hbody
    rw [← hidesNext_escape c]
    exact first _ after (by rw [hbody]; rfl)
  · intro ⟨hbreak, line, unhidden, first⟩
    refine ⟨?_, (hidesNext_escape c body).trans unhidden, ?_⟩
    · intro d hd
      rcases List.mem_cons.mp hd with rfl | hd
      · rfl
      rcases List.mem_cons.mp hd with rfl | hd
      · exact hbreak
      · exact line d hd
    · intro before after hbody
      match before with
      | [] => exact absurd (List.cons.inj hbody).1.symm h
      | [d] =>
          obtain ⟨rfl, -⟩ := List.cons.inj hbody
          rfl
      | d :: e :: before =>
          simp only [List.cons_append, List.cons.injEq] at hbody
          obtain ⟨rfl, rfl, hbody⟩ := hbody
          rw [hidesNext_escape]
          exact first before after hbody

theorem cons_iff {c : Char} (h : c ≠ '\\') (body : List Char)
    : Enclosed closing (c :: body)
      ↔ isLineBreak c = false ∧ c ≠ closing ∧ Enclosed closing body := by
  constructor
  · intro ⟨line, unhidden, first⟩
    rw [hidesNext_cons h] at unhidden
    refine ⟨line c (by simp), ?_, fun d hd => line d (by simp [hd]), unhidden, ?_⟩
    · rintro rfl
      cases first [] body rfl
    · intro before after hbody
      rw [← hidesNext_cons h]
      exact first _ after (by rw [hbody]; rfl)
  · intro ⟨hbreak, hclosing, line, unhidden, first⟩
    refine ⟨?_, (hidesNext_cons h body).trans unhidden, ?_⟩
    · intro d hd
      rcases List.mem_cons.mp hd with rfl | hd
      · exact hbreak
      · exact line d hd
    · intro before after hbody
      cases before with
      | nil => exact absurd (List.cons.inj hbody).1 hclosing
      | cons d before =>
          rw [List.cons_append, List.cons.injEq] at hbody
          obtain ⟨rfl, hbody⟩ := hbody
          rw [hidesNext_cons h]
          exact first before after hbody

/-- A backslash at the end hides what would close the text. -/
theorem not_backslash : ¬ Enclosed closing ['\\'] := by
  intro ⟨_, unhidden, _⟩
  cases unhidden

end Enclosed

namespace ClosedBefore

variable {closing : Char} {rest : List Char}

theorem not_nil : ¬ ClosedBefore closing [] rest := by
  rintro ⟨body, -, htext⟩
  simp at htext

theorem not_backslash (h : closing ≠ '\\') : ¬ ClosedBefore closing ['\\'] rest := by
  rintro ⟨body, enclosed, htext⟩
  cases body with
  | nil => exact h (List.cons.inj htext).1.symm
  | cons d body => simp at htext

theorem escape_iff (h : closing ≠ '\\') (c : Char) (text : List Char)
    : ClosedBefore closing ('\\' :: c :: text) rest
      ↔ isLineBreak c = false ∧ ClosedBefore closing text rest := by
  constructor
  · rintro ⟨body, enclosed, htext⟩
    match body with
    | [] => exact absurd (List.cons.inj htext).1.symm h
    | [d] =>
        obtain ⟨rfl, -⟩ := List.cons.inj htext
        exact absurd enclosed Enclosed.not_backslash
    | d :: e :: body =>
        simp only [List.cons_append, List.cons.injEq] at htext
        obtain ⟨rfl, rfl, rfl⟩ := htext
        obtain ⟨hbreak, enclosed⟩ := (Enclosed.escape_iff h c body).mp enclosed
        exact ⟨hbreak, body, enclosed, rfl⟩
  · rintro ⟨hbreak, body, enclosed, rfl⟩
    exact ⟨'\\' :: c :: body, (Enclosed.escape_iff h c body).mpr ⟨hbreak, enclosed⟩, rfl⟩

theorem closing_iff (text : List Char)
    : ClosedBefore closing (closing :: text) rest ↔ text = rest := by
  constructor
  · rintro ⟨body, enclosed, htext⟩
    cases body with
    | nil => exact (List.cons.inj htext).2
    | cons d body =>
        rw [List.cons_append, List.cons.injEq] at htext
        obtain ⟨rfl, -⟩ := htext
        cases enclosed.first [] body rfl
  · rintro rfl
    exact ⟨[], .nil, rfl⟩

theorem cons_iff {c : Char} (h : c ≠ '\\') (hclosing : c ≠ closing) (text : List Char)
    : ClosedBefore closing (c :: text) rest
      ↔ isLineBreak c = false ∧ ClosedBefore closing text rest := by
  constructor
  · rintro ⟨body, enclosed, htext⟩
    cases body with
    | nil => exact absurd (List.cons.inj htext).1 hclosing
    | cons d body =>
        rw [List.cons_append, List.cons.injEq] at htext
        obtain ⟨rfl, rfl⟩ := htext
        obtain ⟨hbreak, -, enclosed⟩ := (Enclosed.cons_iff h body).mp enclosed
        exact ⟨hbreak, body, enclosed, rfl⟩
  · rintro ⟨hbreak, body, enclosed, rfl⟩
    exact ⟨c :: body, (Enclosed.cons_iff h body).mpr ⟨hbreak, hclosing, enclosed⟩, rfl⟩

end ClosedBefore

-----------------------------------------------------------------------------------------
-- Quotations
-----------------------------------------------------------------------------------------

namespace Quotation

/-- A quotation ends behind the first closing quote on its line that no backslash hides, by the
recursion of `rest?`.
-/
theorem rest?_eq_some_iff {quote : Char} (hslash : quote ≠ '\\')
    (hline : isLineBreak quote = false) {text rest : List Char}
    : rest? quote text = some rest ↔ ClosedBefore quote text rest := by
  fun_induction rest? quote text with
  | case1 => simp [ClosedBefore.not_nil]
  | case2 => simp [ClosedBefore.not_backslash hslash]
  | case3 c text hbreak => simp [ClosedBefore.escape_iff hslash, hbreak]
  | case4 c text hbreak ih => simp [ClosedBefore.escape_iff hslash, hbreak, ih]
  | case5 c text hlast hmore hbreak =>
      have hquote : c ≠ quote := by
        rintro rfl
        simp [hline] at hbreak
      simp [ClosedBefore.cons_iff (ne_backslash hlast hmore) hquote, hbreak]
  | case6 text => simp [ClosedBefore.closing_iff]
  | case7 c text hlast hmore hbreak hquote ih =>
      simp [ClosedBefore.cons_iff (ne_backslash hlast hmore) hquote, hbreak, ih]

/-- There is no quotation exactly where no quote on the line closes it. -/
theorem rest?_eq_none_iff {quote : Char} (hslash : quote ≠ '\\')
    (hline : isLineBreak quote = false) {text : List Char}
    : rest? quote text = none ↔ Unclosed quote text := by
  rw [Option.eq_none_iff_forall_ne_some]
  constructor
  · intro h body rest enclosed htext
    exact h rest ((rest?_eq_some_iff hslash hline).mpr ⟨body, enclosed, htext⟩)
  · intro h rest hrest
    obtain ⟨body, enclosed, htext⟩ := (rest?_eq_some_iff hslash hline).mp hrest
    exact h body rest enclosed htext

end Quotation

-----------------------------------------------------------------------------------------
-- Text that ends with its line at the latest
-----------------------------------------------------------------------------------------

/-- A text up to where its first line ends. -/
def firstLine (text : List Char) : List Char := text.takeWhile (fun c => !isLineBreak c)

/-- What is left of a text where its first line ends. -/
def afterLine (text : List Char) : List Char := text.dropWhile (fun c => !isLineBreak c)

theorem firstLine_append (text : List Char) : firstLine text ++ afterLine text = text :=
  List.takeWhile_append_dropWhile

theorem afterLine_of_break {c : Char} (h : isLineBreak c = true) (text : List Char)
    : afterLine (c :: text) = c :: text := by
  simp [afterLine, h]

theorem afterLine_cons {c : Char} (h : isLineBreak c = false) (text : List Char)
    : afterLine (c :: text) = afterLine text := by
  simp [afterLine, h]

/-- A text without line breaks is what stands before the end of its line. -/
theorem afterLine_append {body rest : List Char} (line : ∀ c ∈ body, isLineBreak c = false)
    (ends : AtLineEnd rest)
    : afterLine (body ++ rest) = rest := by
  induction body with
  | nil =>
      cases rest with
      | nil => rfl
      | cons c rest => exact afterLine_of_break (ends c rfl) rest
  | cons c body ih =>
      rw [List.forall_mem_cons] at line
      rw [List.cons_append, afterLine_cons line.1, ih line.2]

theorem firstLine_line (text : List Char) : ∀ c ∈ firstLine text, isLineBreak c = false := by
  intro c hc
  simpa using List.all_eq_true.mp List.all_takeWhile c hc

/-- What is left behind the first line begins with a line break, by induction on the text. -/
theorem afterLine_ends (text : List Char) : AtLineEnd (afterLine text) := by
  induction text with
  | nil => simp [AtLineEnd, afterLine]
  | cons c text ih =>
      cases hbreak : isLineBreak c with
      | true =>
          rw [afterLine_of_break hbreak]
          simpa [AtLineEnd] using hbreak
      | false =>
          rw [afterLine_cons hbreak]
          exact ih

/-- Where a text ends that `closing` closes or that its line ends: whether it is closed, and what is
left there.
-/
def lineClose (closing : Char) (text : List Char) : Bool × List Char :=
  match Quotation.rest? closing text with
  | some rest => (true, rest)
  | none => (false, afterLine text)

section LineClose

variable {closing c : Char}

theorem lineClose_nil : lineClose closing [] = (false, []) := rfl

theorem lineClose_backslash : lineClose closing ['\\'] = (false, []) := rfl

theorem ne_backslash_of_break (h : isLineBreak c = true) : c ≠ '\\' := by
  rintro rfl
  cases h

theorem lineClose_of_break (h : isLineBreak c = true) (text : List Char)
    : lineClose closing (c :: text) = (false, c :: text) := by
  rw [lineClose, Quotation.rest?_cons (ne_backslash_of_break h), if_pos h, afterLine_of_break h]

theorem lineClose_closing (hslash : closing ≠ '\\') (hline : isLineBreak closing = false)
    (text : List Char)
    : lineClose closing (closing :: text) = (true, text) := by
  rw [lineClose, Quotation.rest?_cons hslash, if_neg (Bool.eq_false_iff.mp hline), if_pos rfl]

theorem lineClose_cons (hslash : c ≠ '\\') (hline : isLineBreak c = false) (hclosing : c ≠ closing)
    (text : List Char)
    : lineClose closing (c :: text) = lineClose closing text := by
  rw [lineClose, Quotation.rest?_cons hslash, if_neg (Bool.eq_false_iff.mp hline), if_neg hclosing,
    afterLine_cons hline, lineClose]

theorem lineClose_escape_of_break (h : isLineBreak c = true) (text : List Char)
    : lineClose closing ('\\' :: c :: text) = (false, c :: text) := by
  rw [lineClose, Quotation.rest?_escape, if_pos h, afterLine_cons (by decide), afterLine_of_break h]

theorem lineClose_escape (h : isLineBreak c = false) (text : List Char)
    : lineClose closing ('\\' :: c :: text) = lineClose closing text := by
  rw [lineClose, Quotation.rest?_escape, if_neg (Bool.eq_false_iff.mp h),
    afterLine_cons (by decide), afterLine_cons h, lineClose]

/-- A closing character on the line that no backslash hides ends the text. -/
theorem lineClose_of_closedBefore (hslash : closing ≠ '\\') (hline : isLineBreak closing = false)
    {text rest : List Char} (h : ClosedBefore closing text rest)
    : lineClose closing text = (true, rest) := by
  rw [lineClose, (Quotation.rest?_eq_some_iff hslash hline).mpr h]

/-- Without such a character the text ends with its line. -/
theorem lineClose_of_unclosed (hslash : closing ≠ '\\') (hline : isLineBreak closing = false)
    {text : List Char} (h : Unclosed closing text)
    : lineClose closing text = (false, afterLine text) := by
  rw [lineClose, (Quotation.rest?_eq_none_iff hslash hline).mpr h]

end LineClose

/-- A character set ends at a closing bracket or with its line, by the recursion of `close`. -/
theorem CharSet.close_eq (text : List Char) : close text = lineClose ']' text := by
  fun_induction close text with
  | case1 => exact lineClose_nil.symm
  | case2 c text hbreak => exact (lineClose_escape_of_break hbreak text).symm
  | case3 c text hbreak ih => rw [lineClose_escape (Bool.eq_false_iff.mpr hbreak), ih]
  | case4 c text hmore hbreak => exact (lineClose_of_break hbreak text).symm
  | case5 text => exact (lineClose_closing (by decide) (by decide) text).symm
  | case6 c text hmore hbreak hc ih =>
      by_cases hslash : c = '\\'
      · subst hslash
        cases text with
        | cons d text => exact (hmore d text rfl rfl).elim
        | nil => exact ih.trans lineClose_backslash.symm
      · rw [lineClose_cons hslash (Bool.eq_false_iff.mpr hbreak) hc, ih]

theorem CharSet.read_of_close {p : Probe} {rest : List Char} {closed : Bool}
    (h : close (p.rest.drop 1) = (closed, rest))
    : read p
      = if closed then .plain .charSet (p.moveTo rest)
        else .unterminated .charSet (p.moveTo rest) p.rest .unterminatedCharSet := by
  rw [read, h]

end GrammarFrontend
