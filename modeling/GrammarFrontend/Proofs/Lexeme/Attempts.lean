import GrammarFrontend.Proofs.Lexeme.Comments
import GrammarFrontend.Proofs.Source.Moves

/-! Trials as attempts made with a cursor. An attempt moves the cursor on, one look or one accepted
text at a time, and may break off anywhere; a reading says only what is found in a text and what is
left of it. Every trial can be made as such an attempt: it finds what the reading finds, and where
the reading fails, the attempt is left standing somewhere further on.
-/

namespace GrammarFrontend

/-- The trials that are made where one character does not decide. -/
inductive Trial where
  /-- The second star of a documentation comment. -/
  | docStar
  /-- The note of a file and a line in a line comment. -/
  | directive
  /-- A quotation in embedded code. -/
  | quotation
  /-- The brace of a block behind its opening word. -/
  | brace
deriving DecidableEq, Repr

/-- What a trial finds if it succeeds. -/
def Trial.Finding : Trial → Type
  | directive => List Char × Nat
  | _ => Unit

/-- What a trial finds in a text, and what it leaves of it. -/
def Trial.read : (t : Trial) → List Char → Option (t.Finding × List Char)
  | docStar => Comment.docStar
  | directive => Comment.directive
  | quotation => Quotation.skip
  | brace => Word.brace

/-- Work with a cursor that can fail; what was moved then stays moved. -/
abbrev Attempt (α : Type) := OptionT (StateM Cursor) α

namespace Attempt

-----------------------------------------------------------------------------------------
-- Attempts by moves
-----------------------------------------------------------------------------------------

/-- Moves the cursor, and fails unless the move reports success. -/
def ofMove (move : Cursor → Bool × Cursor) : Attempt Unit := do
  let (found, next) := move (← get)
  set next
  guard found

def accept (text : List Char) : Attempt Unit := ofMove (·.accept text)

/-- Passes all characters at the front that satisfy `f`, of which there may be none. -/
def pass (f : Char → Bool) : Attempt Unit := ofMove (fun c => (true, (c.advanceWhile f).2))

/-- Passes all characters at the front that satisfy `f`, of which there must be one. -/
def passSome (f : Char → Bool) : Attempt Unit :=
  ofMove (fun c => (decide (0 < (c.advanceWhile f).1), (c.advanceWhile f).2))

/-- Looks at the next character, if there is one. -/
def look (f : Option Char → Bool) : Attempt Unit := ofMove (fun c => (f (c.peek 0), c))

/-- The text over which an attempt moves, by a mark taken before it. -/
def taken (attempt : Attempt Unit) : Attempt (List Char) := do
  let start := (← get).mark
  attempt
  OptionT.mk (return (← get).textSince start)

/-- Moves behind the closing quote, given that the opening one is passed. It breaks off at the end
of the line or of the input, and before a line break that a backslash stands in front of.
-/
def closeQuotation (quote : Char) (c : Cursor) : Option Unit × Cursor :=
  match _ : c.peek 0 with
  | none => (none, c)
  | some next =>
      if next = '\\' then
        match c.advance.peek 0 with
        | none => (none, c.advance)
        | some hidden =>
            if isLineBreak hidden then (none, c.advance)
            else closeQuotation quote c.advance.advance
      else if isLineBreak next then (none, c.advance)
      else if next = quote then (some (), c.advance)
      else closeQuotation quote c.advance
termination_by c.rest.length
decreasing_by
  · rw [Cursor.advance_rest c.advance, List.length_tail]
    exact Nat.lt_of_le_of_lt (Nat.sub_le _ _) (Cursor.advance_length_lt ‹_›)
  · exact Cursor.advance_length_lt ‹_›

def quotation (quote : Char) : Attempt Unit := do
  accept [quote]
  closeQuotation quote

/-- A quotation by whichever quote is next. -/
def anyQuotation : Attempt Unit := do
  match (← get).peek 0 with
  | none => failure
  | some quote => quotation quote

def docStar : Attempt Unit := do
  accept ['*']
  look (fun next => next != some '/')

def brace : Attempt Unit := do
  pass isBlank
  accept ['{']

def fileName : Attempt (List Char) := do
  let quoted ← taken (quotation '"')
  return quoted.tail.dropLast

def lineNumber : Attempt Nat := do
  let digits ← taken (passSome Char.isDigit)
  guard (decimalValue digits < sizeBound)
  return decimalValue digits

def directive : Attempt (List Char × Nat) := do
  accept " $ANTLR".toList
  passSome isInlineBlank
  accept "src".toList
  passSome isInlineBlank
  let file ← fileName
  passSome isInlineBlank
  let line ← lineNumber
  return (file, line)

-----------------------------------------------------------------------------------------
-- Running attempts
-----------------------------------------------------------------------------------------

variable {α β : Type}

theorem run_bind (first : Attempt α) (next : α → Attempt β) (c : Cursor)
    : (first >>= next) c
      = match first c with
        | (some a, d) => next a d
        | (none, d) => (none, d) := by
  change OptionT.bind first next c = _
  simp only [OptionT.bind, OptionT.mk]
  change StateT.bind _ _ c = _
  unfold StateT.bind
  cases first c with
  | mk found d => cases found <;> rfl

theorem run_ofMove (move : Cursor → Bool × Cursor) (c : Cursor)
    : ofMove move c = (if (move c).1 then some () else none, (move c).2) := by
  change (guard ((move c).1 = true) : Attempt Unit) (move c).2 = _
  cases (move c).1 <;> rfl

theorem run_taken (attempt : Attempt Unit) (c : Cursor)
    : taken attempt c
      = match attempt c with
        | (some _, d) => (d.textSince c.mark, d)
        | (none, d) => (none, d) := by
  change (attempt >>= fun _ => OptionT.mk (return (← get).textSince c.mark) : Attempt _) c = _
  rw [run_bind]
  cases attempt c with
  | mk found d => cases found <;> rfl

-----------------------------------------------------------------------------------------
-- What attempts carry out
-----------------------------------------------------------------------------------------

/-- How an attempt from a place ends: with a finding behind the text that it took, or broken off
behind whatever text it had passed by then.
-/
inductive EndsWith (c : Cursor) : Option α × Cursor → Option (α × List Char) → Prop
  | found {a : α} {text rest : List Char} (ahead : c.rest = text ++ rest)
    : EndsWith c (some a, c.advanceOver text) (some (a, rest))
  | broken {text : List Char} (ahead : text <+: c.rest)
    : EndsWith c (none, c.advanceOver text) none

/-- Wherever an attempt is made, it ends with what a reading finds there. -/
def CarriesOut (attempt : Attempt α) (read : List Char → Option (α × List Char)) : Prop :=
  ∀ c : Cursor, EndsWith c (attempt c) (read c.rest)

theorem EndsWith.foundHere (c : Cursor) (a : α) : EndsWith c (some a, c) (some (a, c.rest)) :=
  .found (List.nil_append c.rest).symm

theorem EndsWith.brokenHere (c : Cursor) : EndsWith (α := α) c (none, c) none :=
  .broken List.nil_prefix

/-- What ends from further on ends so from here. -/
theorem EndsWith.after {c : Cursor} {text rest : List Char} {result : Option α × Cursor}
    {found : Option (α × List Char)} (ahead : c.rest = text ++ rest)
    (h : EndsWith (c.advanceOver text) result found)
    : EndsWith c result found := by
  have hrest := Cursor.advanceOver_rest ahead
  cases h with
  | found aheadMore =>
      rw [hrest] at aheadMore
      rw [Cursor.advanceOver_advanceOver]
      exact .found (by rw [ahead, aheadMore, List.append_assoc])
  | broken aheadMore =>
      rw [hrest] at aheadMore
      rw [Cursor.advanceOver_advanceOver]
      refine .broken ?_
      rw [ahead]
      exact (List.prefix_append_right_inj text).mpr aheadMore

namespace CarriesOut

/-- Attempts one after another carry out the readings one after another. -/
theorem bind {first : Attempt α} {next : α → Attempt β}
    {read : List Char → Option (α × List Char)}
    {readNext : α → List Char → Option (β × List Char)} (hf : CarriesOut first read)
    (hn : ∀ a, CarriesOut (next a) (readNext a))
    : CarriesOut (first >>= next)
        (fun text => (read text).bind (fun found => readNext found.1 found.2)) := by
  intro c
  have hends := hf c
  dsimp only
  rw [run_bind]
  generalize first c = result, read c.rest = found at hends
  cases hends with
  | broken ahead => exact .broken ahead
  | @found a text rest ahead =>
      have hmore := hn a (c.advanceOver text)
      rw [Cursor.advanceOver_rest ahead] at hmore
      exact hmore.after ahead

theorem pure (a : α) : CarriesOut (Pure.pure a) (fun text => some (a, text)) :=
  fun c => .foundHere c a

theorem congr {attempt : Attempt α} {read reading : List Char → Option (α × List Char)}
    (h : CarriesOut attempt read) (same : ∀ text, reading text = read text)
    : CarriesOut attempt reading := by
  rwa [funext same]

/-- What an attempt has taken is the text before what it leaves. -/
theorem taken {attempt : Attempt Unit} {read : List Char → Option (Unit × List Char)}
    (h : CarriesOut attempt read)
    : CarriesOut (taken attempt)
        (fun text => (read text).map (fun found => (textBefore text found.2, found.2))) := by
  intro c
  have hends := h c
  dsimp only
  rw [run_taken]
  generalize attempt c = result, read c.rest = found at hends
  cases hends with
  | broken ahead => exact .broken ahead
  | @found a text rest ahead =>
      have hle : c.mark.position.offset ≤ (c.advanceOver text).offset :=
        Nat.le.intro (c.position.advanceOver_offset text).symm
      dsimp only
      rw [Cursor.textSince, if_pos hle, Cursor.advanceOver_rest ahead]
      exact .found ahead

end CarriesOut

-----------------------------------------------------------------------------------------
-- Single attempts
-----------------------------------------------------------------------------------------

theorem accept_carriesOut (text : List Char)
    : CarriesOut (accept text)
        (fun input =>
          if text.isPrefixOf input then some ((), input.drop text.length) else none) := by
  intro c
  rw [accept, run_ofMove, Cursor.accept, Cursor.startsWith]
  dsimp only
  split
  · rename_i hstarts
    obtain ⟨rest, hrest⟩ := List.isPrefixOf_iff_prefix.mp hstarts
    refine .found ?_
    rw [← hrest, List.drop_left]
  · exact .brokenHere c

theorem pass_carriesOut (f : Char → Bool)
    : CarriesOut (pass f) (fun text => some ((), text.dropWhile f)) := by
  intro c
  rw [pass, run_ofMove]
  exact .found List.takeWhile_append_dropWhile.symm

theorem passSome_carriesOut (f : Char → Bool)
    : CarriesOut (passSome f)
        (fun text => if text.takeWhile f = [] then none else some ((), text.dropWhile f)) := by
  intro c
  rw [passSome, run_ofMove]
  simp only [Cursor.advanceWhile, List.length_pos_iff, decide_eq_true_eq, ne_eq, ite_not]
  split
  · exact .broken (List.takeWhile_prefix f)
  · exact .found List.takeWhile_append_dropWhile.symm

theorem look_carriesOut (f : Option Char → Bool)
    : CarriesOut (look f) (fun text => if f text.head? then some ((), text) else none) := by
  intro c
  rw [look, run_ofMove, c.peek_zero]
  dsimp only
  split
  · exact .foundHere c ()
  · exact .brokenHere c

theorem guard_carriesOut (condition : Prop) [Decidable condition]
    : CarriesOut (guard condition) (fun text => if condition then some ((), text) else none) := by
  intro c
  unfold guard
  dsimp only
  split
  · exact .foundHere c ()
  · exact .brokenHere c

-----------------------------------------------------------------------------------------
-- Quotations
-----------------------------------------------------------------------------------------

/-- Moving to the closing quote carries out the reading of it, by the recursion of the moves. -/
theorem closeQuotation_carriesOut (quote : Char)
    : CarriesOut (closeQuotation quote)
        (fun text => (Quotation.rest? quote text).map ((), ·)) := by
  intro c
  dsimp only
  fun_induction closeQuotation quote c with
  | case1 c hpeek =>
      rw [Cursor.rest_of_peek_none hpeek]
      exact .brokenHere c
  | case2 c hend hpeek =>
      obtain ⟨rest, hrest⟩ := Cursor.rest_of_peek hpeek
      have hnil := Cursor.rest_of_peek_none hend
      rw [Cursor.advance_rest, hrest, List.tail_cons] at hnil
      rw [Cursor.advance_eq hrest, hrest, hnil]
      exact .broken (hrest ▸ List.prefix_append ['\\'] rest)
  | case3 c hidden hnext hbreak hpeek =>
      obtain ⟨rest, hrest⟩ := Cursor.rest_of_peek hpeek
      obtain ⟨more, hmore⟩ := Cursor.rest_of_peek hnext
      rw [Cursor.advance_rest, hrest, List.tail_cons] at hmore
      rw [Cursor.advance_eq hrest, hrest, hmore, Quotation.rest?_escape, if_pos hbreak]
      exact .broken (hrest ▸ List.prefix_append ['\\'] rest)
  | case4 c hidden hnext hbreak hpeek ih =>
      obtain ⟨rest, hrest⟩ := Cursor.rest_of_peek hpeek
      obtain ⟨more, hmore⟩ := Cursor.rest_of_peek hnext
      have hover := Cursor.advance_eq hmore
      rw [Cursor.advance_rest, hrest, List.tail_cons] at hmore
      subst hmore
      rw [hover, Cursor.advance_eq hrest, Cursor.advanceOver_advanceOver] at ih ⊢
      have ahead : c.rest = (['\\'] ++ [hidden]) ++ more := hrest
      rw [Cursor.advanceOver_rest ahead] at ih
      rw [hrest, Quotation.rest?_escape, if_neg hbreak]
      exact ih.after ahead
  | case5 c next hpeek hslash hbreak =>
      obtain ⟨rest, hrest⟩ := Cursor.rest_of_peek hpeek
      rw [Cursor.advance_eq hrest, hrest, Quotation.rest?_cons hslash, if_pos hbreak]
      exact .broken (hrest ▸ List.prefix_append [next] rest)
  | case6 c hpeek hslash hbreak =>
      obtain ⟨rest, hrest⟩ := Cursor.rest_of_peek hpeek
      rw [Cursor.advance_eq hrest, hrest, Quotation.rest?_cons hslash, if_neg hbreak, if_pos rfl]
      exact .found hrest
  | case7 c next hpeek hslash hbreak hquote ih =>
      obtain ⟨rest, hrest⟩ := Cursor.rest_of_peek hpeek
      have ahead : c.rest = [next] ++ rest := hrest
      rw [Cursor.advance_eq hrest] at ih ⊢
      rw [Cursor.advanceOver_rest ahead] at ih
      rw [hrest, Quotation.rest?_cons hslash, if_neg hbreak, if_neg hquote]
      exact ih.after ahead

theorem quotation_carriesOut (quote : Char)
    : CarriesOut (quotation quote)
        (fun text =>
          if text.head? = some quote then (Quotation.rest? quote text.tail).map ((), ·)
          else none) := by
  refine ((accept_carriesOut [quote]).bind (fun _ => closeQuotation_carriesOut quote)).congr ?_
  intro text
  cases text with
  | nil => rfl
  | cons next text =>
      by_cases hnext : next = quote
      · subst hnext
        simp
      · simp [hnext, Ne.symm hnext]

theorem anyQuotation_carriesOut : CarriesOut anyQuotation Quotation.skip := by
  intro c
  have hrun
      : anyQuotation c
        = match c.peek 0 with
          | none => (none, c)
          | some quote => quotation quote c := by
    change (match c.peek 0 with
      | none => failure
      | some quote => quotation quote : Attempt Unit) c = _
    cases c.peek 0 <;> rfl
  rw [hrun]
  cases hpeek : c.peek 0 with
  | none =>
      rw [Cursor.rest_of_peek_none hpeek]
      exact .brokenHere c
  | some quote =>
      obtain ⟨rest, hrest⟩ := Cursor.rest_of_peek hpeek
      have hends := quotation_carriesOut quote c
      rw [hrest] at hends ⊢
      simpa [Quotation.skip] using hends

-----------------------------------------------------------------------------------------
-- The trials
-----------------------------------------------------------------------------------------

theorem docStar_carriesOut : CarriesOut docStar Comment.docStar := by
  refine ((accept_carriesOut ['*']).bind
    (fun _ => look_carriesOut (fun next => next != some '/'))).congr ?_
  intro text
  cases text with
  | nil => rfl
  | cons next text =>
      by_cases hnext : next = '*'
      · subst hnext
        cases text with
        | nil => rfl
        | cons after text =>
            by_cases hafter : after = '/'
            · subst hafter
              rfl
            · simp [Comment.docStar, hafter]
      · simp [Comment.docStar_other hnext, Ne.symm hnext]

theorem brace_carriesOut : CarriesOut brace Word.brace := by
  refine ((pass_carriesOut isBlank).bind (fun _ => accept_carriesOut ['{'])).congr ?_
  intro text
  rw [Word.brace, Option.bind_some]
  split
  · rename_i rest hrest
    rw [hrest]
    rfl
  · rename_i hother
    cases hrest : text.dropWhile isBlank with
    | nil => rfl
    | cons next rest =>
        have hnext : next ≠ '{' := by
          rintro rfl
          exact hother rest hrest
        simp [Ne.symm hnext]

theorem word_carriesOut (word : String)
    : CarriesOut (accept word.toList) (fun text => (Comment.after? word text).map ((), ·)) := by
  refine (accept_carriesOut word.toList).congr ?_
  intro text
  rw [Comment.after?, String.length_toList]
  split <;> rfl

theorem blanks_carriesOut
    : CarriesOut (passSome isInlineBlank)
        (fun text => (Comment.afterBlanks? text).map ((), ·)) := by
  refine (passSome_carriesOut isInlineBlank).congr ?_
  intro text
  have hsplit :=
    congrArg List.length (List.takeWhile_append_dropWhile (p := isInlineBlank) (l := text))
  rw [List.length_append] at hsplit
  rw [Comment.afterBlanks?]
  by_cases hnone : text.takeWhile isInlineBlank = []
  · rw [if_pos hnone, if_neg]
    · rfl
    · rw [hnone, List.length_nil] at hsplit
      omega
  · have hpos := List.length_pos_iff.mpr hnone
    rw [if_neg hnone, if_pos (by omega)]
    rfl

theorem fileName_carriesOut : CarriesOut fileName Comment.fileName? := by
  refine ((quotation_carriesOut '"').taken.bind (fun quoted => .pure quoted.tail.dropLast)).congr ?_
  intro text
  cases text with
  | nil => rfl
  | cons next text =>
      by_cases hnext : next = '"'
      · subst hnext
        cases hrest : Quotation.rest? '"' text with
        | none => simp [Comment.fileName?, hrest]
        | some rest =>
            have hs : rest <:+ text := (Quotation.rest?_suffix hrest).trans (List.tail_suffix text)
            obtain ⟨body, rfl⟩ := hs
            have hquoted : textBefore ('"' :: (body ++ rest)) rest = '"' :: body :=
              textBefore_append ('"' :: body) rest
            simp [Comment.fileName?, hrest, hquoted]
      · simp [Comment.fileName?, hnext]

theorem lineNumber_carriesOut : CarriesOut lineNumber Comment.lineNumber? := by
  refine ((passSome_carriesOut Char.isDigit).taken.bind (fun digits =>
    (guard_carriesOut (decimalValue digits < sizeBound)).bind
      (fun _ => .pure (decimalValue digits)))).congr ?_
  intro text
  rw [Comment.lineNumber?]
  by_cases hnone : text.takeWhile Char.isDigit = []
  · simp [hnone]
  · by_cases hfits : decimalValue (text.takeWhile Char.isDigit) < sizeBound
    · simp [hnone, hfits, textBefore_dropWhile]
    · simp [hnone, hfits, textBefore_dropWhile]

theorem directive_carriesOut : CarriesOut directive Comment.directive := by
  refine ((word_carriesOut " $ANTLR").bind fun _ => blanks_carriesOut.bind fun _ =>
    (word_carriesOut "src").bind fun _ => blanks_carriesOut.bind fun _ =>
    fileName_carriesOut.bind fun file => blanks_carriesOut.bind fun _ =>
    lineNumber_carriesOut.bind fun line => .pure (file, line)).congr ?_
  intro text
  simp only [Comment.directive, Option.bind_eq_bind, Option.bind_map]
  rfl

end Attempt

open Attempt in
/-- A trial made with a cursor. -/
def Trial.attempt : (t : Trial) → Attempt t.Finding
  | docStar => Attempt.docStar
  | directive => Attempt.directive
  | quotation => anyQuotation
  | brace => Attempt.brace

/-- Every trial made with a cursor finds what its reading finds. -/
theorem Trial.carriesOut (t : Trial) : Attempt.CarriesOut t.attempt t.read := by
  cases t with
  | docStar => exact Attempt.docStar_carriesOut
  | directive => exact Attempt.directive_carriesOut
  | quotation => exact Attempt.anyQuotation_carriesOut
  | brace => exact Attempt.brace_carriesOut

end GrammarFrontend
