import GrammarFrontend.Proofs.Lexeme.Attempts

/-! Which trials the reading of a lexeme makes, and where. Comments and the openers of blocks take
one trial each, and embedded code one for each quote at which an item of it begins. All else of a
reading are moves forward, so that the record of trials behind a lexeme is that of the last one.
-/

namespace GrammarFrontend

/-- A trial made where `text` is left to read. -/
structure Tried where
  trial : Trial
  text : List Char
deriving DecidableEq, Repr

def Tried.failed (t : Tried) : Bool := (t.trial.read t.text).isNone

/-- Whether the latest of some trials failed, or else the latest before them. -/
def failedLast (before : Bool) (tried : List Tried) : Bool :=
  (tried.getLast?.map Tried.failed).getD before

theorem failedLast_append (before : Bool) (first second : List Tried)
    : failedLast before (first ++ second) = failedLast (failedLast before first) second := by
  rw [failedLast, failedLast, List.getLast?_append]
  cases second.getLast? <;> rfl

-----------------------------------------------------------------------------------------
-- Moves and trials
-----------------------------------------------------------------------------------------

namespace Probe

/-- One probe comes from another by moves forward and by these trials, in their order. -/
inductive Makes : Probe → List Tried → Probe → Prop
  | stay (p : Probe) : Makes p [] p
  | moves {p q : Probe} {tried : List Tried} {rest : List Char} (ahead : rest <:+ p.rest)
    (more : Makes (p.moveTo rest) tried q)
    : Makes p tried q
  | tries {p q : Probe} {tried : List Tried} (trial : Trial)
    (more : Makes (p.speculate trial.read).2 tried q)
    : Makes p ({ trial, text := p.rest } :: tried) q

namespace Makes

/-- A move forward at the end. -/
theorem move {p : Probe} {rest : List Char} (ahead : rest <:+ p.rest)
    : Makes p [] (p.moveTo rest) :=
  .moves ahead (.stay _)

/-- One trial. -/
theorem one (trial : Trial) (p : Probe)
    : Makes p [{ trial, text := p.rest }] (p.speculate trial.read).2 :=
  .tries trial (.stay _)

theorem from_skip {p q : Probe} {tried : List Tried} (n : Nat) (h : Makes (p.skip n) tried q)
    : Makes p tried q :=
  .moves (List.drop_suffix n p.rest) h

/-- What is made one after another is made together, by induction on the first part. -/
theorem trans {p q r : Probe} {first second : List Tried} (hf : Makes p first q)
    (hs : Makes q second r)
    : Makes p (first ++ second) r := by
  induction hf with
  | stay p => exact hs
  | moves ahead _ ih => exact .moves ahead (ih hs)
  | tries trial _ ih => exact .tries trial (ih hs)

/-- The record behind trials says whether the last one failed, by induction on the trials. -/
theorem trials_eq {p q : Probe} {tried : List Tried} (h : Makes p tried q)
    : q.trials = { depth := p.trials.depth, failed := failedLast p.trials.failed tried } := by
  induction h with
  | stay p => rfl
  | moves _ _ ih => exact ih
  | @tries p q tried trial _ ih =>
      have hone
          : (p.speculate trial.read).2.trials
            = {
                depth := p.trials.depth
                failed := failedLast p.trials.failed [{ trial, text := p.rest }]
              } := by
        cases hread : trial.read p.rest with
        | none => simp [speculate_of_none hread, failedLast, Tried.failed, hread]
        | some found => simp [speculate_of_some hread, failedLast, Tried.failed, hread]
      rw [ih, hone, ← failedLast_append]
      rfl

end Makes

end Probe

-----------------------------------------------------------------------------------------
-- Embedded code
-----------------------------------------------------------------------------------------

namespace Nesting

/-- The quotations tried in code that is read with `depth` marks open: one at each item that begins
with a quote, up to the closing mark of the outermost level.
-/
def quotesTried (comments : Bool) (opening closing : Char) : Nat → List Char → List Tried
  | _, [] => []
  | depth, c :: text =>
      if c = opening then quotesTried comments opening closing (depth + 1) text
      else if c = closing then
        if depth ≤ 1 then [] else quotesTried comments opening closing (depth - 1) text
      else
        (if Quotation.isQuote c then [{ trial := .quotation, text := c :: text }] else [])
        ++ quotesTried comments opening closing depth (afterItem comments (c :: text))
termination_by _ text => text.length
decreasing_by
  · exact Nat.lt_succ_self _
  · exact Nat.lt_succ_self _
  · exact afterItem_length_lt comments c text

section

variable {comments : Bool} {opening closing c : Char} {depth : Nat} {text : List Char}
  {trials : Trials} {q : Probe}

/-- A quotation is skipped in one trial, or its quote behind one that failed. -/
theorem skipQuotation_makes (p : Probe)
    : p.Makes [{ trial := .quotation, text := p.rest }] (skipQuotation p) := by
  have hone : p.Makes _ (p.speculate Quotation.skip).2 := Probe.Makes.one .quotation p
  unfold skipQuotation
  split
  · rename_i next h
    rwa [h] at hone
  · rename_i next h
    rw [h] at hone
    exact hone.trans (.move (List.drop_suffix 1 next.rest))

/-- Behind an opening mark one more is open. -/
theorem makes_of_opening
    (more : Probe.Makes { rest := text, trials }
      (quotesTried comments opening closing (depth + 1) text) q)
    : Probe.Makes { rest := opening :: text, trials }
        (quotesTried comments opening closing depth (opening :: text)) q := by
  rw [quotesTried, if_pos rfl]
  exact .moves (List.suffix_cons opening text) more

/-- Behind the last closing mark nothing more is tried. -/
theorem makes_of_last_closing (h : closing ≠ opening)
    : Probe.Makes { rest := closing :: text, trials }
        (quotesTried comments opening closing 1 (closing :: text)) { rest := text, trials } := by
  rw [quotesTried, if_neg h, if_pos rfl, if_pos (Nat.le_refl 1)]
  exact .move (List.suffix_cons closing text)

/-- Behind any other closing mark one less is open. -/
theorem makes_of_closing (h : closing ≠ opening)
    (more : Probe.Makes { rest := text, trials }
      (quotesTried comments opening closing (depth + 1) text) q)
    : Probe.Makes { rest := closing :: text, trials }
        (quotesTried comments opening closing (depth + 2) (closing :: text)) q := by
  rw [quotesTried, if_neg h, if_pos rfl, if_neg (by omega)]
  exact .moves (List.suffix_cons closing text) more

/-- An item that begins with a quote takes a trial. -/
theorem makes_of_quote (noOpening : c ≠ opening) (noClosing : c ≠ closing)
    (isQuote : Quotation.isQuote c = true)
    (more : Probe.Makes (skipQuotation { rest := c :: text, trials })
      (quotesTried comments opening closing depth
        (skipQuotation { rest := c :: text, trials }).rest)
      q)
    : Probe.Makes { rest := c :: text, trials }
        (quotesTried comments opening closing depth (c :: text)) q := by
  rw [skipQuotation_rest, ← @afterItem_quote comments _ isQuote] at more
  rw [quotesTried, if_neg noOpening, if_neg noClosing, if_pos isQuote]
  exact (skipQuotation_makes _).trans more

/-- Any other item is passed. -/
theorem makes_of_item {rest : List Char} (noOpening : c ≠ opening) (noClosing : c ≠ closing)
    (noQuote : Quotation.isQuote c = false) (behind : afterItem comments (c :: text) = rest)
    (more : Probe.Makes { rest, trials } (quotesTried comments opening closing depth rest) q)
    : Probe.Makes { rest := c :: text, trials }
        (quotesTried comments opening closing depth (c :: text)) q := by
  subst behind
  rw [quotesTried, if_neg noOpening, if_neg noClosing, if_neg (Bool.eq_false_iff.mp noQuote)]
  exact .moves (afterItem_suffix comments c text) more

end

/-- Reading nested braces tries the quotations in them, by the recursion of `closeBrace`. -/
theorem closeBrace_makes {depth : Nat} {p : Probe} (h : 0 < depth)
    : p.Makes (quotesTried true '{' '}' depth p.rest) (closeBrace depth p).2 := by
  fun_induction closeBrace depth p with
  | case1 depth trials =>
      rw [quotesTried]
      exact .stay _
  | case2 depth text trials ih => exact makes_of_opening (ih (Nat.succ_pos _))
  | case3 => exact absurd h (Nat.lt_irrefl 0)
  | case4 text trials => exact makes_of_last_closing (by decide)
  | case5 text trials depth ih => exact makes_of_closing (by decide) (ih (Nat.succ_pos _))
  | case6 depth text trials ih =>
      exact makes_of_item (by decide) (by decide) (by decide) rfl (ih h)
  | case7 depth text trials ih =>
      refine makes_of_item (by decide) (by decide) (by decide) ?_ (ih h)
      simp [afterItem, Quotation.isQuote]
  | case8 depth text trials ih =>
      refine makes_of_item (by decide) (by decide) (by decide) ?_ (ih h)
      simp [afterItem, Quotation.isQuote, afterLine]
  | case9 depth c text trials hopen hclose hslash hblock hline isQuote ih =>
      exact makes_of_quote hopen hclose isQuote (ih h)
  | case10 depth c text trials hopen hclose hslash hblock hline noQuote ih =>
      exact makes_of_item hopen hclose (Bool.eq_false_iff.mpr noQuote)
        (afterItem_of_plain hslash noQuote hblock hline) (ih h)

/-- Reading nested brackets tries the quotations in them, by the recursion of `closeBracket`. -/
theorem closeBracket_makes {depth : Nat} {p : Probe} (h : 0 < depth)
    : p.Makes (quotesTried false '[' ']' depth p.rest) (closeBracket depth p).2 := by
  fun_induction closeBracket depth p with
  | case1 depth trials =>
      rw [quotesTried]
      exact .stay _
  | case2 depth text trials ih => exact makes_of_opening (ih (Nat.succ_pos _))
  | case3 => exact absurd h (Nat.lt_irrefl 0)
  | case4 text trials => exact makes_of_last_closing (by decide)
  | case5 text trials depth ih => exact makes_of_closing (by decide) (ih (Nat.succ_pos _))
  | case6 depth text trials ih =>
      exact makes_of_item (by decide) (by decide) (by decide) rfl (ih h)
  | case7 depth c text trials hopen hclose hslash isQuote ih =>
      exact makes_of_quote hopen hclose isQuote (ih h)
  | case8 depth c text trials hopen hclose hslash noQuote ih =>
      have noQuote := Bool.eq_false_iff.mpr noQuote
      exact makes_of_item hopen hclose noQuote (afterItem_character hslash noQuote (by simp)) (ih h)

/-- Behind the closing brace of an action, and behind a question mark there, nothing is tried. -/
theorem action_makes {p : Probe} {text : List Char} (opens : p.rest = '{' :: text)
    : p.Makes (quotesTried true '{' '}' 1 text) (action p).next := by
  have hcode := closeBrace_makes (p := p.skip 1) Nat.one_pos
  rw [Probe.skip_one_of_cons opens] at hcode
  have hwhole := hcode.from_skip 1
  unfold action
  split
  · rename_i next h
    rw [h] at hwhole
    split
    · rename_i rest hrest
      have hmark := hwhole.trans (.move (hrest ▸ List.suffix_cons '?' rest))
      rwa [List.append_nil] at hmark
    · exact hwhole
  · rename_i ending next _ h
    rw [h] at hwhole
    exact hwhole

theorem argAction_makes {p : Probe} {text : List Char} (opens : p.rest = '[' :: text)
    : p.Makes (quotesTried false '[' ']' 1 text) (argAction p).next := by
  have hcode := closeBracket_makes (p := p.skip 1) Nat.one_pos
  rw [Probe.skip_one_of_cons opens] at hcode
  have hwhole := hcode.from_skip 1
  unfold argAction
  split <;>
    · rename_i h
      rw [h] at hwhole
      exact hwhole

end Nesting

-----------------------------------------------------------------------------------------
-- Comments and words
-----------------------------------------------------------------------------------------

namespace Comment

theorem block_makes {p : Probe} {text : List Char} (opens : p.rest = '/' :: '*' :: text)
    : p.Makes [{ trial := .docStar, text }] (block p).next := by
  have hskip : (p.skip 2).rest = text := by
    rw [Probe.skip, Probe.moveTo, opens]
    rfl
  have hone : (p.skip 2).Makes _ ((p.skip 2).speculate docStar).2 := .one .docStar _
  rw [hskip] at hone
  have hwhole := hone.from_skip 2
  simp only [block]
  split
  · rename_i rest h
    exact hwhole.trans (.move (afterClose_suffix h))
  · exact hwhole.trans (.move List.nil_suffix)

theorem line_makes {p : Probe} {text : List Char} (opens : p.rest = '/' :: '/' :: text)
    : p.Makes [{ trial := .directive, text }] (line p).next := by
  have hskip : (p.skip 2).rest = text := by
    rw [Probe.skip, Probe.moveTo, opens]
    rfl
  have hone : (p.skip 2).Makes _ ((p.skip 2).speculate directive).2 := .one .directive _
  rw [hskip] at hone
  exact (hone.from_skip 2).trans (.move (List.dropWhile_suffix _))

end Comment

/-- A mark of punctuation begins no word. -/
theorem Punctuation.read_front {c : Char} {text rest : List Char} {kind : TokenKind}
    (h : read (c :: text) = some (kind, rest))
    : isNameStart c = false := by
  obtain ⟨mark, listed, hsplit⟩ := read_mark h
  cases mark with
  | nil =>
      have hle := (read_suffix h).length_le
      have hlength := congrArg List.length hsplit
      simp only [List.nil_append, List.length_cons, List.tail_cons] at hlength hle
      omega
  | cons d mark =>
      obtain ⟨rfl, -⟩ := List.cons.inj hsplit
      exact (marks_front _ listed c rfl).2.2

namespace Word

/-- The trial that a word takes: one for its brace, if it can open a block. -/
def tried (text : List Char) : List Tried :=
  if (TokenKind.blockOpeners.lookup (String.ofList (text.takeWhile isNameChar))).isSome then
    [{ trial := .brace, text := text.dropWhile isNameChar }]
  else []

theorem read_makes (naming : Naming) (p : Probe)
    : p.Makes (tried p.rest) (read naming p).next := by
  have hmove : p.Makes [] (p.skipWhile isNameChar) := .move (List.dropWhile_suffix isNameChar)
  have hone
      : (p.skipWhile isNameChar).Makes [{ trial := .brace, text := p.rest.dropWhile isNameChar }]
          ((p.skipWhile isNameChar).speculate brace).2 :=
    .one .brace (p.skipWhile isNameChar)
  rw [read, tried]
  cases h : TokenKind.blockOpeners.lookup (String.ofList (p.rest.takeWhile isNameChar)) with
  | none => exact hmove
  | some opener =>
      have hword := hmove.trans hone
      rw [if_pos (by rfl)]
      simp only
      split <;>
        · rename_i next hbrace
          rw [hbrace] at hword
          exact hword

/-- Only a word can open a block. -/
theorem tried_eq_nil {c : Char} (h : isNameStart c = false) (text : List Char)
    : tried (c :: text) = [] := by
  rw [tried, if_neg]
  intro hopener
  obtain ⟨kind, hkind⟩ := Option.isSome_iff_exists.mp hopener
  have isName := TokenKind.tables_isName _ (List.mem_append_right _ (mem_of_lookup hkind))
  obtain ⟨d, hd, hstart⟩ := isName.start
  rw [String.toList_ofList, List.takeWhile_cons] at hd
  split at hd
  · obtain rfl : c = d := Option.some.inj hd
    rw [h] at hstart
    cases hstart
  · cases hd

end Word

namespace Lexeme

/-- What no delimiter opens takes the trial of a word if it is one, and none if it is not. -/
theorem undelimited_makes (naming : Naming) {p : Probe} {c : Char} {text : List Char}
    (opens : p.rest = c :: text)
    : p.Makes (Word.tried p.rest) (undelimited naming p c text).next := by
  have hnext : p.Makes [] (p.moveTo text) := .move (opens ▸ List.suffix_cons c text)
  unfold undelimited
  split
  · rename_i hmark
    rw [opens, Word.tried_eq_nil (by rw [hmark]; decide)]
    exact hnext
  split
  · rename_i hblank
    have hchar := (isBlank_front hblank).2
    rw [opens, Word.tried_eq_nil]
    · exact .move (List.dropWhile_suffix isBlank)
    · rw [isNameChar, Bool.or_eq_false_iff] at hchar
      exact hchar.1
  split
  · rename_i hdigit
    rw [opens, Word.tried_eq_nil (isDigit_front hdigit)]
    exact .move (List.dropWhile_suffix Char.isDigit)
  split
  · rename_i kind rest hread
    rw [opens] at hread ⊢
    rw [Word.tried_eq_nil (Punctuation.read_front hread)]
    exact .move (opens ▸ (Punctuation.read_suffix hread).trans (List.suffix_cons c text))
  split
  · exact Word.read_makes naming p
  · rename_i hstart
    rw [opens, Word.tried_eq_nil (Bool.eq_false_iff.mpr hstart)]
    exact hnext

/-- The trials that the reading of the lexeme at the front of a text makes, in their order. -/
def tried (mode : ScanMode) : List Char → List Tried
  | '/' :: '*' :: text => [{ trial := .docStar, text }]
  | '/' :: '/' :: text => [{ trial := .directive, text }]
  | '{' :: text => Nesting.quotesTried true '{' '}' 1 text
  | '[' :: text =>
      match mode with
      | .lexerRule => []
      | .parserRule => Nesting.quotesTried false '[' ']' 1 text
  | '\'' :: _ => []
  | text => Word.tried text

/-- The reading of a lexeme makes these trials, by the cases of `read`. -/
theorem read_makes {mode : ScanMode} {naming : Naming} {p : Probe} {x : Lexeme}
    (h : read mode naming p = some x)
    : p.Makes (tried mode p.rest) x.next := by
  unfold read at h
  split at h <;> simp only [Option.some.injEq, reduceCtorEq] at h <;> subst h
  · rename_i text opens
    rw [opens]
    exact Comment.block_makes opens
  · rename_i text opens
    rw [opens]
    exact Comment.line_makes opens
  · rename_i text opens
    rw [opens]
    exact Nesting.action_makes opens
  · rename_i text opens
    rw [opens]
    cases mode with
    | parserRule => exact Nesting.argAction_makes opens
    | lexerRule =>
        have hclose := (CharSet.close_suffix (p.rest.drop 1)).trans (List.drop_suffix 1 p.rest)
        simp only [bracketed, CharSet.read]
        split <;> exact .move hclose
  · rename_i text opens
    rw [opens]
    exact .move ((StringLiteral.close_suffix _).trans (List.drop_suffix 1 p.rest))
  · rename_i c text hblock hline hbrace hbracket hquote opens
    have htried : tried mode p.rest = Word.tried p.rest := by
      rw [opens, tried]
      · simpa using hblock
      · simpa using hline
      · simpa using hbrace
      · simpa using hbracket
      · simpa using hquote
    rw [htried]
    exact undelimited_makes naming opens

example
    : tried .parserRule "\x7b it's fine \x7d".toList
      = [{ trial := .quotation, text := "'s fine \x7d".toList }] := by
  cbv

/-- Whatever a lexeme tries, as many trials are running after it as before it. So a scanner that
starts with none never holds a diagnostic back.
-/
theorem read_depth {mode : ScanMode} {naming : Naming} {p : Probe} {x : Lexeme}
    (h : read mode naming p = some x)
    : x.next.trials.depth = p.trials.depth := by
  rw [(read_makes h).trials_eq]

end Lexeme

end GrammarFrontend
