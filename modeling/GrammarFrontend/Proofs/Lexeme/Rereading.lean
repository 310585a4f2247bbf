import GrammarFrontend.Proofs.Lexeme.Alone

/-! A lexeme reads the same from its own text alone. Whichever recogniser finds it, the text that
follows and the trials made before decide neither its kind nor its end, nor its faults and the
directive that it holds.
-/

namespace GrammarFrontend

/-- The directive of a text that goes on with `tail`. -/
def Origin.followedBy (o : Origin) (tail : List Char) : Origin := { o with stop := o.stop ++ tail }

/-- The lexeme `whole` is `alone` in a text that goes on with `tail`, except for the trials. -/
structure Lexeme.GoesOn (tail : List Char) (alone whole : Lexeme) : Prop where
  kind : alone.kind = whole.kind
  rest : whole.rest = alone.rest ++ tail
  faults : whole.faults = alone.faults.map (·.followedBy tail)
  origin : whole.origin = alone.origin.map (·.followedBy tail)

theorem Lexeme.goesOn_plain {tail : List Char} {kind : TokenKind} {alone whole : Probe}
    (h : whole.rest = alone.rest ++ tail)
    : GoesOn tail (.plain kind alone) (.plain kind whole) :=
  { kind := rfl, rest := h, faults := rfl, origin := rfl }

theorem Lexeme.goesOn_unterminated (text : List Char) {tail : List Char} {kind : TokenKind}
    {fault : DiagnosticKind} {alone whole : Probe} (h : whole.rest = alone.rest ++ tail)
    : GoesOn tail (.unterminated kind alone text fault)
        (.unterminated kind whole (text ++ tail) fault) := by
  refine { kind := rfl, rest := h, faults := ?_, origin := rfl }
  simp only [unterminated, Fault.followedBy, List.map_cons, List.map_nil, h]

-----------------------------------------------------------------------------------------
-- Probes and the ends of lines
-----------------------------------------------------------------------------------------

theorem Probe.speculate_rest {α : Type} (attempt : List Char → Option (α × List Char))
    (p : Probe)
    : (p.speculate attempt).2.rest = ((attempt p.rest).map (·.2)).getD p.rest := by
  cases h : attempt p.rest with
  | none =>
      rw [speculate_of_none h]
      rfl
  | some found =>
      obtain ⟨finding, rest⟩ := found
      rw [speculate_of_some h]
      rfl

/-- A trial that finds the same whether or not `tail` follows moves a probe in the same way. -/
theorem Probe.speculate_alone {α : Type} (attempt : List Char → Option (α × List Char))
    {tail : List Char} (alone whole : Probe) (split : whole.rest = alone.rest ++ tail)
    (h : attempt (alone.rest ++ tail)
      = (attempt alone.rest).map (fun found => (found.1, found.2 ++ tail)))
    : (whole.speculate attempt).1 = (alone.speculate attempt).1
      ∧ (whole.speculate attempt).2.rest = (alone.speculate attempt).2.rest ++ tail := by
  rw [← split] at h
  cases halone : attempt alone.rest with
  | none =>
      rw [halone] at h
      rw [speculate_of_none h, speculate_of_none halone]
      exact ⟨rfl, split⟩
  | some found =>
      obtain ⟨finding, rest⟩ := found
      rw [halone] at h
      rw [speculate_of_some h, speculate_of_some halone]
      exact ⟨rfl, rfl⟩

/-- Characters of one class that leave all of `tail` are passed in the text before it. -/
theorem Probe.skipWhile_alone {f : Char → Bool} (text : List Char) {tail : List Char}
    {trials : Trials}
    (h : tail <:+ (skipWhile f { rest := text ++ tail, trials }).rest) (others : Trials)
    : (skipWhile f { rest := text ++ tail, trials }).rest
      = (skipWhile f { rest := text, trials := others }).rest ++ tail := by
  obtain ⟨extra, hextra⟩ := h
  have hrest : text.dropWhile f = extra := dropWhile_alone hextra.symm
  rw [← hextra, ← hrest]
  rfl

/-- What holds of no line break stops where a line ends. -/
theorem AtLineEnd.stops {tail : List Char} (ends : AtLineEnd tail) {f : Char → Bool}
    (hr : f '\r' = false) (hn : f '\n' = false)
    : ∀ c ∈ tail.head?, f c = false := by
  intro c hc
  have hbreak := ends c hc
  simp only [isLineBreak, Bool.or_eq_true, beq_iff_eq] at hbreak
  rcases hbreak with rfl | rfl
  · exact hr
  · exact hn

/-- What is left of a text where `f` stops at `tail` goes on with `tail`. -/
theorem dropWhile_of_head {f : Char → Bool} {tail : List Char}
    (h : ∀ c ∈ tail.head?, f c = false) (text : List Char)
    : (text ++ tail).dropWhile f = text.dropWhile f ++ tail := by
  have hstop : tail.dropWhile f = tail := by
    cases tail with
    | nil => rfl
    | cons c tail => rw [List.dropWhile_cons_of_neg (Bool.eq_false_iff.mp (h c rfl))]
  rw [List.dropWhile_append]
  split
  · rename_i hnone
    rw [hstop, List.isEmpty_iff.mp hnone]
    rfl
  · rfl

/-- A quotation does not reach over the end of a line, not even behind a backslash. -/
theorem Quotation.rest?_line {quote : Char} {tail : List Char}
    (ends : AtLineEnd tail) (text : List Char)
    : Quotation.rest? quote (text ++ tail) = (Quotation.rest? quote text).map (· ++ tail) := by
  have hcut : Quotation.rest? quote tail = none := by
    cases tail with
    | nil => rfl
    | cons c tail =>
        have hbreak : isLineBreak c = true := ends c rfl
        rw [Quotation.rest?_cons, if_pos hbreak]
        rintro rfl
        cases hbreak
  fun_induction Quotation.rest? quote text with
  | case1 => exact hcut
  | case2 =>
      cases tail with
      | nil => rfl
      | cons c tail =>
          have hbreak : isLineBreak c = true := ends c rfl
          rw [List.singleton_append, Quotation.rest?_escape, if_pos hbreak]
          rfl
  | case3 c text hc =>
      rw [List.cons_append, List.cons_append, Quotation.rest?_escape, if_pos hc]
      rfl
  | case4 c text hc ih =>
      rw [List.cons_append, List.cons_append, Quotation.rest?_escape, if_neg hc]
      exact ih
  | case5 c text hlast hmore hc =>
      rw [List.cons_append, Quotation.rest?_cons (ne_backslash hlast hmore), if_pos hc]
      rfl
  | case6 text hlast hmore hbreak =>
      rw [List.cons_append, Quotation.rest?_cons (ne_backslash hlast hmore), if_neg hbreak,
        if_pos rfl]
      rfl
  | case7 c text hlast hmore hbreak hc ih =>
      rw [List.cons_append, Quotation.rest?_cons (ne_backslash hlast hmore), if_neg hbreak,
        if_neg hc]
      exact ih

theorem textBefore_append_append {text rest : List Char} (hs : rest <:+ text) (tail : List Char)
    : textBefore (text ++ tail) (rest ++ tail) = textBefore text rest := by
  obtain ⟨front, rfl⟩ := hs
  rw [List.append_assoc, textBefore_append, textBefore_append]

-----------------------------------------------------------------------------------------
-- Delimited text
-----------------------------------------------------------------------------------------

/-- A character set reads the same alone. -/
theorem CharSet.read_alone {c : Char} {text tail : List Char} {trials : Trials}
    (h : tail <:+ (read { rest := c :: (text ++ tail), trials }).rest) (others : Trials)
    : Lexeme.GoesOn tail (read { rest := c :: text, trials := others })
        (read { rest := c :: (text ++ tail), trials }) := by
  have hrest : (read { rest := c :: (text ++ tail), trials }).rest = (close (text ++ tail)).2 := by
    simp only [read, List.drop_succ_cons, List.drop_zero]
    split <;> rfl
  rw [hrest] at h
  obtain ⟨extra, hextra⟩ := h
  have halone : close text = ((close (text ++ tail)).1, extra) :=
    close_alone (Prod.ext rfl hextra.symm)
  simp only [read, List.drop_succ_cons, List.drop_zero, halone, ← hextra]
  split
  · exact Lexeme.goesOn_plain rfl
  · exact Lexeme.goesOn_unterminated (c :: text) rfl

/-- A string literal reads the same alone, with the faults of its escapes. -/
theorem StringLiteral.read_alone {c : Char} {text tail : List Char} {trials : Trials}
    (h : tail <:+ (read { rest := c :: (text ++ tail), trials }).rest) (others : Trials)
    : Lexeme.GoesOn tail (read { rest := c :: text, trials := others })
        (read { rest := c :: (text ++ tail), trials }) := by
  have halone : close (text ++ tail) = (close text).followedBy tail := close_alone h
  simp only [read, List.drop_succ_cons, List.drop_zero, halone, Ending.followedBy]
  refine { kind := rfl, rest := rfl, faults := ?_, origin := rfl }
  rw [List.map_append]
  split <;> rfl

namespace Nesting

/-- What the reading of an argument action finds. -/
theorem argAction_eq (p : Probe)
    : argAction p
      = if (closeBracket 1 (p.skip 1)).1 = .closed
        then .plain .argAction (closeBracket 1 (p.skip 1)).2
        else .unterminated .argAction (closeBracket 1 (p.skip 1)).2 p.rest
          .unterminatedArgAction := by
  unfold argAction
  split
  · rename_i next he
    rw [he]
    rfl
  · rename_i ending next hopen he
    rw [he, if_neg hopen]

/-- An argument action reads the same alone. -/
theorem argAction_alone {c : Char} {text tail : List Char} {trials : Trials}
    (h : tail <:+ (argAction { rest := c :: (text ++ tail), trials }).rest) (others : Trials)
    : Lexeme.GoesOn tail (argAction { rest := c :: text, trials := others })
        (argAction { rest := c :: (text ++ tail), trials }) := by
  have hs : tail <:+ (closeBracket 1 { rest := text ++ tail, trials }).2.rest := by
    rw [argAction_eq] at h
    split at h <;> exact h
  obtain ⟨hending, hnext⟩ :=
    closeBracket_alone { rest := text, trials := others } rfl hs
  rw [argAction_eq, argAction_eq]
  simp only [Probe.skip, Probe.moveTo, List.drop_succ_cons, List.drop_zero, hending]
  split
  · exact Lexeme.goesOn_plain hnext
  · exact Lexeme.goesOn_unterminated (c :: text) hnext

/-- The first character is in the text that `tail` follows, if something before `tail` is passed. -/
theorem head?_alone {c : Char} {text tail : List Char} (hc : (text ++ tail).head? = some c)
    (h : tail <:+ (text ++ tail).drop 1)
    : text.head? = some c := by
  cases text with
  | cons d text => exact hc
  | nil =>
      obtain ⟨rest, rfl⟩ := List.head?_eq_some_iff.mp hc
      exact absurd h.length_le (Nat.not_succ_le_self _)

/-- What the reading of an action finds, apart from the question mark that may follow. -/
theorem action_eq (p : Probe)
    : action p
      = if (closeBrace 1 (p.skip 1)).1 = .closed
        then
          if (closeBrace 1 (p.skip 1)).2.rest.head? = some '?'
          then .plain .sempred ((closeBrace 1 (p.skip 1)).2.skip 1)
          else .plain .action (closeBrace 1 (p.skip 1)).2
        else .unterminated .action (closeBrace 1 (p.skip 1)).2 p.rest .unterminatedAction := by
  unfold action
  split
  · rename_i next he
    rw [he, if_pos rfl]
    split
    · rename_i rest hrest
      simp only [hrest, List.head?_cons, if_true, Probe.skip, List.drop_succ_cons, List.drop_zero]
    · rename_i hmark
      rw [if_neg]
      intro hhead
      obtain ⟨rest, hrest⟩ := List.head?_eq_some_iff.mp hhead
      exact hmark rest hrest
  · rename_i ending next hopen he
    rw [he, if_neg hopen]

/-- An action reads the same alone, and so does a predicate with its question mark. -/
theorem action_alone {c : Char} {text tail : List Char} {trials : Trials}
    (h : tail <:+ (action { rest := c :: (text ++ tail), trials }).rest) (others : Trials)
    : Lexeme.GoesOn tail (action { rest := c :: text, trials := others })
        (action { rest := c :: (text ++ tail), trials }) := by
  have hs : tail <:+ (closeBrace 1 { rest := text ++ tail, trials }).2.rest := by
    rw [action_eq] at h
    split at h
    · split at h
      · exact h.trans (List.drop_suffix 1 _)
      · exact h
    · exact h
  obtain ⟨hending, hnext⟩ :=
    closeBrace_alone { rest := text, trials := others } rfl hs
  rw [action_eq] at h
  rw [action_eq, action_eq]
  simp only [Probe.skip, Probe.moveTo, List.drop_succ_cons, List.drop_zero, hending] at h ⊢
  split at h
  · rename_i hclosed
    split at h
    · rename_i hmark
      rw [if_pos hclosed, if_pos hclosed, if_pos hmark]
      change tail <:+ (closeBrace 1 { rest := text ++ tail, trials }).2.rest.drop 1 at h
      rw [hnext] at h hmark
      rw [if_pos (head?_alone hmark h)]
      refine Lexeme.goesOn_plain ?_
      rw [← drop_one_alone h, ← hnext]
    · rename_i hmark
      rw [if_pos hclosed, if_pos hclosed, if_neg hmark, if_neg]
      · exact Lexeme.goesOn_plain hnext
      · intro hinner
        obtain ⟨rest, hrest⟩ := List.head?_eq_some_iff.mp hinner
        rw [hnext, hrest] at hmark
        exact hmark rfl
  · rename_i hopen
    rw [if_neg hopen, if_neg hopen]
    exact Lexeme.goesOn_unterminated (c :: text) hnext

end Nesting

-----------------------------------------------------------------------------------------
-- Comments
-----------------------------------------------------------------------------------------

namespace Comment

/-- A comment that leaves all of `tail` takes something before `tail`, or `tail` is empty. -/
theorem length_lt_of_suffix {body tail : List Char} (h : tail <:+ (afterClose body).getD [])
    : tail = [] ∨ tail.length < body.length := by
  cases hclose : afterClose body with
  | none =>
      rw [hclose] at h
      exact .inl (List.suffix_nil.mp h)
  | some rest =>
      rw [hclose] at h
      exact .inr (Nat.lt_of_le_of_lt h.length_le (afterClose_length_lt hclose))

theorem docStar_star {text : List Char} (h : text.head? ≠ some '/')
    : docStar ('*' :: text) = some ((), text) := by
  rw [docStar]
  rintro rest rfl
  exact h rfl

theorem docStar_other {c : Char} (h : c ≠ '*') (text : List Char) : docStar (c :: text) = none := by
  rw [docStar] <;> simp_all

/-- The second star of a comment is told by its own text: by the first two characters, and with less
than two of them the comment would not leave all of `tail`.
-/
theorem docStar_alone {text tail : List Char}
    (h : tail <:+ (afterClose (((docStar (text ++ tail)).map (·.2)).getD (text ++ tail))).getD [])
    : docStar (text ++ tail)
      = (docStar text).map (fun found => (found.1, found.2 ++ tail)) := by
  cases text with
  | nil =>
      have hbody : ((docStar ([] ++ tail)).map (·.2)).getD ([] ++ tail) <:+ tail := by
        cases hstar : docStar ([] ++ tail) with
        | none => exact List.suffix_refl _
        | some found => exact docStar_suffix hstar
      rcases length_lt_of_suffix h with rfl | hlt
      · rfl
      · exact absurd hbody.length_le (Nat.not_le_of_lt hlt)
  | cons c text =>
      by_cases hc : c = '*'
      · subst hc
        by_cases hslash : (text ++ tail).head? = some '/'
        · cases text with
          | cons d text =>
              obtain rfl : d = '/' := Option.some.inj hslash
              rfl
          | nil =>
              obtain ⟨rest, rfl⟩ := List.head?_eq_some_iff.mp hslash
              exact absurd h.length_le (Nat.not_succ_le_self _)
        · rw [List.cons_append, docStar_star hslash, docStar_star]
          · rfl
          · intro hfront
            obtain ⟨rest, rfl⟩ := List.head?_eq_some_iff.mp hfront
            exact hslash rfl
      · rw [List.cons_append, docStar_other hc, docStar_other hc]
        rfl

/-- What a block comment leaves. -/
theorem block_rest (p : Probe)
    : (block p).rest = (afterClose ((p.skip 2).speculate docStar).2.rest).getD [] := by
  simp only [block]
  split <;> rename_i h <;> rw [h] <;> rfl

/-- A block comment reads the same alone. -/
theorem block_alone {c d : Char} {text tail : List Char} {trials : Trials}
    (h : tail <:+ (block { rest := c :: d :: (text ++ tail), trials }).rest) (others : Trials)
    : Lexeme.GoesOn tail (block { rest := c :: d :: text, trials := others })
        (block { rest := c :: d :: (text ++ tail), trials }) := by
  rw [block_rest, Probe.speculate_rest] at h
  obtain ⟨hstar, hbody⟩ := Probe.speculate_alone docStar { rest := text, trials := others }
    { rest := text ++ tail, trials } rfl
    (docStar_alone h)
  rw [← Probe.speculate_rest] at h
  simp only [Probe.skip, Probe.moveTo, List.drop_succ_cons, List.drop_zero] at h
  simp only [block, Probe.skip, Probe.moveTo, List.drop_succ_cons, List.drop_zero, hstar]
  generalize ({ rest := text ++ tail, trials } : Probe).speculate docStar = whole at h hbody ⊢
  generalize ({ rest := text, trials := others } : Probe).speculate docStar = alone at hbody ⊢
  cases hclose : afterClose whole.2.rest with
  | some rest =>
      rw [hclose] at h
      obtain ⟨inner, rfl⟩ := h
      rw [hbody] at hclose
      rw [afterClose_alone hclose]
      exact Lexeme.goesOn_plain rfl
  | none =>
      rw [hclose] at h
      obtain rfl := List.suffix_nil.mp h
      rw [hbody, List.append_nil] at hclose
      rw [hclose]
      exact Lexeme.goesOn_unterminated (c :: d :: text) rfl

/-- A word without line breaks does not reach over the end of a line. -/
theorem isPrefixOf_alone {tail : List Char} (ends : AtLineEnd tail) {word : List Char}
    (hword : ∀ c ∈ word, isLineBreak c = false) (text : List Char)
    : word.isPrefixOf (text ++ tail) = word.isPrefixOf text := by
  induction word generalizing text with
  | nil => rfl
  | cons w word ih =>
      obtain ⟨hw, hword⟩ := List.forall_mem_cons.mp hword
      cases text with
      | cons c text => rw [List.cons_append, List.isPrefixOf, List.isPrefixOf, ih hword]
      | nil =>
          cases tail with
          | nil => rfl
          | cons c tail =>
              have hne : (w == c) = false := by
                rw [beq_eq_false_iff_ne]
                rintro rfl
                rw [ends w rfl] at hw
                cases hw
              rw [List.nil_append, List.isPrefixOf_cons_cons, hne]
              rfl

/-- A word without line breaks is at the front of a line or it is not. -/
theorem after?_alone {tail : List Char} (ends : AtLineEnd tail) {word : String}
    (hword : ∀ c ∈ word.toList, isLineBreak c = false) (text : List Char)
    : after? word (text ++ tail) = (after? word text).map (· ++ tail) := by
  rw [after?, after?, isPrefixOf_alone ends hword]
  split
  · rename_i hfront
    have hle := (List.isPrefixOf_iff_prefix.mp hfront).length_le
    rw [String.length_toList] at hle
    rw [List.drop_append_of_le_length hle]
    rfl
  · rfl

/-- Blanks within a line end with it. -/
theorem afterBlanks?_alone {tail : List Char} (ends : AtLineEnd tail) (text : List Char)
    : afterBlanks? (text ++ tail) = (afterBlanks? text).map (· ++ tail) := by
  have hstop := ends.stops (f := isInlineBlank) rfl rfl
  simp only [afterBlanks?, dropWhile_of_head hstop, List.length_append, Nat.add_lt_add_iff_right]
  split <;> rfl

theorem fileName?_of_ne {c : Char} (h : c ≠ '"') (text : List Char)
    : fileName? (c :: text) = none := by
  rw [fileName?]
  rintro rest he
  exact h (List.cons.inj he).1

/-- A file name is quoted within its line. -/
theorem fileName?_alone {tail : List Char} (ends : AtLineEnd tail) (text : List Char)
    : fileName? (text ++ tail)
      = (fileName? text).map (fun found => (found.1, found.2 ++ tail)) := by
  cases text with
  | nil =>
      cases tail with
      | nil => rfl
      | cons c tail =>
          rw [List.nil_append, fileName?_of_ne]
          · rfl
          · rintro rfl
            cases ends '"' rfl
  | cons c text =>
      by_cases hc : c = '"'
      · subst hc
        rw [List.cons_append, fileName?, fileName?, Quotation.rest?_line ends]
        cases hrest : Quotation.rest? '"' text with
        | none => rfl
        | some rest =>
            have hs := (Quotation.rest?_suffix hrest).trans (List.tail_suffix text)
            simp only [Option.map_some, textBefore_append_append hs]
      · rw [List.cons_append, fileName?_of_ne hc, fileName?_of_ne hc]
        rfl

/-- A line number ends with its line. -/
theorem lineNumber?_alone {tail : List Char} (ends : AtLineEnd tail) (text : List Char)
    : lineNumber? (text ++ tail)
      = (lineNumber? text).map (fun found => (found.1, found.2 ++ tail)) := by
  have hrest := dropWhile_of_head (ends.stops (f := Char.isDigit) rfl rfl) text
  simp only [lineNumber?, takeWhile_alone hrest, hrest]
  split <;> rfl

/-- Two readings one after another find the same if each of them does. -/
theorem bind_alone {α β : Type} {found : Option α} {f : α → α} {next : α → Option β}
    {g : β → β} (h : ∀ a, next (f a) = (next a).map g)
    : (found.map f).bind next = (found.bind next).map g := by
  cases found with
  | none => rfl
  | some a => exact h a

/-- A directive ends in its line, so that nothing after the line matters. -/
theorem directive_alone {tail : List Char} (ends : AtLineEnd tail) (text : List Char)
    : directive (text ++ tail)
      = (directive text).map (fun found => (found.1, found.2 ++ tail)) := by
  simp only [directive, Option.bind_eq_bind]
  rw [after?_alone ends (by simp [isLineBreak])]
  refine bind_alone fun text => ?_
  rw [afterBlanks?_alone ends]
  refine bind_alone fun text => ?_
  rw [after?_alone ends (by simp [isLineBreak])]
  refine bind_alone fun text => ?_
  rw [afterBlanks?_alone ends]
  refine bind_alone fun text => ?_
  rw [fileName?_alone ends]
  refine bind_alone fun file => ?_
  rw [afterBlanks?_alone ends]
  refine bind_alone fun text => ?_
  rw [lineNumber?_alone ends]
  exact bind_alone fun line => rfl

/-- A line comment stops where its line ends. -/
theorem line_atLineEnd (p : Probe) : AtLineEnd (line p).rest := by
  intro c hc
  let body := ((p.skip 2).speculate directive).2.rest
  have hhead : (body.dropWhile (fun c => !isLineBreak c)).head? = some c := hc
  have hstop := List.head?_dropWhile_not (fun c => !isLineBreak c) body
  simpa only [hhead, Bool.not_eq_false'] using hstop

/-- A line comment reads the same alone, with the directive that it holds. -/
theorem line_alone {c d : Char} {text tail : List Char} {trials : Trials}
    (h : (line { rest := c :: d :: (text ++ tail), trials }).rest = tail) (others : Trials)
    : Lexeme.GoesOn tail (line { rest := c :: d :: text, trials := others })
        (line { rest := c :: d :: (text ++ tail), trials }) := by
  have ends : AtLineEnd tail := h ▸ line_atLineEnd _
  obtain ⟨hfound, hbody⟩ := Probe.speculate_alone directive { rest := text, trials := others }
    { rest := text ++ tail, trials } rfl
    (directive_alone ends text)
  simp only [line, Lexeme.rest, Probe.skip, Probe.skipWhile, Probe.moveTo, List.drop_succ_cons,
    List.drop_zero] at h ⊢
  generalize ({ rest := text ++ tail, trials } : Probe).speculate directive = whole
    at h hfound hbody ⊢
  generalize ({ rest := text, trials := others } : Probe).speculate directive = alone
    at hfound hbody ⊢
  refine { kind := rfl, rest := ?_, faults := rfl, origin := ?_ }
  · rw [hbody] at h
    have hall : alone.2.rest.dropWhile (fun c => !isLineBreak c) = [] := dropWhile_alone h
    simp only [Lexeme.rest, hbody, hall, h, List.nil_append]
  · rw [hfound, hbody, Option.map_map]
    rfl

end Comment

-----------------------------------------------------------------------------------------
-- Marks, words and other text without delimiters
-----------------------------------------------------------------------------------------

namespace Punctuation

/-- A mark that leaves all of what follows a text is in the text. It is as long there, because a
longer mark of the text would have been found before.
-/
theorem read_alone (text : List Char) {tail extra : List Char} {kind : TokenKind}
    (h : read (text ++ tail) = some (kind, extra ++ tail))
    : read text = some (kind, extra) := by
  generalize hwhole : text ++ tail = whole at h
  unfold read at h
  split at h <;> simp only [Option.some.injEq, Prod.mk.injEq, reduceCtorEq] at h <;>
    obtain ⟨rfl, rfl⟩ := h <;> simp only [← List.cons_append] at hwhole <;>
    rw [List.append_cancel_right hwhole, read] <;>
    · intro rest he
      simp_all

/-- A text that goes on without a mark at its front has none there by itself. -/
theorem read_eq_none_of_append (text : List Char) {tail : List Char}
    (h : read (text ++ tail) = none)
    : read text = none := by
  unfold read
  split
  case h_25 => rfl
  -- Every other form is that of a mark, which begins the longer text too.
  all_goals
    exfalso
    simp only [List.cons_append] at h
    unfold read at h
    split at h <;> simp only [reduceCtorEq] at h
  all_goals grind

end Punctuation

namespace Word

theorem brace_eq_some_iff {text rest : List Char}
    : brace text = some ((), rest) ↔ text.dropWhile isBlank = '{' :: rest := by
  unfold brace
  split
  · rename_i after ha
    rw [ha, Option.some.injEq, Prod.mk.injEq, List.cons.injEq]
    simp
  · rename_i hother
    exact ⟨fun h => (nomatch h), fun h => (hother rest h).elim⟩

/-- The brace of a block is found in the text before `tail`, or in neither text. -/
theorem brace_alone {text tail : List Char}
    (h : tail <:+ ((brace (text ++ tail)).map (·.2)).getD (text ++ tail))
    : brace (text ++ tail) = (brace text).map (fun found => (found.1, found.2 ++ tail)) := by
  cases hwhole : brace (text ++ tail) with
  | some found =>
      obtain ⟨finding, rest⟩ := found
      rw [hwhole] at h
      obtain ⟨inner, rfl⟩ := h
      have halone : text.dropWhile isBlank = '{' :: inner :=
        dropWhile_alone (brace_eq_some_iff.mp hwhole)
      rw [brace_eq_some_iff.mpr halone]
      rfl
  | none =>
      cases halone : brace text with
      | none => rfl
      | some found =>
          obtain ⟨finding, rest⟩ := found
          have hopen
              : (text ++ tail).dropWhile isBlank = '{' :: (rest ++ tail) := by
            rw [List.dropWhile_append, brace_eq_some_iff.mp halone]
            rfl
          rw [brace_eq_some_iff.mpr hopen] at hwhole
          cases hwhole

/-- A word reads the same alone, with the brace of the block that it may open. -/
theorem read_alone {naming : Naming} (text : List Char) {tail : List Char} {trials : Trials}
    (h : tail <:+ (read naming { rest := text ++ tail, trials }).rest) (others : Trials)
    : Lexeme.GoesOn tail (read naming { rest := text, trials := others })
        (read naming { rest := text ++ tail, trials }) := by
  have hs := h.trans (read_suffix naming _)
  obtain ⟨extra, hextra⟩ := hs
  have hrest : text.dropWhile isNameChar = extra := dropWhile_alone hextra.symm
  have hword : (text ++ tail).takeWhile isNameChar = text.takeWhile isNameChar :=
    takeWhile_alone hextra.symm
  simp only [read, Probe.skipWhile, Probe.moveTo, hword, hrest, ← hextra] at h ⊢
  split at h
  · exact Lexeme.goesOn_plain rfl
  · have hs : tail <:+ (({ rest := extra ++ tail, trials } : Probe).speculate brace).2.rest := by
      split at h <;> rename_i he <;> rw [he] <;> exact h
    rw [Probe.speculate_rest] at hs
    obtain ⟨hfound, hnext⟩ := Probe.speculate_alone brace { rest := extra, trials := others }
      { rest := extra ++ tail, trials } rfl (brace_alone hs)
    generalize ({ rest := extra ++ tail, trials } : Probe).speculate brace = whole
      at hfound hnext ⊢
    generalize ({ rest := extra, trials := others } : Probe).speculate brace = alone
      at hfound hnext ⊢
    obtain ⟨found, next⟩ := whole
    obtain ⟨_, nextAlone⟩ := alone
    obtain rfl : found = _ := hfound
    cases found <;> exact Lexeme.goesOn_plain hnext

end Word

namespace Lexeme

/-- What no delimiter opens reads the same alone: it stops at a character that does not go on with
it, or it is a mark that what follows does not make longer.
-/
theorem undelimited_alone {naming : Naming} {c : Char} {text tail : List Char} {trials : Trials}
    (h
      : tail <:+ (undelimited naming { rest := c :: (text ++ tail), trials } c (text ++ tail)).rest)
    (others : Trials)
    : GoesOn tail (undelimited naming { rest := c :: text, trials := others } c text)
        (undelimited naming { rest := c :: (text ++ tail), trials } c (text ++ tail)) := by
  unfold undelimited at h ⊢
  split at h
  · rename_i hc
    rw [if_pos hc, if_pos hc]
    exact goesOn_plain rfl
  rename_i hmark
  rw [if_neg hmark, if_neg hmark]
  split at h
  · rename_i hc
    rw [if_pos hc, if_pos hc]
    exact goesOn_plain (Probe.skipWhile_alone (c :: text) h others)
  rename_i hblank
  rw [if_neg hblank, if_neg hblank]
  split at h
  · rename_i hc
    rw [if_pos hc, if_pos hc]
    exact goesOn_plain (Probe.skipWhile_alone (c :: text) h others)
  rename_i hdigit
  rw [if_neg hdigit, if_neg hdigit]
  split at h
  · rename_i kind rest hread
    obtain ⟨inner, rfl⟩ := h
    simp only [Punctuation.read_alone (c :: text) hread]
    exact goesOn_plain rfl
  rename_i hread
  simp only [Punctuation.read_eq_none_of_append (c :: text) hread]
  split at h
  · rename_i hc
    rw [if_pos hc, if_pos hc]
    exact Word.read_alone (c :: text) h others
  · rename_i hc
    rw [if_neg hc, if_neg hc]
    exact goesOn_plain rfl

/-- A lexeme that no delimiter opens, by the cases of `read`. -/
theorem read_of_undelimited {mode : ScanMode} {naming : Naming} {c : Char} {text : List Char}
    {trials : Trials} (hblock : ∀ rest, c = '/' → text = '*' :: rest → False)
    (hline : ∀ rest, c = '/' → text = '/' :: rest → False) (haction : c ≠ '{')
    (hbracket : c ≠ '[') (hquote : c ≠ '\'')
    : read mode naming { rest := c :: text, trials }
      = some (undelimited naming { rest := c :: text, trials } c text) := by
  rw [read]
  all_goals simp_all

/-- A lexeme reads the same from its own text alone, by the recogniser that finds it. -/
theorem read_alone {mode : ScanMode} {naming : Naming} {text tail : List Char} {trials : Trials}
    {whole : Lexeme} (found : read mode naming { rest := text ++ tail, trials } = some whole)
    (h : whole.rest = tail) (others : Trials)
    : ∃ alone,
        read mode naming { rest := text, trials := others } = some alone
        ∧ GoesOn tail alone whole := by
  have hs : tail <:+ (text ++ tail).tail := h ▸ read_suffix found
  have hall : tail <:+ whole.rest := h ▸ List.suffix_refl _
  unfold read at found
  split at found <;> simp only [Option.some.injEq, reduceCtorEq] at found
  · rename_i body opens
    have hbody : tail <:+ body := by
      have hs := Comment.block_suffix { rest := text ++ tail, trials }
      rwa [opens, found, h] at hs
    obtain ⟨inner, rfl, rfl⟩ := exists_append_of_suffix ['/', '*'] opens hbody
    exact ⟨_, rfl, found ▸ Comment.block_alone (found ▸ hall) others⟩
  · rename_i body opens
    have hbody : tail <:+ body := by
      have hs := Comment.line_suffix { rest := text ++ tail, trials }
      rwa [opens, found, h] at hs
    obtain ⟨inner, rfl, rfl⟩ := exists_append_of_suffix ['/', '/'] opens hbody
    exact ⟨_, rfl, found ▸ Comment.line_alone (found ▸ h) others⟩
  · rename_i body opens
    change text ++ tail = _ at opens
    rw [opens] at hs
    obtain ⟨inner, rfl, rfl⟩ := exists_append_of_suffix ['{'] opens hs
    exact ⟨_, rfl, found ▸ Nesting.action_alone (found ▸ hall) others⟩
  · rename_i body opens
    change text ++ tail = _ at opens
    rw [opens] at hs
    obtain ⟨inner, rfl, rfl⟩ := exists_append_of_suffix ['['] opens hs
    refine ⟨_, rfl, ?_⟩
    subst found
    cases mode with
    | lexerRule => exact CharSet.read_alone hall others
    | parserRule => exact Nesting.argAction_alone hall others
  · rename_i body opens
    change text ++ tail = _ at opens
    rw [opens] at hs
    obtain ⟨inner, rfl, rfl⟩ := exists_append_of_suffix ['\''] opens hs
    exact ⟨_, rfl, found ▸ StringLiteral.read_alone (found ▸ hall) others⟩
  · rename_i c body hblock hline haction hbracket hquote opens
    change text ++ tail = _ at opens
    rw [opens] at hs
    obtain ⟨inner, rfl, rfl⟩ := exists_append_of_suffix [c] opens hs
    refine ⟨_, read_of_undelimited ?_ ?_ haction hbracket hquote,
      found ▸ undelimited_alone (found ▸ hall) others⟩
    · exact fun rest hc he => hblock (rest ++ tail) hc (congrArg (· ++ tail) he)
    · exact fun rest hc he => hline (rest ++ tail) hc (congrArg (· ++ tail) he)

end Lexeme

end GrammarFrontend
