import GrammarFrontend.Proofs.Lexeme.Faults

/-! Lexemes read from their own text alone. Every recogniser looks beyond the lexeme that it finds,
but what it sees there decides nothing: from the text of the lexeme alone it finds the same one. So
what a recogniser leaves of a longer text is what it leaves of the front of it, and then the rest.
-/

namespace GrammarFrontend

-----------------------------------------------------------------------------------------
-- Texts and what follows them
-----------------------------------------------------------------------------------------

/-- A text that is left where more than `tail` is to be read begins in the text before `tail`. -/
theorem exists_append_of_suffix {text tail body : List Char} (front : List Char)
    (h : text ++ tail = front ++ body) (hs : tail <:+ body)
    : ∃ inner, text = front ++ inner ∧ body = inner ++ tail := by
  obtain ⟨inner, rfl⟩ := hs
  rw [← List.append_assoc] at h
  exact ⟨inner, List.append_cancel_right h, rfl⟩

/-- What takes something of the text after `tail` has begun does not leave all of `tail`. -/
theorem not_append_of_length_lt {rest extra tail : List Char} (h : rest.length < tail.length)
    : rest ≠ extra ++ tail := by
  intro he
  rw [he, List.length_append] at h
  omega

/-- Where `f` goes no further than to the end of a text, it goes as far in the text alone. -/
theorem dropWhile_alone {f : Char → Bool} {text tail extra : List Char}
    (h : (text ++ tail).dropWhile f = extra ++ tail)
    : text.dropWhile f = extra := by
  induction text with
  | nil =>
      have hs : extra ++ tail <:+ tail := h ▸ List.dropWhile_suffix f
      obtain rfl : extra = [] := by
        have hlength := hs.length_le
        rw [List.length_append] at hlength
        exact List.length_eq_zero_iff.mp (by omega)
      rfl
  | cons c text ih =>
      rw [List.cons_append, List.dropWhile_cons] at h
      rw [List.dropWhile_cons]
      split at h
      · rename_i hc
        rw [if_pos hc]
        exact ih h
      · rename_i hc
        rw [if_neg hc]
        exact List.append_cancel_right h

/-- What `f` takes of a text is what it does not leave. -/
theorem takeWhile_alone {f : Char → Bool} {text tail extra : List Char}
    (h : (text ++ tail).dropWhile f = extra ++ tail)
    : (text ++ tail).takeWhile f = text.takeWhile f := by
  have hwhole := List.takeWhile_append_dropWhile (p := f) (l := text ++ tail)
  have hfront := List.takeWhile_append_dropWhile (p := f) (l := text)
  rw [h, ← List.append_assoc] at hwhole
  rw [dropWhile_alone h] at hfront
  exact List.append_cancel_right ((List.append_cancel_right hwhole).trans hfront.symm)

/-- The fault in a text that goes on with `tail`. -/
def Fault.followedBy (f : Fault) (tail : List Char) : Fault :=
  { f with start := f.start ++ tail, stop := f.stop ++ tail }

-----------------------------------------------------------------------------------------
-- Quotations and closing marks
-----------------------------------------------------------------------------------------

/-- A character is no backslash if a backslash would have been read together with what follows. -/
theorem ne_backslash {c : Char} {text : List Char} (hlast : c = '\\' → text = [] → False)
    (hmore : ∀ (next : Char) (rest : List Char), c = '\\' → text = next :: rest → False)
    : c ≠ '\\' := by
  intro hc
  cases text with
  | nil => exact hlast hc rfl
  | cons next rest => exact hmore next rest hc rfl

namespace Quotation

theorem rest?_cons {quote c : Char} (h : c ≠ '\\') (text : List Char)
    : rest? quote (c :: text)
      = if isLineBreak c then none else if c = quote then some text else rest? quote text := by
  rw [rest?] <;> simp_all

theorem rest?_escape (quote c : Char) (text : List Char)
    : rest? quote ('\\' :: c :: text)
      = if isLineBreak c then none else rest? quote text := by
  rw [rest?]

/-- A quotation ends where it ends, whatever follows. -/
theorem rest?_append {quote : Char} {text rest : List Char} (h : rest? quote text = some rest)
    (tail : List Char)
    : rest? quote (text ++ tail) = some (rest ++ tail) := by
  fun_induction rest? quote text with
  | case1 | case2 | case3 | case5 => cases h
  | case4 c text hc ih =>
      rw [List.cons_append, List.cons_append, rest?_escape, if_neg hc]
      exact ih h
  | case6 text hlast hmore hbreak =>
      obtain rfl := Option.some.inj h
      rw [List.cons_append, rest?_cons (ne_backslash hlast hmore), if_neg hbreak, if_pos rfl]
  | case7 c text hlast hmore hbreak hc ih =>
      rw [List.cons_append, rest?_cons (ne_backslash hlast hmore), if_neg hbreak, if_neg hc]
      exact ih h

theorem rest?_length_lt {quote : Char} {text rest : List Char} (h : rest? quote text = some rest)
    : rest.length < text.length := by
  have hs := (rest?_suffix h).length_le
  cases text with
  | nil => cases h
  | cons c text => exact Nat.lt_succ_of_le hs

/-- A quotation that leaves all of what follows a text ends in the text. Otherwise it would end in
what follows, by the recursion of `rest?` on the text.
-/
theorem rest?_alone {quote : Char} {text tail extra : List Char}
    (h : rest? quote (text ++ tail) = some (extra ++ tail))
    : rest? quote text = some extra := by
  cases hfront : rest? quote text with
  | some rest =>
      rw [rest?_append hfront tail] at h
      rw [List.append_cancel_right (Option.some.inj h)]
  | none =>
      exfalso
      fun_induction rest? quote text with
      | case1 => exact not_append_of_length_lt (rest?_length_lt h) rfl
      | case2 =>
          cases tail with
          | nil => cases h
          | cons c tail =>
              rw [List.singleton_append, rest?_escape] at h
              split at h
              · cases h
              · exact not_append_of_length_lt (Nat.lt_succ_of_lt (rest?_length_lt h)) rfl
      | case3 c text hc =>
          rw [List.cons_append, List.cons_append, rest?_escape, if_pos hc] at h
          cases h
      | case4 c text hc ih =>
          rw [List.cons_append, List.cons_append, rest?_escape, if_neg hc] at h
          exact ih h hfront
      | case5 c text hlast hmore hc =>
          rw [List.cons_append, rest?_cons (ne_backslash hlast hmore), if_pos hc] at h
          cases h
      | case6 => cases hfront
      | case7 c text hlast hmore hbreak hc ih =>
          rw [List.cons_append, rest?_cons (ne_backslash hlast hmore), if_neg hbreak, if_neg hc]
            at h
          exact ih h hfront

end Quotation

namespace Comment

theorem afterClose_cons {c : Char} {text : List Char} (h : ¬ (c = '*' ∧ text.head? = some '/'))
    : afterClose (c :: text) = afterClose text := by
  rw [afterClose]
  intro rest hc htext
  exact h ⟨hc, by rw [htext]; rfl⟩

theorem afterClose_length_lt {text rest : List Char} (h : afterClose text = some rest)
    : rest.length < text.length := by
  fun_induction afterClose text with
  | case1 => cases h
  | case2 text =>
      obtain rfl := Option.some.inj h
      exact Nat.lt_succ_of_lt (Nat.lt_succ_self _)
  | case3 c text _ ih => exact Nat.lt_succ_of_lt (ih h)

/-- A comment ends at its first closing mark, whatever follows. -/
theorem afterClose_append {text rest : List Char} (h : afterClose text = some rest)
    (tail : List Char)
    : afterClose (text ++ tail) = some (rest ++ tail) := by
  fun_induction afterClose text with
  | case1 => cases h
  | case2 text =>
      obtain rfl := Option.some.inj h
      rfl
  | case3 c text hopen ih =>
      rw [List.cons_append, afterClose_cons]
      · exact ih h
      · intro hmark
        obtain ⟨rfl, hhead⟩ := hmark
        cases text with
        | nil => cases h
        | cons d text =>
            obtain rfl : d = '/' := Option.some.inj hhead
            exact hopen text rfl rfl

/-- A comment that leaves all of what follows a text ends in the text. -/
theorem afterClose_alone {text tail extra : List Char}
    (h : afterClose (text ++ tail) = some (extra ++ tail))
    : afterClose text = some extra := by
  cases hfront : afterClose text with
  | some rest =>
      rw [afterClose_append hfront tail] at h
      rw [List.append_cancel_right (Option.some.inj h)]
  | none =>
      exfalso
      fun_induction afterClose text with
      | case1 => exact not_append_of_length_lt (afterClose_length_lt h) rfl
      | case2 => cases hfront
      | case3 c text hopen ih =>
          by_cases hmark : c = '*' ∧ (text ++ tail).head? = some '/'
          · obtain ⟨rfl, hhead⟩ := hmark
            cases text with
            | cons d text => exact hopen text rfl (by rw [Option.some.inj hhead])
            | nil =>
                obtain ⟨rest, rfl⟩ := List.head?_eq_some_iff.mp hhead
                exact not_append_of_length_lt (Nat.lt_succ_self _) (Option.some.inj h)
          · rw [List.cons_append, afterClose_cons hmark] at h
            exact ih h hfront

end Comment

-----------------------------------------------------------------------------------------
-- Character sets and string literals
-----------------------------------------------------------------------------------------

namespace CharSet

theorem close_escape (c : Char) (text : List Char)
    : close ('\\' :: c :: text) = if isLineBreak c then (false, c :: text) else close text := by
  rw [close]

theorem close_cons {c : Char} (h : c ≠ '\\') (text : List Char)
    : close (c :: text)
      = if isLineBreak c then (false, c :: text)
        else if c = ']' then (true, text)
        else close text := by
  rw [close]
  simp_all

theorem close_length_lt {text : List Char} (h : (close text).1 = true)
    : (close text).2.length < text.length := by
  fun_induction close text with
  | case1 | case2 | case4 => cases h
  | case3 c text _ ih => exact Nat.lt_succ_of_lt (Nat.lt_succ_of_lt (ih h))
  | case5 => exact Nat.lt_succ_self _
  | case6 c text _ _ _ ih => exact Nat.lt_succ_of_lt (ih h)

/-- A backslash that leaves all of what follows it is not the start of an escape. -/
theorem close_backslash_alone {tail extra : List Char} {closed : Bool}
    (h : close ('\\' :: tail) = (closed, extra ++ tail))
    : close ['\\'] = (closed, extra) := by
  cases tail with
  | nil =>
      rw [List.append_nil] at h
      exact h
  | cons next tail =>
      rw [close_escape] at h
      split at h
      · obtain ⟨rfl, hrest⟩ := Prod.mk.inj h
        rw [List.self_eq_append_left] at hrest
        rw [hrest]
        rfl
      · have hs := (close_suffix tail).length_le
        rw [h] at hs
        exact (not_append_of_length_lt (Nat.lt_succ_of_le hs) rfl).elim

/-- A character set that leaves all of what follows a text ends in the text or with it, by the
recursion of `close` on the text.
-/
theorem close_alone {text tail extra : List Char} {closed : Bool}
    (h : close (text ++ tail) = (closed, extra ++ tail))
    : close text = (closed, extra) := by
  fun_induction close text with
  | case1 =>
      rw [List.nil_append] at h
      have hnil : extra = [] := by
        have hs := (close_suffix tail).length_le
        rw [h, List.length_append] at hs
        exact List.length_eq_zero_iff.mp (by omega)
      cases closed with
      | false => rw [hnil]
      | true =>
          have hlt := close_length_lt (congrArg Prod.fst h)
          rw [h] at hlt
          exact (not_append_of_length_lt hlt rfl).elim
  | case2 c text hc =>
      rw [List.cons_append, List.cons_append, close_escape, if_pos hc] at h
      obtain ⟨rfl, hrest⟩ := Prod.mk.inj h
      rw [← List.cons_append] at hrest
      rw [List.append_cancel_right hrest]
  | case3 c text hc ih =>
      rw [List.cons_append, List.cons_append, close_escape, if_neg hc] at h
      exact ih h
  | case4 c text _ hc =>
      have hescape : c ≠ '\\' := by
        rintro rfl
        cases hc
      rw [List.cons_append, close_cons hescape, if_pos hc] at h
      obtain ⟨rfl, hrest⟩ := Prod.mk.inj h
      rw [← List.cons_append] at hrest
      rw [List.append_cancel_right hrest]
  | case5 text =>
      rw [List.cons_append, close_cons (by decide)] at h
      obtain ⟨rfl, hrest⟩ := Prod.mk.inj h
      rw [List.append_cancel_right hrest]
  | case6 c text hmore hbreak hc ih =>
      by_cases hescape : c = '\\'
      · subst hescape
        cases text with
        | cons next rest => exact (hmore next rest rfl rfl).elim
        | nil => exact close_backslash_alone h
      · rw [List.cons_append, close_cons hescape, if_neg hbreak, if_neg hc] at h
        exact ih h

end CharSet

namespace StringLiteral

/-- Digits in braces that leave all of what follows a text are in the text. -/
theorem bracedDigits_alone {text tail extra : List Char} {known : Bool}
    (h : bracedDigits (text ++ tail) = (known, extra ++ tail))
    : bracedDigits text = (known, extra) := by
  simp only [bracedDigits] at h ⊢
  split at h
  · rename_i rest hdigits
    obtain ⟨rfl, rfl⟩ := Prod.mk.inj h
    rw [← List.cons_append] at hdigits
    rw [dropWhile_alone hdigits, takeWhile_alone hdigits]
    rfl
  · rename_i hopen
    obtain ⟨rfl, hdigits⟩ := Prod.mk.inj h
    rw [dropWhile_alone hdigits]
    split
    · rename_i rest
      exact (hopen (rest ++ tail) hdigits).elim
    · rfl

/-- The run of digits that leaves all of what follows a text is in the text, however many digits it
may have at most.
-/
theorem takeWhile_take_alone {f : Char → Bool} {n : Nat} {text tail extra : List Char}
    (h : (text ++ tail).drop (((text ++ tail).take n).takeWhile f).length = extra ++ tail)
    : ((text ++ tail).take n).takeWhile f = (text.take n).takeWhile f := by
  induction text generalizing n with
  | nil =>
      have hlength := congrArg List.length h
      rw [List.nil_append, List.length_drop, List.length_append] at hlength
      have hle := (List.takeWhile_prefix f (l := tail.take n)).length_le
      rw [List.length_take] at hle
      have hnone : ((tail.take n).takeWhile f).length = 0 := by omega
      rw [List.nil_append, List.take_nil, List.length_eq_zero_iff.mp hnone]
      rfl
  | cons c text ih =>
      cases n with
      | zero => rfl
      | succ n =>
          rw [List.cons_append, List.take_succ_cons, List.takeWhile_cons] at h ⊢
          rw [List.take_succ_cons, List.takeWhile_cons]
          split at h
          · rename_i hc
            rw [if_pos hc, if_pos hc, ih h]
          · rename_i hc
            rw [if_neg hc, if_neg hc]

/-- Four digits that leave all of what follows a text are in the text. -/
theorem fourDigits_alone {text tail extra : List Char} {known : Bool}
    (h : fourDigits (text ++ tail) = (known, extra ++ tail))
    : fourDigits text = (known, extra) := by
  simp only [fourDigits] at h ⊢
  obtain ⟨rfl, hrest⟩ := Prod.mk.inj h
  have hdigits := takeWhile_take_alone hrest
  rw [hdigits] at hrest ⊢
  have hle := (List.takeWhile_prefix isHexDigit (l := text.take 4)).length_le
  rw [List.length_take] at hle
  rw [List.drop_append_of_le_length (by omega)] at hrest
  rw [List.append_cancel_right hrest]

theorem escape_braced (text : List Char) : escape ('u' :: '{' :: text) = bracedDigits text := rfl

theorem escape_digits {text : List Char} (h : text.head? ≠ some '{')
    : escape ('u' :: text) = fourDigits text := by
  rw [escape]
  rintro rest rfl
  exact h rfl

theorem escape_cons {c : Char} (h : c ≠ 'u') (text : List Char)
    : escape (c :: text)
      = if isSimpleEscape c then (true, text)
        else if isLineBreak c then (false, c :: text)
        else (false, text) := by
  rw [escape] <;> simp_all

/-- An escape takes at least a character, or it is none and stands before a line break. -/
theorem escape_cases (c : Char) (text : List Char)
    : (escape (c :: text)).2 <:+ text ∨ escape (c :: text) = (false, c :: text) := by
  by_cases hu : c = 'u'
  · subst hu
    by_cases hbrace : text.head? = some '{'
    · obtain ⟨digits, rfl⟩ := List.head?_eq_some_iff.mp hbrace
      rw [escape_braced]
      exact .inl ((bracedDigits_suffix digits).trans (List.suffix_cons _ _))
    · rw [escape_digits hbrace]
      exact .inl (fourDigits_suffix text)
  · rw [escape_cons hu]
    split
    · exact .inl (List.suffix_refl _)
    split
    · exact .inr rfl
    · exact .inl (List.suffix_refl _)

/-- An escape that leaves all of a text is none. -/
theorem escape_nil_alone {tail extra : List Char} {known : Bool}
    (h : escape tail = (known, extra ++ tail))
    : escape [] = (known, extra) := by
  cases tail with
  | nil =>
      rw [List.append_nil] at h
      exact h
  | cons c tail =>
      rcases escape_cases c tail with hs | hnone
      · rw [h] at hs
        exact (not_append_of_length_lt (Nat.lt_succ_of_le hs.length_le) rfl).elim
      · obtain ⟨rfl, hrest⟩ := Prod.mk.inj (hnone.symm.trans h)
        rw [List.self_eq_append_left] at hrest
        rw [hrest]
        rfl

/-- An escape that leaves all of what follows a text is in the text, by the form of the escape. -/
theorem escape_alone {text tail extra : List Char} {known : Bool}
    (h : escape (text ++ tail) = (known, extra ++ tail))
    : escape text = (known, extra) := by
  cases text with
  | nil => exact escape_nil_alone h
  | cons c text =>
      rw [List.cons_append] at h
      by_cases hu : c = 'u'
      · subst hu
        by_cases hbrace : (text ++ tail).head? = some '{'
        · cases text with
          | nil =>
              obtain ⟨digits, rfl⟩ := List.head?_eq_some_iff.mp hbrace
              rw [List.nil_append, escape_braced] at h
              have hs := (bracedDigits_suffix digits).length_le
              rw [h] at hs
              exact (not_append_of_length_lt (Nat.lt_succ_of_le hs) rfl).elim
          | cons d text =>
              obtain rfl : d = '{' := Option.some.inj hbrace
              exact bracedDigits_alone h
        · rw [escape_digits hbrace] at h
          rw [escape_digits, fourDigits_alone h]
          intro hfront
          obtain ⟨digits, rfl⟩ := List.head?_eq_some_iff.mp hfront
          exact hbrace rfl
      · rw [escape_cons hu] at h ⊢
        split at h
        · rename_i hsimple
          obtain ⟨rfl, hrest⟩ := Prod.mk.inj h
          rw [if_pos hsimple, List.append_cancel_right hrest]
        split at h
        · rename_i hsimple hbreak
          obtain ⟨rfl, hrest⟩ := Prod.mk.inj h
          rw [← List.cons_append] at hrest
          rw [if_neg hsimple, if_pos hbreak, List.append_cancel_right hrest]
        · rename_i hsimple hbreak
          obtain ⟨rfl, hrest⟩ := Prod.mk.inj h
          rw [if_neg hsimple, if_neg hbreak, List.append_cancel_right hrest]

theorem close_escape (text : List Char)
    : close ('\\' :: text)
      = if (escape text).1 then close (escape text).2
        else (close (escape text).2).withFault
          { kind := .invalidEscapeSequence, start := '\\' :: text, stop := (escape text).2 } := by
  rw [close]

theorem close_cons {c : Char} (h : c ≠ '\\') (text : List Char)
    : close (c :: text)
      = if isLineBreak c then { closed := false, rest := c :: text, faults := [] }
        else if c = '\'' then { closed := true, rest := text, faults := [] }
        else close text := by
  rw [close]
  exact h

/-- The end of a literal in a text that goes on with `tail`. -/
def Ending.followedBy (e : Ending) (tail : List Char) : Ending :=
  { e with rest := e.rest ++ tail, faults := e.faults.map (·.followedBy tail) }

/-- A literal that leaves all of what follows a text ends in the text or with it, and has the faults
that it has there, by the recursion of `close`.
-/
theorem close_alone {text tail : List Char} (h : tail <:+ (close (text ++ tail)).rest)
    : close (text ++ tail) = (close text).followedBy tail := by
  generalize hwhole : text ++ tail = whole at h ⊢
  fun_induction close whole generalizing text with
  | case1 =>
      obtain ⟨rfl, rfl⟩ := List.append_eq_nil_iff.mp hwhole
      rw [close]
      rfl
  | case2 body found known =>
      rename_i ih
      have hs : tail <:+ found.2 := h.trans (close_suffix _)
      obtain ⟨rest, hrest⟩ := hs
      obtain ⟨inner, rfl, rfl⟩ := exists_append_of_suffix ['\\'] hwhole
        ((List.suffix_append rest tail).trans (hrest ▸ escape_suffix body))
      have hfront : escape inner = (true, rest) := escape_alone (Prod.ext known hrest.symm)
      rw [ih hrest h, List.singleton_append, close_escape, hfront]
      rfl
  | case3 body found unknown =>
      rename_i ih
      have hs : tail <:+ found.2 := h.trans (close_suffix _)
      obtain ⟨rest, hrest⟩ := hs
      obtain ⟨inner, rfl, rfl⟩ := exists_append_of_suffix ['\\'] hwhole
        ((List.suffix_append rest tail).trans (hrest ▸ escape_suffix body))
      have hfront : escape inner = (false, rest) :=
        escape_alone (Prod.ext (Bool.eq_false_iff.mpr unknown) hrest.symm)
      rw [ih hrest h, List.singleton_append, close_escape, hfront, ← hrest]
      rfl
  | case4 c body hescape hbreak =>
      cases text with
      | nil =>
          rw [List.nil_append] at hwhole
          rw [hwhole, close]
          rfl
      | cons d text =>
          obtain ⟨rfl, rfl⟩ := List.cons.inj hwhole
          rw [close_cons hescape, if_pos hbreak]
          rfl
  | case5 body _ hbreak =>
      obtain ⟨inner, rfl, rfl⟩ := exists_append_of_suffix ['\''] hwhole h
      rw [List.singleton_append, close_cons (by decide), if_neg hbreak, if_pos rfl]
      rfl
  | case6 c body hescape hbreak hquote ih =>
      obtain ⟨inner, rfl, rfl⟩ := exists_append_of_suffix [c] hwhole
        (h.trans (close_suffix _))
      rw [List.singleton_append, close_cons hescape, if_neg hbreak, if_neg hquote]
      exact ih rfl h

end StringLiteral

-----------------------------------------------------------------------------------------
-- Nested code
-----------------------------------------------------------------------------------------

namespace Nesting

theorem skipQuotation_of_some {c : Char} {text rest : List Char} {trials : Trials}
    (h : Quotation.rest? c text = some rest)
    : (skipQuotation { rest := c :: text, trials }).rest = rest := by
  have hskip : Quotation.skip (c :: text) = some ((), rest) := by rw [Quotation.skip, h]; rfl
  rw [skipQuotation, Probe.speculate_of_some hskip]

theorem skipQuotation_of_none {c : Char} {text : List Char} {trials : Trials}
    (h : Quotation.rest? c text = none)
    : (skipQuotation { rest := c :: text, trials }).rest = text := by
  have hskip : Quotation.skip (c :: text) = none := by rw [Quotation.skip, h]; rfl
  rw [skipQuotation, Probe.speculate_of_none hskip]
  rfl

/-- Skipping a quotation passes the same part of a text whether or not `tail` follows it. -/
theorem skipQuotation_alone {c : Char} {text tail : List Char} {trials : Trials}
    (h : tail <:+ (skipQuotation { rest := c :: (text ++ tail), trials }).rest) (others : Trials)
    : (skipQuotation { rest := c :: (text ++ tail), trials }).rest
      = (skipQuotation { rest := c :: text, trials := others }).rest ++ tail := by
  cases hwhole : Quotation.rest? c (text ++ tail) with
  | some rest =>
      rw [skipQuotation_of_some hwhole] at h ⊢
      obtain ⟨inner, rfl⟩ := h
      rw [skipQuotation_of_some (Quotation.rest?_alone hwhole)]
  | none =>
      rw [skipQuotation_of_none hwhole, skipQuotation_of_none]
      cases hfront : Quotation.rest? c text with
      | none => rfl
      | some rest =>
          rw [Quotation.rest?_append hfront tail] at hwhole
          cases hwhole

/-- A hidden character is passed in the text that leaves all of `tail`. -/
theorem drop_one_alone {text tail : List Char} (h : tail <:+ (text ++ tail).drop 1)
    : (text ++ tail).drop 1 = text.drop 1 ++ tail := by
  cases text with
  | cons c text => rfl
  | nil =>
      cases tail with
      | nil => rfl
      | cons c tail => exact absurd h.length_le (Nat.not_succ_le_self _)

theorem afterClose_getD_suffix (text : List Char)
    : (Comment.afterClose text).getD [] <:+ text := by
  cases h : Comment.afterClose text with
  | none => exact List.nil_suffix
  | some rest => exact Comment.afterClose_suffix h

/-- A comment, closed or not, is passed in the text that leaves all of `tail`. -/
theorem afterClose_getD_alone {text tail : List Char}
    (h : tail <:+ (Comment.afterClose (text ++ tail)).getD [])
    : (Comment.afterClose (text ++ tail)).getD [] = (Comment.afterClose text).getD [] ++ tail := by
  cases hwhole : Comment.afterClose (text ++ tail) with
  | some rest =>
      rw [hwhole] at h
      obtain ⟨inner, rfl⟩ := h
      rw [Comment.afterClose_alone hwhole]
      rfl
  | none =>
      rw [hwhole] at h
      obtain rfl := List.suffix_nil.mp h
      rw [List.append_nil] at hwhole
      rw [hwhole]
      rfl

/-- The reading of nested braces that leaves all of `tail` ends the same way before `tail`, whatever
trials were made before. The induction is by the recursion of `closeBrace`; what every step passes
is in the text before `tail`, because all of `tail` is left in the end.
-/
theorem closeBrace_alone {depth : Nat} {whole : Probe} (front : Probe) {tail : List Char}
    (split : whole.rest = front.rest ++ tail) (h : tail <:+ (closeBrace depth whole).2.rest)
    : (closeBrace depth front).1 = (closeBrace depth whole).1
      ∧ (closeBrace depth whole).2.rest = (closeBrace depth front).2.rest ++ tail := by
  obtain ⟨text, others⟩ := front
  fun_induction closeBrace depth whole generalizing text others with
  | case1 =>
      obtain ⟨rfl, rfl⟩ := List.append_eq_nil_iff.mp split.symm
      simp only [closeBrace, List.append_nil, and_self]
  | case2 depth body trials =>
      rename_i ih
      obtain ⟨inner, rfl, rfl⟩ := exists_append_of_suffix ['{'] split.symm
        (h.trans (closeBrace_suffix _ _))
      rw [List.singleton_append, closeBrace]
      exact ih h _ _ rfl
  | case3 body | case4 body =>
      obtain ⟨inner, rfl, rfl⟩ := exists_append_of_suffix ['}'] split.symm h
      simp only [List.singleton_append, closeBrace, and_self]
  | case5 body trials depth =>
      rename_i ih
      obtain ⟨inner, rfl, rfl⟩ := exists_append_of_suffix ['}'] split.symm
        (h.trans (closeBrace_suffix _ _))
      rw [List.singleton_append, closeBrace]
      exact ih h _ _ rfl
  | case6 depth body trials =>
      rename_i ih
      have hs := h.trans (closeBrace_suffix _ _)
      obtain ⟨inner, rfl, rfl⟩ := exists_append_of_suffix ['\\'] split.symm
        (hs.trans (List.drop_suffix 1 body))
      rw [List.singleton_append, closeBrace]
      exact ih h _ _ (drop_one_alone hs)
  | case7 depth body trials =>
      rename_i ih
      have hs := h.trans (closeBrace_suffix _ _)
      obtain ⟨inner, rfl, rfl⟩ := exists_append_of_suffix ['/', '*'] split.symm
        (hs.trans (afterClose_getD_suffix body))
      rw [List.cons_append, List.singleton_append, closeBrace]
      exact ih h _ _ (afterClose_getD_alone hs)
  | case8 depth body trials =>
      rename_i ih
      have hs := h.trans (closeBrace_suffix _ _)
      obtain ⟨inner, rfl, rfl⟩ := exists_append_of_suffix ['/', '/'] split.symm
        (hs.trans (List.dropWhile_suffix _))
      rw [List.cons_append, List.singleton_append, closeBrace]
      obtain ⟨rest, hrest⟩ := hs
      refine ih h _ _ ?_
      rw [dropWhile_alone hrest.symm, hrest]
  | case9 depth c body trials hopen hclose hescape hblock hline hquote =>
      rename_i ih
      have hs := h.trans (closeBrace_suffix _ _)
      obtain ⟨inner, rfl, rfl⟩ := exists_append_of_suffix [c] split.symm
        (hs.trans (skipQuotation_suffix _))
      rw [List.singleton_append, closeBrace, if_pos hquote]
      · exact ih h _ _ (skipQuotation_alone hs others)
      · exact hopen
      · exact hclose
      · exact hescape
      · exact fun rest hc he => hblock (rest ++ tail) hc (congrArg (· ++ tail) he)
      · exact fun rest hc he => hline (rest ++ tail) hc (congrArg (· ++ tail) he)
  | case10 depth c body trials hopen hclose hescape hblock hline hquote =>
      rename_i ih
      obtain ⟨inner, rfl, rfl⟩ := exists_append_of_suffix [c] split.symm
        (h.trans (closeBrace_suffix _ _))
      rw [List.singleton_append, closeBrace, if_neg hquote]
      · exact ih h _ _ rfl
      · exact hopen
      · exact hclose
      · exact hescape
      · exact fun rest hc he => hblock (rest ++ tail) hc (congrArg (· ++ tail) he)
      · exact fun rest hc he => hline (rest ++ tail) hc (congrArg (· ++ tail) he)

/-- The reading of nested brackets that leaves all of `tail` ends the same way before `tail`, by the
recursion of `closeBracket` and for the same reason.
-/
theorem closeBracket_alone {depth : Nat} {whole : Probe} (front : Probe) {tail : List Char}
    (split : whole.rest = front.rest ++ tail) (h : tail <:+ (closeBracket depth whole).2.rest)
    : (closeBracket depth front).1 = (closeBracket depth whole).1
      ∧ (closeBracket depth whole).2.rest = (closeBracket depth front).2.rest ++ tail := by
  obtain ⟨text, others⟩ := front
  fun_induction closeBracket depth whole generalizing text others with
  | case1 =>
      obtain ⟨rfl, rfl⟩ := List.append_eq_nil_iff.mp split.symm
      simp only [closeBracket, List.append_nil, and_self]
  | case2 depth body trials =>
      rename_i ih
      obtain ⟨inner, rfl, rfl⟩ := exists_append_of_suffix ['['] split.symm
        (h.trans (closeBracket_suffix _ _))
      rw [List.singleton_append, closeBracket]
      exact ih h _ _ rfl
  | case3 body | case4 body =>
      obtain ⟨inner, rfl, rfl⟩ := exists_append_of_suffix [']'] split.symm h
      simp only [List.singleton_append, closeBracket, and_self]
  | case5 body trials depth =>
      rename_i ih
      obtain ⟨inner, rfl, rfl⟩ := exists_append_of_suffix [']'] split.symm
        (h.trans (closeBracket_suffix _ _))
      rw [List.singleton_append, closeBracket]
      exact ih h _ _ rfl
  | case6 depth body trials =>
      rename_i ih
      have hs := h.trans (closeBracket_suffix _ _)
      obtain ⟨inner, rfl, rfl⟩ := exists_append_of_suffix ['\\'] split.symm
        (hs.trans (List.drop_suffix 1 body))
      rw [List.singleton_append, closeBracket]
      exact ih h _ _ (drop_one_alone hs)
  | case7 depth c body trials hopen hclose hescape hquote =>
      rename_i ih
      have hs := h.trans (closeBracket_suffix _ _)
      obtain ⟨inner, rfl, rfl⟩ := exists_append_of_suffix [c] split.symm
        (hs.trans (skipQuotation_suffix _))
      rw [List.singleton_append, closeBracket, if_pos hquote]
      · exact ih h _ _ (skipQuotation_alone hs others)
      · exact hopen
      · exact hclose
      · exact hescape
  | case8 depth c body trials hopen hclose hescape hquote =>
      rename_i ih
      obtain ⟨inner, rfl, rfl⟩ := exists_append_of_suffix [c] split.symm
        (h.trans (closeBracket_suffix _ _))
      rw [List.singleton_append, closeBracket, if_neg hquote]
      · exact ih h _ _ rfl
      · exact hopen
      · exact hclose
      · exact hescape

end Nesting

end GrammarFrontend
