import GrammarFrontend.Proofs.Lexeme.Escapes
import GrammarFrontend.Proofs.Literal.InPlace
import Mathlib.Data.List.TakeWhile

/-! The wrong escape that a decoder stops at is the first one that a scanner finds. They quote the
same of it, save that a scanner takes in the closing brace of digits in braces also where there are
none of them or too many.
-/

namespace GrammarFrontend.Literal

-----------------------------------------------------------------------------------------
-- Wrong escapes as they are quoted
-----------------------------------------------------------------------------------------

/-- The escape has digits in braces, but none or more than six, and the closing brace is the first
thing that follows it.
-/
def Miscounted (escape rest : List Char) : Prop :=
  ∃ digits,
    escape = '\\' :: 'u' :: '{' :: digits
    ∧ digits.all isHexDigit = true
    ∧ (digits.length = 0 ∨ 6 < digits.length)
    ∧ rest.head? = some '}'

/-- What a scanner quotes of a wrong escape that a decoder quotes as `escape` where `rest` follows.
-/
inductive Rescanned (escape rest : List Char) : List Char → Prop
  | same (counted : ¬ Miscounted escape rest) : Rescanned escape rest escape
  | brace (miscounted : Miscounted escape rest) : Rescanned escape rest (escape ++ ['}'])

/-- A run of digits ends where it ends before a closing quote. -/
theorem takeWhile_quoted (text rest : List Char)
    : (text ++ '\'' :: rest).takeWhile isHexDigit = text.takeWhile isHexDigit := by
  have hquote : isHexDigit '\'' = false := by decide
  induction text with
  | nil => simp [hquote]
  | cons c text ih => rw [List.cons_append, List.takeWhile_cons, List.takeWhile_cons, ih]

/-- So does a run of digits that is cut at four. -/
theorem takeFour_quoted (text rest : List Char)
    : ((text ++ '\'' :: rest).take 4).takeWhile isHexDigit
      = (text.take 4).takeWhile isHexDigit := by
  rw [List.take_append]
  cases 4 - text.length with
  | zero => rw [List.take_zero, List.append_nil]
  | succ n => exact takeWhile_quoted _ _

/-- A scanner finds an escape wrong behind a backslash where `after` comes before a closing quote and
`rest`. It quotes what a decoder does, or a closing brace more.
-/
structure FoundWrong (after rest : List Char) (found : Bool × List Char) : Prop where
  unknown : found.1 = false
  quotes
    : ∃ left scanned,
        after = quoted after ++ left
        ∧ Rescanned ('\\' :: quoted after) (left ++ ['\'']) scanned
        ∧ '\\' :: (after ++ '\'' :: rest) = scanned ++ found.2

theorem foundWrong_of_letter {c : Char} (hu : c ≠ 'u')
    (unknown : StringLiteral.isSimpleEscape c = false) (line : isLineBreak c = false)
    (text rest : List Char)
    : FoundWrong (c :: text) rest (StringLiteral.escape (c :: (text ++ '\'' :: rest))) := by
  have hscan
      : StringLiteral.escape (c :: (text ++ '\'' :: rest)) = (false, text ++ '\'' :: rest) := by
    simp [StringLiteral.escape_cons hu, unknown, line]
  rw [hscan]
  refine ⟨rfl, text, ['\\', c], ?_, ?_, rfl⟩
  · rw [quoted_letter hu, List.singleton_append]
  · rw [quoted_letter hu]
    refine .same ?_
    rintro ⟨digits, hescape, -⟩
    cases hescape

/-- The closing brace of digits that are wrong in number is the brace more. -/
theorem foundWrong_of_brace {digits : List Char} (hex : digits.all isHexDigit = true)
    (count : digits.length = 0 ∨ 6 < digits.length) (text rest : List Char)
    : FoundWrong ('u' :: '{' :: (digits ++ '}' :: text)) rest
        (StringLiteral.bracedDigits (digits ++ '}' :: text ++ '\'' :: rest)) := by
  have hcount : ¬ (1 ≤ digits.length ∧ digits.length ≤ 6) := by omega
  obtain ⟨htake, hdrop⟩ := takeWhile_digits hex ('}' :: text) (by simp [isHexDigit])
  obtain ⟨htakeAll, hdropAll⟩ :=
    takeWhile_digits hex ('}' :: (text ++ '\'' :: rest)) (by simp [isHexDigit])
  have hquoted : quoted ('u' :: '{' :: (digits ++ '}' :: text)) = 'u' :: '{' :: digits := by
    simp [quoted, codePoint_of_brace hdrop, htake, hcount]
  have hscan
      : StringLiteral.bracedDigits (digits ++ '}' :: text ++ '\'' :: rest)
        = (false, text ++ '\'' :: rest) := by
    simpa [StringLiteral.bracedDigits, htakeAll, hdropAll] using not_and.mp hcount
  rw [hscan]
  refine ⟨rfl, '}' :: text, '\\' :: quoted _ ++ ['}'], ?_, .brace ⟨digits, ?_, hex, count, rfl⟩, ?_⟩
  · rw [hquoted]
    rfl
  · rw [hquoted]
  · simp [hquoted]

theorem foundWrong_of_no_brace {digits text : List Char} (hex : digits.all isHexDigit = true)
    (stops : ∀ c ∈ text.head?, isHexDigit c = false ∧ c ≠ '}') (rest : List Char)
    : FoundWrong ('u' :: '{' :: (digits ++ text)) rest
        (StringLiteral.bracedDigits (digits ++ text ++ '\'' :: rest)) := by
  have stopsAll : ∀ c ∈ (text ++ '\'' :: rest).head?, isHexDigit c = false ∧ c ≠ '}' := by
    cases text with
    | nil => simp [isHexDigit]
    | cons c text => exact stops
  have hopen (after : List Char) : text ≠ '}' :: after := by
    rintro rfl
    exact (stops '}' rfl).2 rfl
  have hopenAll (after : List Char) : text ++ '\'' :: rest ≠ '}' :: after := by
    intro h
    exact (stopsAll '}' (by rw [h]; rfl)).2 rfl
  obtain ⟨htake, hdrop⟩ := takeWhile_digits hex text (fun c hc => (stops c hc).1)
  obtain ⟨htakeAll, hdropAll⟩ :=
    takeWhile_digits hex (text ++ '\'' :: rest) (fun c hc => (stopsAll c hc).1)
  have hquoted : quoted ('u' :: '{' :: (digits ++ text)) = 'u' :: '{' :: digits := by
    rw [quoted, codePoint_of_no_brace (by rwa [hdrop]), htake]
  have hscan
      : StringLiteral.bracedDigits (digits ++ text ++ '\'' :: rest)
        = (false, text ++ '\'' :: rest) := by
    rw [List.append_assoc, StringLiteral.bracedDigits, hdropAll]
    split
    · rename_i after h
      exact absurd h (hopenAll after)
    · rfl
  rw [hscan]
  refine ⟨rfl, text, '\\' :: quoted _, ?_, .same ?_, ?_⟩
  · rw [hquoted]
    rfl
  · rintro ⟨-, -, -, -, hbrace⟩
    obtain ⟨after, hafter⟩ := List.head?_eq_some_iff.mp hbrace
    cases text with
    | nil => cases hafter
    | cons c text => exact hopen text (congrArg (· :: text) (List.cons.inj hafter).1)
  · simp [hquoted]

theorem codePoint_of_digits {text : List Char} (hbrace : text.head? ≠ some '{')
    : codePoint text
      = let digits := (text.take 4).takeWhile isHexDigit
        {
          spelling := digits
          value := if digits.length = 4 then some (hexValue digits) else none
          rest := text.drop digits.length
        } := by
  rw [codePoint]
  rintro digits rfl
  exact hbrace rfl

theorem foundWrong_of_digits {text : List Char} (hbrace : text.head? ≠ some '{')
    (unknown : (codePoint text).value = none) (rest : List Char)
    : FoundWrong ('u' :: text) rest (StringLiteral.fourDigits (text ++ '\'' :: rest)) := by
  have hex : ((text.take 4).takeWhile isHexDigit).all isHexDigit = true := List.all_takeWhile
  have hread := codePoint_of_digits hbrace
  have hwhole := fourDigits_append text
  have hle : ((text.take 4).takeWhile isHexDigit).length ≤ text.length :=
    ((List.takeWhile_prefix _).trans (List.take_prefix 4 text)).length_le
  simp only [StringLiteral.fourDigits, takeFour_quoted]
  generalize (text.take 4).takeWhile isHexDigit = digits at hex hread hwhole hle ⊢
  have hlength : digits.length ≠ 4 := by
    intro hlength
    simp [hread, hlength] at unknown
  have hquoted : quoted ('u' :: text) = 'u' :: digits := by rw [quoted, hread]
  rw [List.drop_append_of_le_length hle]
  refine ⟨beq_eq_false_iff_ne.mpr hlength, text.drop digits.length, '\\' :: quoted _, ?_, .same ?_,
    ?_⟩
  · rw [hquoted, List.cons_append, ← hwhole]
  · rintro ⟨inner, hescape, -⟩
    rw [hquoted] at hescape
    exact head_ne_brace hex inner (List.cons.inj (List.cons.inj hescape).2).2
  · rw [hquoted, List.cons_append, List.cons_append, ← List.append_assoc, List.cons_append,
      ← hwhole]
    rfl

/-- A text is digits and what does not go on with one. -/
theorem exists_digits (text : List Char)
    : ∃ digits rest,
        text = digits ++ rest
        ∧ digits.all isHexDigit = true
        ∧ ∀ c ∈ rest.head?, isHexDigit c = false := by
  refine ⟨_, _, (List.takeWhile_append_dropWhile (p := isHexDigit)).symm, List.all_takeWhile, ?_⟩
  intro c hc
  rw [← List.find?_not_eq_head?_dropWhile] at hc
  simpa using List.find?_some hc

/-- Behind a backslash that begins no item, a scanner finds a wrong escape, unless its line ends
there.
-/
theorem foundWrong_of_stuck {c : Char} {text : List Char}
    (stuck : ∀ spelling value rest, Item spelling value → '\\' :: c :: text ≠ spelling ++ rest)
    (line : isLineBreak c = false) (rest : List Char)
    : FoundWrong (c :: text) rest (StringLiteral.escape (c :: (text ++ '\'' :: rest))) := by
  by_cases hu : c = 'u'
  · subst hu
    have unknown := codePoint_of_stuck stuck
    by_cases hbrace : text.head? = some '{'
    · obtain ⟨inner, rfl⟩ := List.head?_eq_some_iff.mp hbrace
      obtain ⟨digits, tail, rfl, hex, stops⟩ := exists_digits inner
      rw [List.cons_append, StringLiteral.escape_braced]
      by_cases hclose : tail.head? = some '}'
      · obtain ⟨after, rfl⟩ := List.head?_eq_some_iff.mp hclose
        refine foundWrong_of_brace hex ?_ after rest
        obtain ⟨htake, hdrop⟩ := takeWhile_digits hex _ stops
        have hcount : ¬ (1 ≤ digits.length ∧ digits.length ≤ 6) := by
          intro hcount
          simp [codePoint_of_brace hdrop, htake, hcount] at unknown
        omega
      · refine foundWrong_of_no_brace hex ?_ rest
        intro d hd
        refine ⟨stops d hd, ?_⟩
        rintro rfl
        exact hclose hd
    · have hhead : (text ++ '\'' :: rest).head? ≠ some '{' := by
        cases text with
        | nil => simp
        | cons d text => exact hbrace
      rw [StringLiteral.escape_digits hhead]
      exact foundWrong_of_digits hbrace unknown rest
  · have unknown : StringLiteral.isSimpleEscape c = false := by
      rw [← simpleEscape?_isSome, simpleEscape?_of_stuck stuck]
      rfl
    exact foundWrong_of_letter hu unknown line text rest

-----------------------------------------------------------------------------------------
-- The first fault of a literal
-----------------------------------------------------------------------------------------

/-- Closing a literal takes at least its quote, by the recursion of the scanner. -/
theorem close_length_lt {text : List Char} (closed : (StringLiteral.close text).closed = true)
    : (StringLiteral.close text).rest.length < text.length := by
  fun_induction StringLiteral.close text with
  | case1 => cases closed
  | case2 text found _ ih =>
      have hle := (StringLiteral.escape_suffix text).length_le
      exact (ih closed).trans_le (hle.trans (Nat.le_succ _))
  | case3 text found _ ih =>
      have hle := (StringLiteral.escape_suffix text).length_le
      exact (ih closed).trans_le (hle.trans (Nat.le_succ _))
  | case4 => cases closed
  | case5 text => exact Nat.lt_succ_self _
  | case6 c text _ _ _ ih => exact (ih closed).trans (Nat.lt_succ_self _)

/-- A scanner that does not end in an item passes it without a fault. -/
theorem Item.close {spelling text : List Char} {value : Nat} (h : Item spelling value)
    (passes : (StringLiteral.close (spelling ++ text)).rest.length < text.length)
    : StringLiteral.close (spelling ++ text) = StringLiteral.close text := by
  cases h with
  | @plain c plain =>
      rw [List.singleton_append, StringLiteral.close_cons plain] at passes ⊢
      split at passes
      · exact absurd passes (Nat.not_lt.mpr (Nat.le_succ _))
      · rename_i line
        rw [if_neg line]
        split at passes
        · exact absurd passes (Nat.lt_irrefl _)
        · rename_i hquote
          rw [if_neg hquote]
  | @simple letter denoted known =>
      have hsimple : StringLiteral.isSimpleEscape letter = true := by
        rw [← simpleEscape?_isSome, ← lookup_simpleEscapes, known]
        rfl
      exact close_escape (.simple hsimple) text
  | codePoint escape => exact close_escape escape text

/-- A scanner that does not end in the items of a cut passes them without a fault, by induction on
the cut.
-/
theorem Cut.close {consumed rest : List Char} {values : List Nat} (h : Cut consumed values rest)
    {text : List Char}
    (passes : (StringLiteral.close (consumed ++ text)).rest.length < text.length)
    : StringLiteral.close (consumed ++ text) = StringLiteral.close text := by
  induction h with
  | stop => rfl
  | @item spelling consumed rest value values item _ ih =>
      rw [List.append_assoc] at passes ⊢
      have hle : text.length ≤ (consumed ++ text).length := by simp
      have hitem := item.close (passes.trans_le hle)
      rw [hitem] at passes ⊢
      exact ih passes

/-- A decoder that names a wrong escape has cut the text up to it, by induction on the cut. -/
theorem Cut.of_invalidEscape {consumed rest : List Char} {values : List Nat}
    (h : Cut consumed values rest) {offset place : Nat} {text : String}
    (blames : Literal.decodeFrom offset (consumed ++ rest) = .error (.invalidEscape text place))
    : ∃ after,
        rest = '\\' :: after
        ∧ (∀ spelling value left, Item spelling value → '\\' :: after ≠ spelling ++ left)
        ∧ text = String.ofList ('\\' :: quoted after)
        ∧ place = offset + utf8Length consumed := by
  induction h generalizing offset with
  | @stop rest stuck =>
      rw [List.nil_append] at blames
      have hne : rest ≠ [] := by
        rintro rfl
        rw [Literal.decodeFrom] at blames
        cases blames
      obtain ⟨after, rfl⟩ := backslash_of_stuck hne stuck
      rw [decodeFrom_backslash stuck] at blames
      cases blames
      exact ⟨after, rfl, stuck, rfl, rfl⟩
  | @item spelling consumed rest value values item _ ih =>
      rw [List.append_assoc, decodeFrom_item item] at blames
      split at blames
      · cases hmore : Literal.decodeFrom (offset + utf8Length spelling) (consumed ++ rest) with
        | ok chars =>
            rw [hmore] at blames
            cases blames
        | error e =>
            rw [hmore] at blames
            cases blames
            obtain ⟨after, hrest, stuck, htext, hplace⟩ := ih hmore
            exact ⟨after, hrest, stuck, htext, by rw [hplace, utf8Length_append, Nat.add_assoc]⟩
      · cases blames

/-- A literal that a scanner closes behind `body` and for which a decoder names a wrong escape has
that escape as its first fault.
-/
theorem faults_of_invalidEscape {body rest : List Char} {offset place : Nat} {text : String}
    (closed : (StringLiteral.close (body ++ '\'' :: rest)).closed = true)
    (ends : (StringLiteral.close (body ++ '\'' :: rest)).rest = rest)
    (blames : decodeFrom offset body = .error (.invalidEscape text place))
    : ∃ consumed left scanned fault more,
        body = consumed ++ (text.toList ++ left)
        ∧ place = offset + utf8Length consumed
        ∧ Rescanned text.toList (left ++ ['\'']) scanned
        ∧ (StringLiteral.close (body ++ '\'' :: rest)).faults = fault :: more
        ∧ fault.kind = .invalidEscapeSequence
        ∧ fault.start = text.toList ++ (left ++ '\'' :: rest)
        ∧ fault.start = scanned ++ fault.stop := by
  obtain ⟨consumed, values, stop, hcut, rfl⟩ := exists_cut body
  obtain ⟨after, rfl, stuck, rfl, rfl⟩ := hcut.of_invalidEscape blames
  rw [List.append_assoc, List.cons_append] at closed ends ⊢
  have hclose := hcut.close (by rw [ends]; simp; omega)
  rw [hclose] at closed ends ⊢
  cases after with
  | nil =>
      -- The scanner takes the closing quote for a part of the escape, and does not end at it.
      have hquote : StringLiteral.close ('\\' :: '\'' :: rest) = StringLiteral.close rest := by
        have known : StringLiteral.isSimpleEscape '\'' = true := by decide
        exact close_escape (.simple known) rest
      rw [List.nil_append, hquote] at closed ends
      have hlt := close_length_lt closed
      rw [ends] at hlt
      exact absurd hlt (Nat.lt_irrefl _)
  | cons c after =>
      rw [List.cons_append] at closed ends ⊢
      have line : isLineBreak c = false := by
        rcases StringLiteral.escape_passed c (after ++ '\'' :: rest) with ⟨hbreak, hescape⟩ | ⟨h, -⟩
        · rw [StringLiteral.close_escape, hescape, if_neg Bool.false_ne_true,
            StringLiteral.close_cons (ne_backslash_of_break hbreak), if_pos hbreak] at closed
          cases closed
        · exact h
      obtain ⟨unknown, left, scanned, hafter, rescanned, hscanned⟩ :=
        foundWrong_of_stuck stuck line rest
      rw [StringLiteral.close_escape, unknown, if_neg Bool.false_ne_true]
      refine ⟨consumed, left, scanned, _, _, ?_, rfl, ?_, rfl, rfl, ?_, hscanned⟩
      · rw [String.toList_ofList, List.cons_append, ← hafter]
      · rwa [String.toList_ofList]
      · rw [String.toList_ofList, ← List.append_assoc, List.cons_append, ← hafter]
        rfl

end GrammarFrontend.Literal
