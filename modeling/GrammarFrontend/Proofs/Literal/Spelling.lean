import GrammarFrontend.Lexeme.StringLiteral
import GrammarFrontend.Literal

/-! The spelling of string literals: characters that stand for themselves and well-formed escapes.
What a decoder makes of a text and what a scanner finds wrong with it are both told by the spelling,
so that the two agree without being compared step by step.
-/

namespace GrammarFrontend.Literal

-----------------------------------------------------------------------------------------
-- Texts that are spelled well
-----------------------------------------------------------------------------------------

/-- A well-formed escape after its backslash, with its value if it is one by code point. -/
inductive Escape : List Char → Option Nat → Prop
  | simple {c : Char} (known : StringLiteral.isSimpleEscape c = true) : Escape [c] none
  | four {digits : List Char} (hex : digits.all isHexDigit = true) (count : digits.length = 4)
    : Escape ('u' :: digits) (some (hexValue digits))
  | braced {digits : List Char} (hex : digits.all isHexDigit = true)
    (count : 1 ≤ digits.length ∧ digits.length ≤ 6)
    : Escape ('u' :: '{' :: (digits ++ ['}'])) (some (hexValue digits))

/-- A text of characters and well-formed escapes, with the values of the escapes by code point. -/
inductive Spells : List Char → List Nat → Prop
  | nil : Spells [] []
  | plain {c : Char} {text : List Char} {values : List Nat} (plain : c ≠ '\\')
    (more : Spells text values)
    : Spells (c :: text) values
  | escape {spelling text : List Char} {value : Option Nat} {values : List Nat}
    (escape : Escape spelling value) (more : Spells text values)
    : Spells ('\\' :: (spelling ++ text)) (value.toList ++ values)

/-- The values of the unicode escapes in a text, from the left. A backslash hides the character
after it, and each value is that of the digits that are there.
-/
def unicodeEscapes : List Char → List Nat
  | [] => []
  | '\\' :: 'u' :: '{' :: text =>
      hexValue (text.takeWhile isHexDigit) :: unicodeEscapes (text.dropWhile isHexDigit)
  | '\\' :: 'u' :: text =>
      let digits := (text.take 4).takeWhile isHexDigit
      hexValue digits :: unicodeEscapes (text.drop digits.length)
  | '\\' :: _ :: text => unicodeEscapes text
  | _ :: text => unicodeEscapes text
termination_by text => text.length
decreasing_by
  · have := (List.dropWhile_suffix (l := text) isHexDigit).length_le
    simp only [List.length_cons]
    omega
  · simp only [List.length_cons, List.length_drop]
    omega
  · simp only [List.length_cons]
    omega
  · simp

-----------------------------------------------------------------------------------------
-- Parts of escapes
-----------------------------------------------------------------------------------------

/-- Digits before a text that does not go on with one are the run of digits there. -/
theorem takeWhile_digits {digits : List Char} (hex : digits.all isHexDigit = true)
    (rest : List Char) (stops : ∀ c ∈ rest.head?, isHexDigit c = false)
    : (digits ++ rest).takeWhile isHexDigit = digits
      ∧ (digits ++ rest).dropWhile isHexDigit = rest := by
  have hall : ∀ c ∈ digits, isHexDigit c = true := List.all_eq_true.mp hex
  rw [List.takeWhile_append_of_pos hall, List.dropWhile_append_of_pos hall]
  cases rest with
  | nil => simp
  | cons c rest =>
      have hc : isHexDigit c = false := stops c rfl
      simp [hc]

/-- Four digits are the first four characters of what they begin. -/
theorem takeWhile_four {digits rest : List Char} (hex : digits.all isHexDigit = true)
    (count : digits.length = 4)
    : ((digits ++ rest).take 4).takeWhile isHexDigit = digits := by
  have htake : (digits ++ rest).take 4 = digits := by rw [← count, List.take_left]
  have hdigits := (takeWhile_digits hex [] (by simp)).1
  rw [htake]
  simpa using hdigits

/-- A text is its run of digits and what the run stops at. -/
theorem digits_append {text after : List Char} {c : Char}
    (hdrop : text.dropWhile isHexDigit = c :: after)
    : text = text.takeWhile isHexDigit ++ c :: after := by
  rw [← hdrop, List.takeWhile_append_dropWhile]

/-- A text begins with the digits among its first four characters. -/
theorem fourDigits_append (text : List Char)
    : text
      = (text.take 4).takeWhile isHexDigit
        ++ text.drop ((text.take 4).takeWhile isHexDigit).length := by
  have hprefix : (text.take 4).takeWhile isHexDigit <+: text :=
    (List.takeWhile_prefix _).trans (List.take_prefix 4 text)
  exact (List.prefix_iff_eq_append.mp hprefix).symm

/-- The letter of escapes by code point is no simple escape. -/
theorem ne_u_of_isSimpleEscape {c : Char} (known : StringLiteral.isSimpleEscape c = true)
    : c ≠ 'u' := by
  rintro rfl
  simp [StringLiteral.isSimpleEscape] at known

/-- A digit is no opening brace, so that digits are not taken for those in braces. -/
theorem head_ne_brace {digits : List Char} (hex : digits.all isHexDigit = true)
    : ∀ text : List Char, digits ≠ '{' :: text := by
  intro text he
  rw [he] at hex
  simp [isHexDigit] at hex

-----------------------------------------------------------------------------------------
-- What a scanner finds
-----------------------------------------------------------------------------------------

/-- A scanner takes a well-formed escape for one and stops behind it. -/
theorem Escape.scan {spelling : List Char} {value : Option Nat} (h : Escape spelling value)
    (rest : List Char)
    : StringLiteral.escape (spelling ++ rest) = (true, rest) := by
  cases h with
  | @simple c known =>
      simp [StringLiteral.escape, ne_u_of_isSimpleEscape known, known]
  | @four digits hex count =>
      obtain ⟨d, digits, rfl⟩ := List.exists_cons_of_length_eq_add_one count
      have hd : d ≠ '{' := fun he => head_ne_brace hex digits (by rw [he])
      have hrun : (((d :: digits) ++ rest).take 4).takeWhile isHexDigit = d :: digits :=
        takeWhile_four hex count
      have hescape
          : StringLiteral.escape ('u' :: (d :: digits ++ rest))
            = StringLiteral.fourDigits (d :: digits ++ rest) := by
        simp [StringLiteral.escape, hd]
      rw [List.cons_append, hescape, StringLiteral.fourDigits, hrun, count]
      simp [← count]
  | @braced digits hex count =>
      obtain ⟨htake, hdrop⟩ := takeWhile_digits hex ('}' :: rest) (by simp [isHexDigit])
      simp [StringLiteral.escape, StringLiteral.bracedDigits, htake, hdrop, count]

/-- What a scanner takes for a known escape is well-formed. -/
theorem escape_of_scan {text rest : List Char} (h : StringLiteral.escape text = (true, rest))
    : ∃ spelling value, Escape spelling value ∧ text = spelling ++ rest := by
  unfold StringLiteral.escape at h
  split at h
  · simp at h
  · rename_i text
    unfold StringLiteral.bracedDigits at h
    dsimp only at h
    split at h
    · rename_i after hdrop
      simp only [Prod.mk.injEq, Bool.and_eq_true, decide_eq_true_eq] at h
      obtain ⟨count, rfl⟩ := h
      refine ⟨_, _, .braced List.all_takeWhile count, ?_⟩
      rw [List.cons_append, List.cons_append, List.append_assoc, List.singleton_append,
        ← digits_append hdrop]
    · simp at h
  · rename_i text _
    unfold StringLiteral.fourDigits at h
    simp only [Prod.mk.injEq, beq_iff_eq] at h
    obtain ⟨count, rfl⟩ := h
    exact ⟨_, _, .four List.all_takeWhile count, congrArg ('u' :: ·) (fourDigits_append text)⟩
  · rename_i c text _ _
    split at h
    · rename_i known
      cases h
      exact ⟨_, _, .simple known, rfl⟩
    · split at h <;> simp at h

-----------------------------------------------------------------------------------------
-- What a decoder makes of it
-----------------------------------------------------------------------------------------

/-- The known escapes of a scanner are those that a decoder knows. -/
theorem simpleEscape?_isSome (c : Char)
    : (simpleEscape? c).isSome = StringLiteral.isSimpleEscape c := by
  unfold simpleEscape?
  split <;> simp_all [StringLiteral.isSimpleEscape]

/-- A decoder reads the digits of a well-formed escape by code point. -/
theorem codePoint_of_escape {spelling : List Char} {value : Nat}
    (h : Escape ('u' :: spelling) (some value)) (rest : List Char)
    : codePoint (spelling ++ rest) = { spelling, value := some value, rest } := by
  cases h with
  | four hex count =>
      obtain ⟨d, digits, rfl⟩ := List.exists_cons_of_length_eq_add_one count
      have hd : d ≠ '{' := fun he => head_ne_brace hex digits (by rw [he])
      have hrun : (((d :: digits) ++ rest).take 4).takeWhile isHexDigit = d :: digits :=
        takeWhile_four hex count
      unfold codePoint
      split
      · simp_all
      · simp only [hrun, count, if_true]
        simp [← count]
  | @braced digits hex count =>
      obtain ⟨htake, hdrop⟩ := takeWhile_digits hex ('}' :: rest) (by simp [isHexDigit])
      simp [codePoint, htake, hdrop, count]

/-- What a decoder reads a value from is a well-formed escape. -/
theorem escape_of_codePoint {text spelling rest : List Char} {value : Nat}
    (h : codePoint text = { spelling, value := some value, rest })
    : Escape ('u' :: spelling) (some value) ∧ text = spelling ++ rest := by
  unfold codePoint at h
  split at h
  · rename_i text
    dsimp only at h
    split at h
    · rename_i after hdrop
      split at h
      · rename_i count
        simp only [Bool.and_eq_true, decide_eq_true_eq] at count
        cases h
        refine ⟨.braced List.all_takeWhile count, ?_⟩
        rw [List.cons_append, List.append_assoc, List.singleton_append, ← digits_append hdrop]
      · cases h
    · cases h
  · dsimp only at h
    obtain ⟨rfl, hvalue, rfl⟩ := CodePoint.mk.inj h
    split at hvalue
    · rename_i count
      cases hvalue
      exact ⟨.four List.all_takeWhile count, fourDigits_append text⟩
    · cases hvalue

/-- A decoder goes on behind an escape by code point if its value is a character's. -/
theorem decodeFrom_codePoint {digits : List Char} {value : Nat}
    (h : Escape ('u' :: digits) (some value)) (offset : Nat) (rest : List Char)
    : decodeFrom offset ('\\' :: 'u' :: (digits ++ rest))
      = if value.isValidChar then
          (decodeFrom (offset + 2 + digits.length) rest).map (Char.ofNat value :: ·)
        else
          .error (.invalidCodePoint value) := by
  rw [decodeFrom, codePoint_of_escape h rest]

/-- A decoder goes on behind a well-formed escape with the character that it denotes, if it denotes
one.
-/
theorem decodeFrom_escape {spelling : List Char} {value : Option Nat} (h : Escape spelling value)
    (offset : Nat) (rest : List Char)
    : (∃ v ∈ value,
        ¬ v.isValidChar
        ∧ decodeFrom offset ('\\' :: (spelling ++ rest)) = .error (.invalidCodePoint v))
      ∨ (∀ v ∈ value, v.isValidChar)
        ∧ ∃ denoted next,
            decodeFrom offset ('\\' :: (spelling ++ rest))
            = (decodeFrom next rest).map (denoted :: ·) := by
  cases value with
  | some v =>
      obtain ⟨digits, rfl⟩ : ∃ digits, spelling = 'u' :: digits := by
        cases h <;> exact ⟨_, rfl⟩
      rw [List.cons_append, decodeFrom_codePoint h]
      by_cases hv : v.isValidChar
      · exact .inr ⟨by simpa using hv, _, _, if_pos hv⟩
      · exact .inl ⟨v, rfl, hv, if_neg hv⟩
  | none =>
      cases h with
      | @simple c known =>
          have hsome := (simpleEscape?_isSome c).trans known
          obtain ⟨denoted, hdenoted⟩ := Option.isSome_iff_exists.mp hsome
          refine .inr ⟨by simp, denoted, offset + 2, ?_⟩
          rw [List.singleton_append, decodeFrom]
          · simp only [hdenoted]
          · exact ne_u_of_isSimpleEscape known

/-- Of a text that is spelled well, a decoder gives the characters, unless the value of an escape is
no character's. The induction is on the spelling.
-/
theorem decodeFrom_of_spells {text : List Char} {values : List Nat} (h : Spells text values)
    (offset : Nat)
    : (∃ v ∈ values,
        ¬ v.isValidChar ∧ decodeFrom offset text = .error (.invalidCodePoint v))
      ∨ (∀ v ∈ values, v.isValidChar) ∧ ∃ chars, decodeFrom offset text = .ok chars := by
  induction h generalizing offset with
  | nil => exact .inr ⟨by simp, [], by rw [decodeFrom]⟩
  | @plain c text values plain more ih =>
      have hstep
          : decodeFrom offset (c :: text)
            = (decodeFrom (offset + c.utf8Size) text).map (c :: ·) := by
        rw [decodeFrom] <;> simp_all
      rcases ih (offset + c.utf8Size) with ⟨v, hv, invalid, he⟩ | ⟨valid, chars, he⟩
      · exact .inl ⟨v, hv, invalid, by rw [hstep, he]; rfl⟩
      · exact .inr ⟨valid, c :: chars, by rw [hstep, he]; rfl⟩
  | @escape spelling text value values escape more ih =>
      simp only [List.mem_append, Option.mem_toList]
      rcases decodeFrom_escape escape offset text with
        ⟨v, hv, invalid, he⟩ | ⟨valid, denoted, next, hstep⟩
      · exact .inl ⟨v, .inl hv, invalid, he⟩
      · rcases ih next with ⟨v, hv, invalid, he⟩ | ⟨validRest, chars, he⟩
        · exact .inl ⟨v, .inr hv, invalid, by rw [hstep, he]; rfl⟩
        · refine .inr ⟨?_, denoted :: chars, by rw [hstep, he]; rfl⟩
          intro v hv
          rcases hv with hv | hv
          · exact valid v hv
          · exact validRest v hv

/-- Where a decoder gives characters behind one more, it gives them without it. -/
theorem ok_of_map {denoted : Char} {chars : List Char} {result : Except LiteralError (List Char)}
    (h : result.map (denoted :: ·) = .ok chars)
    : ∃ rest, result = .ok rest := by
  cases result with
  | ok rest => exact ⟨rest, rfl⟩
  | error e => cases h

/-- A text that a decoder gives the characters of is spelled well, by the recursion of the decoder.
-/
theorem spells_of_decodeFrom {offset : Nat} {text chars : List Char}
    (h : decodeFrom offset text = .ok chars)
    : ∃ values, Spells text values := by
  fun_induction decodeFrom offset text generalizing chars with
  | case1 => exact ⟨[], .nil⟩
  | case2 => cases h
  | case3 => cases h
  | case4 =>
      rename_i offset text found value hvalue valid ih
      obtain ⟨rest, hrest⟩ := ok_of_map h
      obtain ⟨values, more⟩ := ih hrest
      have hfound
          : codePoint text
            = { spelling := found.spelling, value := some value, rest := found.rest } := by
        rw [← hvalue]
      obtain ⟨escape, htext⟩ := escape_of_codePoint hfound
      rw [htext]
      exact ⟨_, .escape escape more⟩
  | case5 => cases h
  | case6 =>
      rename_i offset c text hu denoted hdenoted ih
      obtain ⟨rest, hrest⟩ := ok_of_map h
      obtain ⟨values, more⟩ := ih hrest
      have known : StringLiteral.isSimpleEscape c = true := by
        rw [← simpleEscape?_isSome, hdenoted]
        rfl
      exact ⟨_, .escape (.simple known) more⟩
  | case7 => cases h
  | case8 =>
      rename_i offset c text single unicode known ih
      obtain ⟨rest, hrest⟩ := ok_of_map h
      obtain ⟨values, more⟩ := ih hrest
      have plain : c ≠ '\\' := by
        intro hc
        cases text with
        | nil => exact single hc rfl
        | cons d text => exact known d text hc rfl
      exact ⟨_, .plain plain more⟩

-----------------------------------------------------------------------------------------
-- Whole literals
-----------------------------------------------------------------------------------------

/-- The value of an escape is the first of the values in what it begins. -/
theorem unicodeEscapes_escape {spelling : List Char} {value : Option Nat}
    (h : Escape spelling value) (rest : List Char)
    : unicodeEscapes ('\\' :: (spelling ++ rest)) = value.toList ++ unicodeEscapes rest := by
  cases h with
  | @simple c known =>
      have hu : c ≠ 'u' := ne_u_of_isSimpleEscape known
      rw [List.singleton_append, unicodeEscapes]
      · rfl
      · intro text hc
        exact absurd hc hu
      · exact hu
  | @four digits hex count =>
      have hbrace : ∀ text : List Char, digits ++ rest ≠ '{' :: text := by
        intro text he
        obtain ⟨d, digits, rfl⟩ := List.exists_cons_of_length_eq_add_one count
        rw [List.cons_append, List.cons.injEq] at he
        exact head_ne_brace hex digits (by rw [he.1])
      rw [List.cons_append, unicodeEscapes]
      · simp [takeWhile_four hex count]
      · exact hbrace
  | @braced digits hex count =>
      obtain ⟨htake, hdrop⟩ := takeWhile_digits hex ('}' :: rest) (by simp [isHexDigit])
      have hbrace : unicodeEscapes ('}' :: rest) = unicodeEscapes rest := by
        rw [unicodeEscapes] <;> simp
      rw [List.cons_append, List.cons_append, List.append_assoc, List.singleton_append,
        unicodeEscapes, htake, hdrop, hbrace]
      rfl

/-- The spelling of a text gives the values of the escapes in it, by induction on the spelling. -/
theorem unicodeEscapes_of_spells {text : List Char} {values : List Nat} (h : Spells text values)
    (rest : List Char)
    : unicodeEscapes (text ++ rest) = values ++ unicodeEscapes rest := by
  induction h with
  | nil => rfl
  | @plain c text values plain more ih =>
      rw [List.cons_append, unicodeEscapes, ih] <;> simp [plain]
  | @escape spelling text value values escape more ih =>
      rw [List.cons_append, List.append_assoc, unicodeEscapes_escape escape, ih, List.append_assoc]

/-- A scanner goes on behind a well-formed escape. -/
theorem close_escape {spelling : List Char} {value : Option Nat} (h : Escape spelling value)
    (rest : List Char)
    : StringLiteral.close ('\\' :: (spelling ++ rest)) = StringLiteral.close rest := by
  rw [StringLiteral.close, h.scan rest]
  rfl

/-- A literal that a scanner ends behind a text that is spelled well has its closing quote there and
no faults. The induction is on the spelling; a scanner that ends earlier leaves too much.
-/
theorem close_of_spells {text : List Char} {values : List Nat} (h : Spells text values)
    (rest : List Char) (ends : (StringLiteral.close (text ++ '\'' :: rest)).rest = rest)
    : StringLiteral.close (text ++ '\'' :: rest) = { closed := true, rest, faults := [] } := by
  induction h with
  | nil => simp [StringLiteral.close, isLineBreak]
  | @plain c text values plain more ih =>
      rw [List.cons_append, StringLiteral.close] at ends ⊢
      · split at ends
        · have hlength := congrArg List.length ends
          simp only [List.length_cons, List.length_append] at hlength
          omega
        · rename_i hbreak
          rw [if_neg hbreak]
          split at ends
          · have hlength := congrArg List.length ends
            simp only [List.length_cons, List.length_append] at hlength
            omega
          · rename_i hquote
            rw [if_neg hquote]
            exact ih ends
      · exact plain
      · exact plain
  | @escape spelling text value values escape more ih =>
      rw [List.cons_append, List.append_assoc, close_escape escape] at ends ⊢
      exact ih ends

/-- What a scanner closes without a fault is spelled well up to the closing quote, by the recursion
of the scanner.
-/
theorem spells_of_close {text : List Char} (closed : (StringLiteral.close text).closed = true)
    (faultless : (StringLiteral.close text).faults = [])
    : ∃ body values,
        Spells body values ∧ text = body ++ '\'' :: (StringLiteral.close text).rest := by
  fun_induction StringLiteral.close text with
  | case1 => cases closed
  | case2 text found known ih =>
      have scanned : StringLiteral.escape text = (true, found.2) := Prod.ext known rfl
      obtain ⟨spelling, value, escape, htext⟩ := escape_of_scan scanned
      obtain ⟨body, values, more, hrest⟩ := ih closed faultless
      refine ⟨_, _, .escape escape more, ?_⟩
      rw [List.cons_append, List.append_assoc, ← hrest, ← htext]
  | case3 => cases faultless
  | case4 => cases closed
  | case5 => exact ⟨[], [], .nil, rfl⟩
  | case6 c text hbackslash hbreak hquote ih =>
      obtain ⟨body, values, more, hrest⟩ := ih closed faultless
      refine ⟨_, _, .plain hbackslash more, ?_⟩
      rw [List.cons_append, ← hrest]

end GrammarFrontend.Literal
