import GrammarFrontend.Proofs.Literal.Items

/-! Literals decoded in place: with byte offsets into the text, slices between them, and values that
are kept in words of 32 bits. No slice cuts through a character or leaves the text, and no value
that matters is lost by the size of the words, so that the result is the one by items.
-/

namespace GrammarFrontend.Literal

-----------------------------------------------------------------------------------------
-- Decoding by offsets
-----------------------------------------------------------------------------------------

/-- The part of a text between two byte offsets, if these lie in the text where characters meet. -/
def slice? (text : List Char) (start stop : Nat) : Option (List Char) :=
  if start ≤ stop then (textFrom? start text).bind (textUpTo? (stop - start)) else none

/-- The largest word of 32 bits. -/
def wordMax : Nat := 4294967295

/-- A number as a word, which stays at the largest one. -/
def saturated (n : Nat) : Nat := min wordMax n

/-- The word for digits that go on with `c` after those for `value`. -/
def wordStep (value : Nat) (c : Char) : Nat :=
  saturated (saturated (16 * value) + hexDigitValue c)

/-- A run of digits that was read in place. -/
structure DigitRun where
  /-- The value, as a word. -/
  value : Nat
  count : Nat
  /-- The offset behind the last digit, or behind what came before if there is none. -/
  stop : Nat
  rest : List Char

/-- Reads digits, no more than `limit` in all; the next character begins at the offset `place`. -/
def readDigits (limit : Option Nat) (value count place stop : Nat) : List Char → DigitRun
  | [] => { value, count, stop, rest := [] }
  | c :: text =>
      if limit.all (count < ·) && isHexDigit c then
        readDigits limit (wordStep value c) (count + 1) (place + c.utf8Size) (place + 1) text
      else
        { value, count, stop, rest := c :: text }

/-- An escape by code point that was read in place, after its first two characters. -/
structure PlacedCodePoint where
  value : Option Nat
  /-- The offset behind the spelling. -/
  stop : Nat
  rest : List Char

/-- Reads an escape by code point that goes on at the offset `place`. -/
def codePointInPlace (place : Nat) : List Char → PlacedCodePoint
  | '{' :: text =>
      let run := readDigits none 0 0 (place + 1) (place + 1) text
      match run.rest with
      | '}' :: rest =>
          if 1 ≤ run.count && run.count ≤ 6 then
            { value := some run.value, stop := run.stop + 1, rest }
          else
            { value := none, stop := run.stop, rest := '}' :: rest }
      | rest => { value := none, stop := run.stop, rest }
  | text =>
      let run := readDigits (some 4) 0 0 place place text
      {
        value := if run.count = 4 then some run.value else none
        stop := run.stop
        rest := run.rest
      }

/-- What of a text may still be read as digits, with `count` of them read before. -/
def allowed (limit : Option Nat) (count : Nat) (text : List Char) : List Char :=
  match limit with
  | none => text
  | some n => text.take (n - count)

theorem allowed_cons (limit : Option Nat) (count : Nat) (c : Char) (text : List Char)
    : allowed limit count (c :: text)
      = if limit.all (count < ·) then c :: allowed limit (count + 1) text else [] := by
  cases limit with
  | none => rfl
  | some n =>
      simp only [allowed, Option.all_some, decide_eq_true_eq]
      split
      · rename_i hlt
        obtain ⟨k, rfl⟩ := Nat.exists_eq_add_of_lt hlt
        rw [show count + k + 1 - count = k + 1 by omega, List.take_succ_cons,
          show count + k + 1 - (count + 1) = k by omega]
      · rename_i hge
        rw [show n - count = 0 by omega, List.take_zero]

/-- Digits that are read in place are the run of those allowed, by induction on the text. Each of
them takes one byte, so that the offsets go up with their number.
-/
theorem readDigits_eq (limit : Option Nat) (value count place : Nat) (text : List Char)
    : readDigits limit value count place place text
      = let digits := (allowed limit count text).takeWhile isHexDigit
        {
          value := digits.foldl wordStep value
          count := count + digits.length
          stop := place + digits.length
          rest := text.drop digits.length
        } := by
  induction text generalizing value count place with
  | nil => cases limit <;> simp [readDigits, allowed]
  | cons c text ih =>
      rw [readDigits, allowed_cons]
      by_cases hmore : limit.all (count < ·) = true
      · by_cases hc : isHexDigit c = true
        · simp only [hmore, hc, Bool.and_self, if_true, utf8Size_of_isHexDigit hc, ih,
            List.takeWhile_cons_of_pos, List.foldl_cons, List.length_cons, List.drop_succ_cons,
            DigitRun.mk.injEq, true_and, and_true]
          omega
        · simp [hmore, hc]
      · simp [hmore]

/-- The word for a run of digits is their value, or the largest word if that is more. -/
theorem foldl_wordStep (digits : List Char) (value : Nat)
    : digits.foldl wordStep (saturated value)
      = saturated (digits.foldl (fun value c => 16 * value + hexDigitValue c) value) := by
  induction digits generalizing value with
  | nil => rfl
  | cons d digits ih =>
      have hstep : wordStep (saturated value) d = saturated (16 * value + hexDigitValue d) := by
        simp only [wordStep, saturated]
        omega
      rw [List.foldl_cons, List.foldl_cons, hstep, ih]

/-- The word for at most six digits is their value. -/
theorem foldl_wordStep_eq {digits : List Char} (hex : digits.all isHexDigit = true)
    (count : digits.length ≤ 6)
    : digits.foldl wordStep 0 = hexValue digits := by
  have hlt : hexValue digits < 16 ^ 6 :=
    (hexValue_lt hex).trans_le (Nat.pow_le_pow_right (by decide) count)
  have hword : digits.foldl wordStep 0 = saturated (hexValue digits) := foldl_wordStep digits 0
  rw [hword, saturated, wordMax]
  omega

theorem drop_takeWhile_length (f : Char → Bool) (text : List Char)
    : text.drop (text.takeWhile f).length = text.dropWhile f := by
  have hwhole := List.takeWhile_append_dropWhile (p := f) (l := text)
  calc text.drop (text.takeWhile f).length
    _ = (text.takeWhile f ++ text.dropWhile f).drop (text.takeWhile f).length := by rw [hwhole]
    _ = text.dropWhile f := List.drop_left

theorem codePoint_of_brace {text rest : List Char}
    (hclose : text.dropWhile isHexDigit = '}' :: rest)
    : codePoint ('{' :: text)
      = let digits := text.takeWhile isHexDigit
        if 1 ≤ digits.length && digits.length ≤ 6 then
          { spelling := '{' :: (digits ++ ['}']), value := some (hexValue digits), rest }
        else
          { spelling := '{' :: digits, value := none, rest := '}' :: rest } := by
  simp only [codePoint, hclose]

theorem codePoint_of_no_brace {text : List Char}
    (hopen : ∀ rest, text.dropWhile isHexDigit ≠ '}' :: rest)
    : codePoint ('{' :: text)
      = {
          spelling := '{' :: text.takeWhile isHexDigit
          value := none
          rest := text.dropWhile isHexDigit
        } := by
  rw [codePoint]
  split
  · rename_i rest hclose
    exact (hopen rest hclose).elim
  · rfl

/-- An escape by code point reads the same in place, and ends behind the bytes of its spelling. -/
theorem codePointInPlace_eq (place : Nat) (text : List Char)
    : codePointInPlace place text
      = {
          value := (codePoint text).value
          stop := place + utf8Length (codePoint text).spelling
          rest := (codePoint text).rest
        } := by
  have hopen : '{'.utf8Size = 1 := rfl
  have hclose : '}'.utf8Size = 1 := rfl
  unfold codePointInPlace
  split
  · rename_i text
    have hex : (text.takeWhile isHexDigit).all isHexDigit = true := List.all_takeWhile
    simp only [readDigits_eq, allowed, drop_takeWhile_length, Nat.zero_add]
    split
    · rename_i rest hbrace
      rw [codePoint_of_brace hbrace]
      dsimp only
      split
      · rename_i count
        simp only [Bool.and_eq_true, decide_eq_true_eq] at count
        have hvalue := foldl_wordStep_eq hex count.2
        simp [hvalue, utf8Length, utf8Length_of_hex hex, hopen, hclose]
        omega
      · simp [utf8Length, utf8Length_of_hex hex, hopen]
        omega
    · rename_i hunclosed
      rw [codePoint_of_no_brace hunclosed]
      simp only [utf8Length, utf8Length_of_hex hex, hopen, PlacedCodePoint.mk.injEq, true_and,
        and_true]
      omega
  · rename_i hother
    have hex : ((text.take 4).takeWhile isHexDigit).all isHexDigit = true := List.all_takeWhile
    rw [codePoint]
    · simp only [readDigits_eq, allowed, Nat.sub_zero, Nat.zero_add, utf8Length_of_hex hex]
      split
      · rename_i count
        rw [foldl_wordStep_eq hex (by omega)]
      · rfl
    · exact hother

/-- The error of a wrong escape at `offset` in what stands between the quotes, which ends at the
offset `stop` there. There is none if the two cut out no text.
-/
def wrongEscapeInPlace (inner : List Char) (offset stop : Nat)
    : Option (Except LiteralError (List Char)) :=
  (slice? inner offset stop).map
    (fun text => .error (.invalidEscape (String.ofList text) (offset + 1)))

/-- Decodes what is left of `inner` from `offset` on. -/
def decodeInPlace (inner : List Char) (offset : Nat)
    : List Char → Option (Except LiteralError (List Char))
  | [] => some (.ok [])
  | '\\' :: [] => wrongEscapeInPlace inner offset (utf8Length inner)
  | '\\' :: 'u' :: text =>
      let found := codePointInPlace (offset + 2) text
      match found.value with
      | none => wrongEscapeInPlace inner offset found.stop
      | some value =>
          if value.isValidChar then
            (decodeInPlace inner found.stop found.rest).map (·.map (Char.ofNat value :: ·))
          else
            some (.error (.invalidCodePoint value))
  | '\\' :: c :: text =>
      match simpleEscape? c with
      | some denoted => (decodeInPlace inner (offset + 2) text).map (·.map (denoted :: ·))
      | none => wrongEscapeInPlace inner offset (offset + 1 + c.utf8Size)
  | c :: text => (decodeInPlace inner (offset + c.utf8Size) text).map (·.map (c :: ·))
termination_by text => text.length
decreasing_by
  · have := (codePoint_rest_suffix text).length_le
    simp only [codePointInPlace_eq, List.length_cons]
    omega
  · simp only [List.length_cons]
    omega
  · simp

/-- What stands between two places of a text is sliced out of it by their offsets. -/
theorem slice?_of_split (before text after : List Char)
    : slice? (before ++ (text ++ after)) (utf8Length before)
        (utf8Length before + utf8Length text)
      = some text := by
  rw [slice?, if_pos (Nat.le_add_right _ _), Nat.add_sub_cancel_left, textFrom?_append,
    Option.bind_some, textUpTo?_append]

/-- A wrong escape is sliced out of the text that it stands in. -/
theorem wrongEscapeInPlace_eq (before spelling after : List Char)
    : wrongEscapeInPlace (before ++ (spelling ++ after)) (utf8Length before)
        (utf8Length before + utf8Length spelling)
      = some (.error (.invalidEscape (String.ofList spelling) (utf8Length before + 1))) := by
  rw [wrongEscapeInPlace, slice?_of_split]
  rfl

/-- Decoding in place gives what decoding gives, by the recursion of the decoder: all offsets are
those of places in the text.
-/
theorem decodeInPlace_eq (inner before text : List Char) (hinner : inner = before ++ text)
    : decodeInPlace inner (utf8Length before) text
      = some (decodeFrom (utf8Length before + 1) text) := by
  have hslash : '\\'.utf8Size = 1 := rfl
  have hletter : 'u'.utf8Size = 1 := rfl
  generalize hoffset : utf8Length before + 1 = offset
  fun_induction decodeFrom offset text generalizing before with
  | case1 => rw [decodeInPlace]
  | case2 offset =>
      have hwrong := wrongEscapeInPlace_eq before ['\\'] []
      rw [List.append_nil, ← hinner, hoffset] at hwrong
      rw [decodeInPlace, hinner, utf8Length_append, ← hinner, hwrong]
  | case3 offset text found hvalue =>
      have hwrong := wrongEscapeInPlace_eq before ('\\' :: 'u' :: found.spelling) found.rest
      have hlength
          : utf8Length ('\\' :: 'u' :: found.spelling) = 2 + utf8Length found.spelling := by
        simp only [utf8Length, hslash, hletter]
        omega
      rw [hlength, ← Nat.add_assoc, hoffset] at hwrong
      simp only [List.cons_append, codePoint_append, found, ← hinner] at hwrong hvalue
      rw [decodeInPlace, codePointInPlace_eq]
      simp only [hvalue, found]
      exact hwrong
  | case4 offset text found value hvalue valid ih =>
      have hfound
          : codePoint text
            = { spelling := found.spelling, value := some value, rest := found.rest } := by
        rw [← hvalue]
      obtain ⟨escape, htext⟩ := escape_of_codePoint hfound
      have hlength
          : utf8Length (before ++ '\\' :: 'u' :: found.spelling)
            = utf8Length before + 2 + utf8Length found.spelling := by
        simp only [utf8Length_append, utf8Length, hslash, hletter]
        omega
      have hmore := ih (before ++ '\\' :: 'u' :: found.spelling)
        (by rw [hinner, List.append_assoc, List.cons_append, List.cons_append, ← htext])
        (by rw [hlength, escape.utf8Length_digits]; omega)
      rw [hlength] at hmore
      rw [decodeInPlace, codePointInPlace_eq]
      simp only [found] at hvalue hmore
      simp only [hvalue, if_pos valid, hmore, Option.map_some, found]
  | case5 offset text found value hvalue invalid =>
      rw [decodeInPlace, codePointInPlace_eq]
      simp only [found] at hvalue
      simp only [hvalue, if_neg invalid]
  | case6 offset c text hu denoted known ih =>
      have hsize : c.utf8Size = 1 := utf8Size_of_simpleEscape ((lookup_simpleEscapes c).trans known)
      have hlength : utf8Length (before ++ ['\\', c]) = utf8Length before + 2 := by
        simp only [utf8Length_append, utf8Length, hslash, hsize]
      have hmore := ih (before ++ ['\\', c]) (by rw [hinner, List.append_assoc]; rfl)
        (by rw [hlength]; omega)
      rw [hlength] at hmore
      rw [decodeInPlace]
      · simp only [known, hmore, Option.map_some]
      · exact hu
  | case7 offset c text hu unknown =>
      have hwrong := wrongEscapeInPlace_eq before ['\\', c] text
      simp only [List.cons_append, List.nil_append, utf8Length, hslash, ← hinner, hoffset,
        ← Nat.add_assoc, Nat.add_zero] at hwrong
      rw [decodeInPlace]
      · rw [hoffset]
        simp only [unknown, hwrong]
      · exact hu
  | case8 offset c text hsingle hu hmore ih =>
      have hlength : utf8Length (before ++ [c]) = utf8Length before + c.utf8Size := by
        simp only [utf8Length_append, utf8Length, Nat.add_zero]
      have hrest := ih (before ++ [c]) (by rw [hinner, List.append_assoc]; rfl)
        (by rw [hlength]; omega)
      rw [hlength] at hrest
      rw [decodeInPlace]
      · rw [hrest, Option.map_some]
      · exact hsingle
      · exact hu
      · exact hmore

-----------------------------------------------------------------------------------------
-- Whole literals
-----------------------------------------------------------------------------------------

/-- Decodes a whole text in place, the quotes at its ends included. -/
def decodeBySlices (text : String) : Option (Except LiteralError String) :=
  match inner? text.toList with
  | none => some (.error (.unquoted text))
  | some inner => (decodeInPlace inner 0 inner).map (·.map String.ofList)

/-- Decoding a whole text in place gives what decoding gives. -/
theorem decodeBySlices_eq (text : String) : decodeBySlices text = some (decode text) := by
  rw [decodeBySlices, decode]
  cases inner? text.toList with
  | none => rfl
  | some inner =>
      have hplace : decodeInPlace inner 0 inner = some (decodeFrom 1 inner) :=
        decodeInPlace_eq inner [] inner rfl
      simp only [hplace, Option.map_some]

/-- A literal between quotes has the outcome of any cut of what stands between them. -/
theorem Cut.decode {text : String} {consumed rest : List Char} {values : List Nat}
    (h : Cut consumed values rest) (quoted : text.toList = '\'' :: (consumed ++ rest ++ ['\'']))
    : ∃ result,
        Outcome '\''.utf8Size consumed values rest result
        ∧ Literal.decode text = result.map String.ofList := by
  refine ⟨_, h.decodeFrom '\''.utf8Size, ?_⟩
  rw [Literal.decode, inner?_eq_some.mpr quoted]
  rfl

/-- What a literal denotes is told by the one cut of what stands between its quotes into items. The
offset of a wrong escape counts from the begin of the text, and the values of all items are words.
Decoding with slices and words gives the same, so that every slice is a text.
-/
structure DecodesByItems (text : String) : Prop where
  unquoted
    : decode text = .error (.unquoted text) ↔ ∀ inner, text.toList ≠ '\'' :: (inner ++ ['\''])
  cut
    : ∀ inner,
        text.toList = '\'' :: (inner ++ ['\''])
        → ∃ consumed values rest,
            Cut consumed values rest
            ∧ inner = consumed ++ rest
            ∧ ∀ others more left,
                Cut others more left
                → inner = others ++ left
                → consumed = others ∧ values = more ∧ rest = left
  outcome
    : ∀ consumed values rest,
        text.toList = '\'' :: (consumed ++ rest ++ ['\''])
        → Cut consumed values rest
        → (∀ v ∈ values, v ≤ wordMax)
          ∧ ∃ result,
              Outcome '\''.utf8Size consumed values rest result
              ∧ decode text = result.map String.ofList
  slices : decodeBySlices text = some (decode text)

/-- Every text decodes by its items. -/
theorem decodes_by_items (text : String) : DecodesByItems text := by
  constructor
  case unquoted =>
    constructor
    · intro h inner quoted
      obtain ⟨consumed, values, rest, cut, rfl⟩ := exists_cut inner
      obtain ⟨result, outcome, he⟩ := cut.decode quoted
      rw [he] at h
      cases outcome <;> cases h
    · intro unquoted
      have hinner : inner? text.toList = none := by
        by_contra hsome
        obtain ⟨inner, hinner⟩ := Option.ne_none_iff_exists'.mp hsome
        exact unquoted inner (inner?_eq_some.mp hinner)
      rw [decode, hinner]
  case cut =>
    intro inner _
    obtain ⟨consumed, values, rest, cut, hinner⟩ := exists_cut inner
    refine ⟨consumed, values, rest, cut, hinner, ?_⟩
    intro others more left also split
    exact cut.unique also (hinner.symm.trans split)
  case outcome =>
    intro consumed values rest quoted cut
    refine ⟨?_, cut.decode quoted⟩
    intro v hv
    exact (cut.value_lt v hv).le.trans (by decide)
  case slices => exact decodeBySlices_eq text

end GrammarFrontend.Literal
