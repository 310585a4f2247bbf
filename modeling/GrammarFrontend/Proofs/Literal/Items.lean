import GrammarFrontend.Proofs.Scanner.Literals
import Mathlib.Algebra.Group.Nat.Defs

/-! Literals cut into items. What stands between the quotes is cut from the left into characters and
well-formed escapes, as far as there is one; the cut alone tells what a decoder makes of the
literal.
-/

namespace GrammarFrontend.Literal

-----------------------------------------------------------------------------------------
-- Items and cuts
-----------------------------------------------------------------------------------------

/-- The letters of escapes for one character, with what they denote. -/
def simpleEscapes : List (Char × Char) :=
  [('b', '\x08'), ('t', '\t'), ('n', '\n'), ('f', '\x0c'), ('r', '\r'), ('\'', '\''),
    ('\\', '\\')]

/-- A character that is no backslash, or a well-formed escape with its backslash. The value is the
code point that the item denotes, whether or not there is such a character.
-/
inductive Item : List Char → Nat → Prop
  | plain {c : Char} (plain : c ≠ '\\') : Item [c] c.toNat
  | simple {letter denoted : Char} (known : simpleEscapes.lookup letter = some denoted)
    : Item ['\\', letter] denoted.toNat
  | codePoint {digits : List Char} {value : Nat} (escape : Escape ('u' :: digits) (some value))
    : Item ('\\' :: 'u' :: digits) value

/-- The text `consumed ++ rest` is cut from the left as far as `rest`, where no item begins; the
items cut off have these values.
-/
inductive Cut : List Char → List Nat → List Char → Prop
  | stop {rest : List Char}
    (stuck : ∀ spelling value after, Item spelling value → rest ≠ spelling ++ after)
    : Cut [] [] rest
  | item {spelling consumed rest : List Char} {value : Nat} {values : List Nat}
    (item : Item spelling value) (more : Cut consumed values rest)
    : Cut (spelling ++ consumed) (value :: values) rest

/-- Cutting is deterministic at each item: of a text that begins with two items, both are one. -/
theorem Item.unique {first second after more : List Char} {value other : Nat}
    (hf : Item first value) (hs : Item second other) (h : first ++ after = second ++ more)
    : first = second ∧ value = other ∧ after = more := by
  cases hf with
  | plain plain =>
      cases hs with
      | plain =>
          obtain ⟨rfl, rfl⟩ := List.cons.inj h
          exact ⟨rfl, rfl, rfl⟩
      | simple | codePoint => exact absurd (List.cons.inj h).1 plain
  | @simple letter denoted known =>
      cases hs with
      | plain plain => exact absurd (List.cons.inj h).1.symm plain
      | simple knownToo =>
          obtain ⟨-, h⟩ := List.cons.inj h
          obtain ⟨rfl, rfl⟩ := List.cons.inj h
          obtain rfl := Option.some.inj (known.symm.trans knownToo)
          exact ⟨rfl, rfl, rfl⟩
      | codePoint =>
          obtain ⟨-, h⟩ := List.cons.inj h
          obtain ⟨rfl, -⟩ := List.cons.inj h
          cases known
  | @codePoint digits value escape =>
      cases hs with
      | plain plain => exact absurd (List.cons.inj h).1.symm plain
      | simple known =>
          obtain ⟨-, h⟩ := List.cons.inj h
          obtain ⟨rfl, -⟩ := List.cons.inj h
          cases known
      | codePoint escapeToo =>
          simp only [List.cons_append, List.cons.injEq, true_and] at h
          have hread := codePoint_of_escape escape after
          rw [h, codePoint_of_escape escapeToo more] at hread
          obtain ⟨rfl, hvalue, rfl⟩ := CodePoint.mk.inj hread
          exact ⟨rfl, (Option.some.inj hvalue).symm, rfl⟩

theorem Item.ne_nil {spelling : List Char} {value : Nat} (h : Item spelling value)
    : spelling ≠ [] := by
  cases h <;> exact List.cons_ne_nil _ _

/-- A text has one cut only, by induction on the first of two cuts. -/
theorem Cut.unique {consumed others rest left : List Char} {values more : List Nat}
    (hf : Cut consumed values rest) (hs : Cut others more left)
    (h : consumed ++ rest = others ++ left)
    : consumed = others ∧ values = more ∧ rest = left := by
  induction hf generalizing others more with
  | stop stuck =>
      cases hs with
      | stop => exact ⟨rfl, rfl, h⟩
      | item item => exact absurd (h.trans (List.append_assoc _ _ _)) (stuck _ _ _ item)
  | item item _ ih =>
      cases hs with
      | stop stuck => exact absurd (h.symm.trans (List.append_assoc _ _ _)) (stuck _ _ _ item)
      | item itemToo moreToo =>
          rw [List.append_assoc, List.append_assoc] at h
          obtain ⟨rfl, rfl, h⟩ := item.unique itemToo h
          obtain ⟨rfl, rfl, rfl⟩ := ih moreToo h
          exact ⟨rfl, rfl, rfl⟩

/-- Every text has a cut, by induction on its length: what an item leaves is shorter. -/
theorem exists_cut (text : List Char)
    : ∃ consumed values rest, Cut consumed values rest ∧ text = consumed ++ rest := by
  by_cases hitem : ∃ spelling value after, Item spelling value ∧ text = spelling ++ after
  · obtain ⟨spelling, value, after, item, rfl⟩ := hitem
    have hlt : after.length < (spelling ++ after).length := by
      rw [List.length_append]
      have := List.length_pos_of_ne_nil item.ne_nil
      omega
    obtain ⟨consumed, values, rest, more, rfl⟩ := exists_cut after
    exact ⟨_, _, rest, .item item more, (List.append_assoc _ _ _).symm⟩
  · refine ⟨[], [], text, .stop ?_, rfl⟩
    intro spelling value after item htext
    exact hitem ⟨spelling, value, after, item, htext⟩
termination_by text.length

-----------------------------------------------------------------------------------------
-- Sizes and values of digits
-----------------------------------------------------------------------------------------

/-- The code points of the hexadecimal digits. -/
theorem isHexDigit_iff (c : Char)
    : isHexDigit c = true
      ↔ (48 ≤ c.toNat ∧ c.toNat ≤ 57)
        ∨ (97 ≤ c.toNat ∧ c.toNat ≤ 102)
        ∨ (65 ≤ c.toNat ∧ c.toNat ≤ 70) := by
  simp only [isHexDigit, Char.isDigit, Bool.or_eq_true, Bool.and_eq_true, decide_eq_true_eq,
    Char.le_def, UInt32.le_iff_toNat_le, ge_iff_le, Char.toNat, or_assoc]
  exact Iff.rfl

theorem hexDigitValue_lt {c : Char} (h : isHexDigit c = true) : hexDigitValue c < 16 := by
  rw [isHexDigit_iff] at h
  have hdigit : c.isDigit = true ↔ 48 ≤ c.toNat ∧ c.toNat ≤ 57 := by
    simp only [Char.isDigit, Bool.and_eq_true, decide_eq_true_eq, UInt32.le_iff_toNat_le,
      ge_iff_le, Char.toNat]
    exact Iff.rfl
  have hlower : 'a' ≤ c ↔ 97 ≤ c.toNat := by
    simp only [Char.le_def, UInt32.le_iff_toNat_le, Char.toNat]
    exact Iff.rfl
  have hzero : '0'.toNat = 48 := rfl
  have hsmall : 'a'.toNat = 97 := rfl
  have hlarge : 'A'.toNat = 65 := rfl
  simp only [hexDigitValue, hdigit, hlower]
  split
  · omega
  split
  · omega
  · omega

/-- A hexadecimal digit takes one byte. -/
theorem utf8Size_of_isHexDigit {c : Char} (h : isHexDigit c = true) : c.utf8Size = 1 := by
  rw [isHexDigit_iff] at h
  rw [Char.utf8Size_eq_one_iff, UInt32.le_iff_toNat_le]
  have hascii : c.toNat ≤ 127 := by omega
  exact hascii

/-- A run of hexadecimal digits takes as many bytes as it has digits, by induction on it. -/
theorem utf8Length_of_hex {digits : List Char} (hex : digits.all isHexDigit = true)
    : utf8Length digits = digits.length := by
  induction digits with
  | nil => rfl
  | cons d digits ih =>
      rw [List.all_cons, Bool.and_eq_true] at hex
      rw [utf8Length, utf8Size_of_isHexDigit hex.1, ih hex.2, List.length_cons, Nat.add_comm]

/-- Digits that go on from a value stay below sixteen times the next one for each digit. -/
theorem foldl_hex_lt {digits : List Char} (hex : digits.all isHexDigit = true) (start : Nat)
    : digits.foldl (fun value c => 16 * value + hexDigitValue c) start
      < (start + 1) * 16 ^ digits.length := by
  induction digits generalizing start with
  | nil => simp
  | cons d digits ih =>
      rw [List.all_cons, Bool.and_eq_true] at hex
      have hd := hexDigitValue_lt hex.1
      calc (d :: digits).foldl (fun value c => 16 * value + hexDigitValue c) start
        _ < (16 * start + hexDigitValue d + 1) * 16 ^ digits.length := ih hex.2 _
        _ ≤ (16 * (start + 1)) * 16 ^ digits.length := Nat.mul_le_mul_right _ (by omega)
        _ = (start + 1) * 16 ^ (digits.length + 1) := by
          rw [Nat.pow_succ, Nat.mul_comm 16, Nat.mul_assoc, Nat.mul_comm 16]

theorem hexValue_lt {digits : List Char} (hex : digits.all isHexDigit = true)
    : hexValue digits < 16 ^ digits.length := by
  simpa [hexValue] using foldl_hex_lt hex 0

/-- The spelling of a well-formed escape by code point takes one byte for each character. -/
theorem Escape.utf8Length_digits {digits : List Char} {value : Nat}
    (h : Escape ('u' :: digits) (some value))
    : utf8Length digits = digits.length := by
  cases h with
  | four hex => exact utf8Length_of_hex hex
  | @braced digits hex =>
      simp only [utf8Length, utf8Length_append, utf8Length_of_hex hex, List.length_cons,
        List.length_append, List.length_nil]
      have hopen : '{'.utf8Size = 1 := rfl
      have hclose : '}'.utf8Size = 1 := rfl
      omega

/-- The value of an escape by code point has at most six digits. -/
theorem Escape.value_lt {digits : List Char} {value : Nat}
    (h : Escape ('u' :: digits) (some value))
    : value < 16 ^ 6 := by
  cases h with
  | four hex count =>
      have hlt := hexValue_lt hex
      rw [count] at hlt
      exact hlt.trans (by decide)
  | braced hex count => exact (hexValue_lt hex).trans_le (Nat.pow_le_pow_right (by decide) count.2)

/-- The value of an item is small, whether or not it is a character's. -/
theorem Item.value_lt {spelling : List Char} {value : Nat} (h : Item spelling value)
    : value < 16 ^ 6 := by
  have hchar (c : Char) : c.toNat < 16 ^ 6 := by
    have hvalid : c.toNat.isValidChar := c.valid
    simp only [Nat.isValidChar] at hvalid
    omega
  cases h with
  | plain | simple => exact hchar _
  | codePoint escape => exact escape.value_lt

theorem Cut.value_lt {consumed rest : List Char} {values : List Nat}
    (h : Cut consumed values rest)
    : ∀ v ∈ values, v < 16 ^ 6 := by
  induction h with
  | stop => simp
  | item item _ ih => exact List.forall_mem_cons.mpr ⟨item.value_lt, ih⟩

-----------------------------------------------------------------------------------------
-- Decoding along a cut
-----------------------------------------------------------------------------------------

/-- The table of simple escapes is the one that a decoder goes by. -/
theorem lookup_simpleEscapes (c : Char) : simpleEscapes.lookup c = simpleEscape? c := by
  unfold simpleEscape?
  split
  case h_8 => simp_all [List.lookup_eq_none_iff, simpleEscapes]
  all_goals rfl

/-- The letter of a simple escape takes one byte, by the table. -/
theorem utf8Size_of_simpleEscape {letter denoted : Char}
    (known : simpleEscapes.lookup letter = some denoted)
    : letter.utf8Size = 1 := by
  have hall : ∀ entry ∈ simpleEscapes, entry.1.utf8Size = 1 := by decide
  obtain ⟨before, after, htable, -⟩ := List.lookup_eq_some_iff.mp known
  exact hall (letter, denoted) (by rw [htable]; simp)

/-- A decoder goes on behind an item with its character, or blames its value. -/
theorem decodeFrom_item {spelling : List Char} {value : Nat} (h : Item spelling value)
    (offset : Nat) (rest : List Char)
    : decodeFrom offset (spelling ++ rest)
      = if value.isValidChar then
          (decodeFrom (offset + utf8Length spelling) rest).map (Char.ofNat value :: ·)
        else
          .error (.invalidCodePoint value) := by
  cases h with
  | @plain c plain =>
      have hvalid : c.toNat.isValidChar := c.valid
      rw [if_pos hvalid, Char.ofNat_toNat, List.singleton_append, decodeFrom]
      · rfl
      · simp [plain]
      · simp [plain]
      · simp [plain]
  | @simple letter denoted known =>
      have hvalid : denoted.toNat.isValidChar := denoted.valid
      have hsize : utf8Length ['\\', letter] = 2 := by
        rw [utf8Length, utf8Length, utf8Size_of_simpleEscape known]
        rfl
      have hu : letter ≠ 'u' := by
        rintro rfl
        cases known
      rw [lookup_simpleEscapes] at known
      rw [if_pos hvalid, Char.ofNat_toNat, hsize, List.cons_append, List.singleton_append,
        decodeFrom]
      · rw [known]
      · exact hu
  | @codePoint digits value escape =>
      have hsize : utf8Length ('\\' :: 'u' :: digits) = 2 + digits.length := by
        rw [utf8Length, utf8Length, escape.utf8Length_digits, ← Nat.add_assoc]
        rfl
      rw [List.cons_append, List.cons_append, decodeFrom_codePoint escape, hsize, Nat.add_assoc]

/-- The spelling that a decoder reads, right or wrong, and what it leaves make up the text. -/
theorem codePoint_append (text : List Char)
    : (codePoint text).spelling ++ (codePoint text).rest = text := by
  unfold codePoint
  split
  · rename_i text
    have hwhole := List.takeWhile_append_dropWhile (p := isHexDigit) (l := text)
    dsimp only
    split
    · rename_i rest hdrop
      rw [hdrop] at hwhole
      split <;> simp [hwhole]
    · simp [hwhole]
  · exact (fourDigits_append _).symm

/-- What a decoder quotes of a wrong escape, after the backslash. -/
def quoted : List Char → List Char
  | [] => []
  | 'u' :: text => 'u' :: (codePoint text).spelling
  | c :: _ => [c]

theorem quoted_letter {c : Char} (hc : c ≠ 'u') (text : List Char) : quoted (c :: text) = [c] := by
  rw [quoted]
  exact hc

theorem quoted_begins (after : List Char) : quoted after <+: after := by
  cases after with
  | nil => exact List.nil_prefix
  | cons c text =>
      by_cases hu : c = 'u'
      · subst hu
        exact ⟨(codePoint text).rest, congrArg ('u' :: ·) (codePoint_append text)⟩
      · rw [quoted_letter hu]
        exact ⟨text, rfl⟩

/-- Where no item begins, a decoder knows no escape for one character. -/
theorem simpleEscape?_of_stuck {letter : Char} {text : List Char}
    (stuck
      : ∀ spelling value rest, Item spelling value → '\\' :: letter :: text ≠ spelling ++ rest)
    : simpleEscape? letter = none := by
  rw [← lookup_simpleEscapes]
  by_contra hsome
  obtain ⟨denoted, known⟩ := Option.ne_none_iff_exists'.mp hsome
  exact stuck _ _ text (.simple known) rfl

/-- Where no item begins, a decoder reads no code point. -/
theorem codePoint_of_stuck {text : List Char}
    (stuck : ∀ spelling value rest, Item spelling value → '\\' :: 'u' :: text ≠ spelling ++ rest)
    : (codePoint text).value = none := by
  by_contra hsome
  obtain ⟨value, hvalue⟩ := Option.ne_none_iff_exists'.mp hsome
  have hfound
      : codePoint text
        = {
            spelling := (codePoint text).spelling
            value := some value
            rest := (codePoint text).rest
          } := by
    rw [← hvalue]
  obtain ⟨escape, htext⟩ := escape_of_codePoint hfound
  exact stuck _ _ (codePoint text).rest (.codePoint escape) (congrArg ('\\' :: 'u' :: ·) htext)

/-- A decoder stops at a backslash that begins no item. -/
theorem decodeFrom_backslash {after : List Char}
    (stuck : ∀ spelling value rest, Item spelling value → '\\' :: after ≠ spelling ++ rest)
    (offset : Nat)
    : decodeFrom offset ('\\' :: after)
      = .error (.invalidEscape (String.ofList ('\\' :: quoted after)) offset) := by
  cases after with
  | nil => rw [decodeFrom, quoted]
  | cons letter text =>
      by_cases hu : letter = 'u'
      · subst hu
        rw [decodeFrom, codePoint_of_stuck stuck, quoted]
      · rw [decodeFrom, simpleEscape?_of_stuck stuck, quoted_letter hu]
        exact hu

/-- Where no item begins before the end, there is a backslash. -/
theorem backslash_of_stuck {rest : List Char} (hne : rest ≠ [])
    (stuck : ∀ spelling value after, Item spelling value → rest ≠ spelling ++ after)
    : ∃ after, rest = '\\' :: after := by
  obtain ⟨c, after, rfl⟩ := List.exists_cons_of_ne_nil hne
  obtain rfl : c = '\\' := by
    by_contra plain
    exact stuck _ _ after (.plain plain) rfl
  exact ⟨after, rfl⟩

/-- What a decoder makes of a text that it reads from `offset` on: of the values of the items in its
cut the first one that is no character's, or else the characters of all items, or else the wrong
escape where the cut stops, with the offset of its backslash.
-/
inductive Outcome (offset : Nat)
    : List Char → List Nat → List Char → Except LiteralError (List Char) → Prop
  | invalid {consumed rest : List Char} {before after : List Nat} {value : Nat}
    (valid : ∀ v ∈ before, v.isValidChar) (invalid : ¬ value.isValidChar)
    : Outcome offset consumed (before ++ value :: after) rest (.error (.invalidCodePoint value))
  | denoted {consumed : List Char} {values : List Nat} (valid : ∀ v ∈ values, v.isValidChar)
    : Outcome offset consumed values [] (.ok (values.map Char.ofNat))
  | stopped {consumed after spelling : List Char} {values : List Nat}
    (valid : ∀ v ∈ values, v.isValidChar) (wrong : spelling <+: after)
    : Outcome offset consumed values ('\\' :: after)
        (.error (.invalidEscape (String.ofList ('\\' :: spelling))
          (offset + utf8Length consumed)))

/-- The first item of a text decides its outcome, or it is that of the rest with its character. -/
theorem Outcome.item {spelling consumed rest : List Char} {value : Nat} {values : List Nat}
    {offset : Nat} {result : Except LiteralError (List Char)} (valid : value.isValidChar)
    (h : Outcome (offset + utf8Length spelling) consumed values rest result)
    : Outcome offset (spelling ++ consumed) (value :: values) rest
        (result.map (Char.ofNat value :: ·)) := by
  cases h with
  | invalid validMore invalid =>
      exact .invalid (List.forall_mem_cons.mpr ⟨valid, validMore⟩) invalid
  | denoted validMore => exact .denoted (List.forall_mem_cons.mpr ⟨valid, validMore⟩)
  | stopped validMore wrong =>
      rw [Nat.add_assoc, ← utf8Length_append]
      exact .stopped (List.forall_mem_cons.mpr ⟨valid, validMore⟩) wrong

/-- A decoder follows the cut of the text, by induction on it. -/
theorem Cut.decodeFrom {consumed rest : List Char} {values : List Nat}
    (h : Cut consumed values rest) (offset : Nat)
    : Outcome offset consumed values rest (decodeFrom offset (consumed ++ rest)) := by
  induction h generalizing offset with
  | @stop rest stuck =>
      by_cases hne : rest = []
      · subst hne
        rw [List.nil_append, Literal.decodeFrom]
        exact .denoted (by simp)
      · obtain ⟨after, rfl⟩ := backslash_of_stuck hne stuck
        rw [List.nil_append, decodeFrom_backslash stuck]
        exact .stopped (by simp) (quoted_begins after)
  | @item spelling consumed rest value values item _ ih =>
      rw [List.append_assoc, decodeFrom_item item]
      split
      · rename_i valid
        exact (ih _).item valid
      · rename_i invalid
        rw [← List.nil_append (value :: values)]
        exact .invalid (by simp) invalid

end GrammarFrontend.Literal
