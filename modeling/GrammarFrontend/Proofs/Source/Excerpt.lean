import GrammarFrontend.Source.Position

/-! The text of a span. Offsets count bytes, so a span cuts a text only where two characters meet;
between two places that were reached by moving over a text stands what was moved over.
-/

namespace GrammarFrontend

/-- What is left of a text after its first `n` bytes, if these are whole characters. -/
def textFrom? : (n : Nat) → List Char → Option (List Char)
  | 0, text => some text
  | _ + 1, [] => none
  | n + 1, c :: text =>
      if c.utf8Size ≤ n + 1 then textFrom? (n + 1 - c.utf8Size) text else none

/-- The first `n` bytes of a text, if these are whole characters. -/
def textUpTo? : (n : Nat) → List Char → Option (List Char)
  | 0, _ => some []
  | _ + 1, [] => none
  | n + 1, c :: text =>
      if c.utf8Size ≤ n + 1 then (textUpTo? (n + 1 - c.utf8Size) text).map (c :: ·) else none

/-- The text of a span of a source, cut out by the offsets at its ends. -/
def Span.textIn? (s : Span) (source : List Char) : Option (List Char) :=
  if s.start.offset ≤ s.stop.offset then
    (textFrom? s.start.offset source).bind (textUpTo? (s.stop.offset - s.start.offset))
  else
    none

/-- A text that is not empty takes some bytes. -/
theorem utf8Length_pos {text : List Char} (h : text ≠ []) : 0 < utf8Length text := by
  cases text with
  | nil => exact absurd rfl h
  | cons c text => exact Nat.add_pos_left c.utf8Size_pos _

/-- The bytes of one part of a text lead to the part after it, by induction on the first part. -/
theorem textFrom?_append (first rest : List Char)
    : textFrom? (utf8Length first) (first ++ rest) = some rest := by
  induction first with
  | nil => simp [utf8Length, textFrom?]
  | cons c first ih =>
      have hpos := c.utf8Size_pos
      obtain ⟨n, hn⟩ : ∃ n, utf8Length (c :: first) = n + 1 :=
        Nat.exists_eq_add_one.mpr (utf8Length_pos (List.cons_ne_nil c first))
      have hlen : utf8Length (c :: first) = c.utf8Size + utf8Length first := rfl
      rw [List.cons_append, hn, textFrom?, if_pos (by omega)]
      rw [show n + 1 - c.utf8Size = utf8Length first by omega]
      exact ih

/-- The bytes of the front of a text cut out the front, by induction on it. -/
theorem textUpTo?_append (first rest : List Char)
    : textUpTo? (utf8Length first) (first ++ rest) = some first := by
  induction first with
  | nil => cases rest <;> rfl
  | cons c first ih =>
      have hpos := c.utf8Size_pos
      obtain ⟨n, hn⟩ : ∃ n, utf8Length (c :: first) = n + 1 :=
        Nat.exists_eq_add_one.mpr (utf8Length_pos (List.cons_ne_nil c first))
      have hlen : utf8Length (c :: first) = c.utf8Size + utf8Length first := rfl
      rw [List.cons_append, hn, textUpTo?, if_pos (by omega)]
      rw [show n + 1 - c.utf8Size = utf8Length first by omega, ih]
      rfl

/-- The text between two places of a source is the text of their span. -/
theorem Span.textIn?_of_split {source before text after : List Char} {s : Span}
    (hsource : source = before ++ (text ++ after))
    (hstart : s.start.offset = utf8Length before)
    (hstop : s.stop.offset = utf8Length before + utf8Length text)
    : s.textIn? source = some text := by
  have hle : s.start.offset ≤ s.stop.offset := by omega
  have hlen : s.stop.offset - s.start.offset = utf8Length text := by omega
  rw [Span.textIn?, if_pos hle, hlen, hstart, hsource, textFrom?_append, Option.bind_some,
    textUpTo?_append]

end GrammarFrontend
