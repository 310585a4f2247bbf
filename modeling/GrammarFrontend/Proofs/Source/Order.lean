import GrammarFrontend.Proofs.Source.Excerpt

/-! The order of positions. They compare by line first, then by column and by offset, while texts
are cut out and merged by offsets alone. Along a text both orders are the order in which its
characters stand: a line feed lowers the column only where it raises the line.
-/

namespace GrammarFrontend

/-- The bytes of a text are those of its encoding, by induction on the text. -/
theorem utf8Length_eq (text : List Char) : utf8Length text = (String.ofList text).utf8ByteSize := by
  induction text with
  | nil => rfl
  | cons c text ih =>
      rw [utf8Length, ih, String.ofList_cons, String.utf8ByteSize_append,
        String.utf8ByteSize_singleton]

theorem utf8Length_eq_zero_iff {text : List Char} : utf8Length text = 0 ↔ text = [] := by
  constructor
  · intro hzero
    cases text with
    | nil => rfl
    | cons c text => exact absurd hzero (Nat.ne_of_gt (utf8Length_pos (List.cons_ne_nil c text)))
  · intro hnil
    rw [hnil]
    rfl

namespace Position

/-- A place is on an earlier line, or further left on the same one. -/
def Precedes (p q : Position) : Prop :=
  p.line < q.line ∨ p.line = q.line ∧ p.column < q.column

theorem Precedes.trans {p q r : Position} (hl : p.Precedes q) (hr : q.Precedes r)
    : p.Precedes r := by
  unfold Precedes at *
  omega

/-- One character leads on: a line feed to the next line, any other to the next column. -/
theorem precedes_advance (p : Position) (c : Char) : p.Precedes (p.advance c) := by
  rw [advance]
  split
  · exact .inl (Nat.lt_succ_self p.line)
  · exact .inr ⟨rfl, Nat.lt_succ_self p.column⟩

/-- A text that is not empty leads on, by induction on it. -/
theorem precedes_advanceOver (p : Position) {text : List Char} (h : text ≠ [])
    : p.Precedes (p.advanceOver text) := by
  induction text generalizing p with
  | nil => exact absurd rfl h
  | cons c text ih =>
      have first := p.precedes_advance c
      by_cases hnil : text = []
      · subst hnil
        exact first
      · exact first.trans (ih (p.advance c) hnil)

theorem compare_def (p q : Position)
    : compare p q
      = (compare p.line q.line).then
          ((compare p.column q.column).then (compare p.offset q.offset)) :=
  rfl

/-- Where one place precedes the other, line and column alone decide. -/
theorem Precedes.compare_eq {p q : Position} (h : p.Precedes q)
    : compare p q = .lt ∧ compare q p = .gt := by
  rw [compare_def, compare_def]
  rcases h with hline | ⟨hline, hcolumn⟩
  · rw [Nat.compare_eq_lt.mpr hline, Nat.compare_eq_gt.mpr hline]
    exact ⟨rfl, rfl⟩
  · rw [hline, Nat.compare_eq_eq.mpr rfl, Nat.compare_eq_lt.mpr hcolumn,
      Nat.compare_eq_gt.mpr hcolumn]
    exact ⟨rfl, rfl⟩

theorem offset_lt_advanceOver (p : Position) {text : List Char} (h : text ≠ [])
    : p.offset < (p.advanceOver text).offset := by
  rw [advanceOver_offset]
  exact Nat.lt_add_of_pos_right (utf8Length_pos h)

/-- Two places compare as their offsets do, and are one place if they have one offset. -/
structure InStep (p q : Position) : Prop where
  order : compare p q = compare p.offset q.offset
  same : p = q ↔ p.offset = q.offset

theorem InStep.refl (p : Position) : p.InStep p := by
  refine { order := ?_, same := iff_of_true rfl rfl }
  rw [compare_def, Std.compare_self, Std.compare_self]
  rfl

/-- The ends of a text are in step, from either end: an empty one leads nowhere, and any other leads
on both in the lines and columns and in the offsets.
-/
theorem inStep_advanceOver (p : Position) (text : List Char)
    : p.InStep (p.advanceOver text) ∧ (p.advanceOver text).InStep p := by
  by_cases hnil : text = []
  · subst hnil
    exact ⟨.refl p, .refl p⟩
  · have hoffset := p.offset_lt_advanceOver hnil
    obtain ⟨hlt, hgt⟩ := (p.precedes_advanceOver hnil).compare_eq
    have hne : p ≠ p.advanceOver text := by
      intro he
      exact Nat.ne_of_lt hoffset (congrArg offset he)
    constructor
    · refine { order := ?_, same := iff_of_false hne (Nat.ne_of_lt hoffset) }
      rw [hlt, Nat.compare_eq_lt.mpr hoffset]
    · refine { order := ?_, same := iff_of_false hne.symm (Nat.ne_of_gt hoffset) }
      rw [hgt, Nat.compare_eq_gt.mpr hoffset]

/-- Of two fronts of one text, one goes on from the other. -/
theorem inStep_of_prefixes (start : Position) {text first second : List Char}
    (hf : first <+: text) (hs : second <+: text)
    : (start.advanceOver first).InStep (start.advanceOver second) := by
  rcases List.prefix_or_prefix_of_prefix hf hs with ⟨between, rfl⟩ | ⟨between, rfl⟩
  · rw [advanceOver_append]
    exact (inStep_advanceOver _ between).1
  · rw [advanceOver_append]
    exact (inStep_advanceOver _ between).2

/-- The span of a text that is moved over has the length of the text. -/
theorem span_length (p : Position) (text : List Char)
    : ({ start := p, stop := p.advanceOver text } : Span).length = utf8Length text := by
  have hoffset := p.advanceOver_offset text
  have hle : p.offset ≤ (p.advanceOver text).offset := by omega
  rw [Span.length, if_pos hle, hoffset, Nat.add_sub_cancel_left]

/-- Wherever a text starts, two places in it come in the order of their offsets. The span from an
earlier one to a later one does not run backwards, and its length is that of the encoding of the
text in between.
-/
theorem order_is_source_order (start : Position) (text first second : List Char)
    (hf : first <+: text) (hs : second <+: text)
    : let p := start.advanceOver first
      let q := start.advanceOver second
      p.InStep q
      ∧ ∀ between,
          second = first ++ between
          → let span : Span := { start := p, stop := q }
            (compare span.start span.stop).isLE = true
            ∧ span.length = (String.ofList between).utf8ByteSize
            ∧ (span.isEmpty = true ↔ between = []) := by
  intro p q
  have inStep : p.InStep q := start.inStep_of_prefixes hf hs
  refine ⟨inStep, ?_⟩
  intro between hbetween span
  have hq : q = p.advanceOver between := by rw [← advanceOver_append, ← hbetween]
  have hlength : span.length = utf8Length between := by rw [← span_length p between, ← hq]
  refine ⟨?_, ?_, ?_⟩
  · have hle : p.offset ≤ q.offset := by
      rw [hq, p.advanceOver_offset between]
      exact Nat.le_add_right _ _
    rw [inStep.order]
    exact Nat.isLE_compare.mpr hle
  · rw [hlength, utf8Length_eq]
  · rw [Span.isEmpty, hlength, beq_iff_eq, utf8Length_eq_zero_iff]

/-- From a place within a text on, a line feed takes the column back to the first one, but not the
position.
-/
theorem order_is_source_order_lineFeed
    : let start : Position := { line := 3, column := 7, offset := 40 }
      let text := ['é', '\n', 'b', ';']
      let p := start.advanceOver ['é']
      let q := start.advanceOver ['é', '\n', 'b']
      ['é'] <+: text
      ∧ ['é', '\n', 'b'] <+: text
      ∧ p = { line := 3, column := 8, offset := 42 }
      ∧ q = { line := 4, column := 2, offset := 44 }
      ∧ compare p q = compare 42 44
      ∧ ({ start := p, stop := q } : Span).length = "\nb".utf8ByteSize := by
  intro start text p q
  have hf : ['é'] <+: text := ⟨_, rfl⟩
  have hs : ['é', '\n', 'b'] <+: text := ⟨_, rfl⟩
  obtain ⟨inStep, spans⟩ := order_is_source_order start text _ _ hf hs
  exact ⟨hf, hs, rfl, rfl, inStep.order, (spans ['\n', 'b'] rfl).2.1⟩

end Position

end GrammarFrontend
