import GrammarFrontend.Proofs.Source.Excerpt
import GrammarFrontend.Source.Cursor
import Mathlib.Data.List.Induction
import Mathlib.Logic.Function.Iterate

/-! Where a cursor can get to. Whatever moves are made with it, it stands between two characters of
its source, and its position is that of the text before it: line and column do not depend on the way
that led there. So an offset can be sought from anywhere, and it is found exactly if a character
begins or the source ends there.
-/

namespace GrammarFrontend

-----------------------------------------------------------------------------------------
-- Places in a source
-----------------------------------------------------------------------------------------

/-- The place behind a text: line feeds are counted for the line, and the characters behind the last
one for the column.
-/
def Position.behind (text : List Char) : Position :=
  {
    line := 1 + text.count '\n'
    column := 1 + (text.reverse.takeWhile (· != '\n')).length
    offset := utf8Length text
  }

/-- Moving over a text leads behind it, by induction on the text from its end. -/
theorem Position.start_advanceOver (text : List Char)
    : Position.start.advanceOver text = .behind text := by
  induction text using List.reverseRecOn with
  | nil => rfl
  | append_singleton text c ih =>
      rw [advanceOver_append, ih, advanceOver_cons, advanceOver_nil, advance]
      by_cases hc : c = '\n'
      · simp [behind, hc, utf8Length, Nat.add_assoc]
      · simp [behind, hc, utf8Length, Nat.add_comm]

theorem Position.behind_advanceOver (first second : List Char)
    : (behind first).advanceOver second = behind (first ++ second) := by
  rw [← start_advanceOver, ← start_advanceOver, advanceOver_append]

/-- An offset at which a character begins or the text ends. -/
def IsBoundary (text : List Char) (offset : Nat) : Prop :=
  ∃ before rest, text = before ++ rest ∧ utf8Length before = offset

/-- An offset is on a boundary if the bytes up to it are whole characters, by the recursion of
`isCharBoundary`.
-/
theorem isCharBoundary_iff (text : List Char) (offset : Nat)
    : isCharBoundary text offset = true ↔ IsBoundary text offset := by
  fun_induction isCharBoundary text offset with
  | case1 text => exact iff_of_true rfl ⟨[], text, rfl, rfl⟩
  | case2 n =>
      refine iff_of_false Bool.false_ne_true ?_
      rintro ⟨before, rest, htext, hlength⟩
      obtain ⟨rfl, -⟩ := List.append_eq_nil_iff.mp htext.symm
      cases hlength
  | case3 c text n ih =>
      rw [Bool.and_eq_true, decide_eq_true_iff, ih]
      constructor
      · rintro ⟨hsize, before, rest, rfl, hlength⟩
        refine ⟨c :: before, rest, rfl, ?_⟩
        rw [utf8Length, hlength]
        omega
      · rintro ⟨before, rest, htext, hlength⟩
        cases before with
        | nil => cases hlength
        | cons d before =>
            obtain ⟨rfl, rfl⟩ := List.cons.inj htext
            rw [utf8Length] at hlength
            exact ⟨by omega, before, rest, rfl, by omega⟩

/-- The cursor stands in the source behind `before`. -/
def Cursor.StandsIn (c : Cursor) (source before : List Char) : Prop :=
  source = before ++ c.rest ∧ c.position = Position.start.advanceOver before

theorem textBefore_nil (text : List Char) : textBefore text [] = text := by
  have happ := textBefore_append text []
  rwa [List.append_nil] at happ

theorem textBefore_dropWhile (p : Char → Bool) (text : List Char)
    : textBefore text (text.dropWhile p) = text.takeWhile p := by
  have happ := textBefore_append (text.takeWhile p) (text.dropWhile p)
  rwa [List.takeWhile_append_dropWhile] at happ

/-- Of two cuts of a text, what lies between them is what the later one has more before it. -/
theorem exists_between {first rest second more : List Char} (h : first ++ rest = second ++ more)
    (hle : utf8Length first ≤ utf8Length second)
    : ∃ between, second = first ++ between ∧ rest = between ++ more := by
  rcases List.append_eq_append_iff.mp h with ⟨between, hsecond, hrest⟩ | ⟨between, hfirst, hmore⟩
  · exact ⟨between, hsecond, hrest⟩
  · have hnil : between = [] := by
      by_contra hne
      have hpos := utf8Length_pos hne
      rw [hfirst, utf8Length_append] at hle
      omega
    subst hnil
    exact ⟨[], by simp [hfirst], by simp [hmore]⟩

-----------------------------------------------------------------------------------------
-- Single moves
-----------------------------------------------------------------------------------------

namespace Cursor

/-- Going forward stops exactly behind a text of whole characters, by induction on the text. -/
theorem forward_exact (front rest : List Char) (p : Position)
    : forward (p.offset + utf8Length front) (front ++ rest) p
      = { rest, position := p.advanceOver front } := by
  induction front generalizing p with
  | nil => cases rest <;> simp [forward, utf8Length]
  | cons c front ih =>
      have hpos := c.utf8Size_pos
      have hlt : p.offset < p.offset + utf8Length (c :: front) := by
        rw [utf8Length]
        omega
      have htarget
          : p.offset + utf8Length (c :: front) = (p.advance c).offset + utf8Length front := by
        rw [Position.advance_offset, utf8Length, Nat.add_assoc]
      rw [List.cons_append, forward, if_pos hlt, htarget, ih, Position.advanceOver_cons]

theorem advance_of_nil {c : Cursor} (h : c.rest = []) : c.advance = c := by
  rw [advance, h]

theorem advance_of_cons {c : Cursor} {next : Char} {rest : List Char} (h : c.rest = next :: rest)
    : c.advance = { c with rest, position := c.position.advance next } := by
  rw [advance, h]

theorem advance_rest (c : Cursor) : c.advance.rest = c.rest.tail := by
  cases hrest : c.rest with
  | nil => rw [advance_of_nil hrest, hrest, List.tail_nil]
  | cons next rest => rw [advance_of_cons hrest, List.tail_cons]

theorem advance_eq {c : Cursor} {next : Char} {rest : List Char} (h : c.rest = next :: rest)
    : c.advance = c.advanceOver [next] := by
  rw [advance_of_cons h, advanceOver, h]
  rfl

theorem peek_zero (c : Cursor) : c.peek 0 = c.rest.head? := List.head?_eq_getElem?.symm

theorem rest_of_peek {c : Cursor} {next : Char} (h : c.peek 0 = some next)
    : ∃ rest, c.rest = next :: rest := by
  rw [peek_zero] at h
  exact List.head?_eq_some_iff.mp h

theorem rest_of_peek_none {c : Cursor} (h : c.peek 0 = none) : c.rest = [] := by
  rw [peek_zero] at h
  exact List.head?_eq_none_iff.mp h

theorem advance_length_lt {c : Cursor} {next : Char} (h : c.peek 0 = some next)
    : c.advance.rest.length < c.rest.length := by
  obtain ⟨rest, hrest⟩ := rest_of_peek h
  rw [advance_rest, hrest]
  exact Nat.lt_succ_self _

theorem advanceOver_advanceOver (c : Cursor) (first second : List Char)
    : (c.advanceOver first).advanceOver second = c.advanceOver (first ++ second) := by
  simp only [advanceOver, List.drop_drop, List.length_append, Position.advanceOver_append]

theorem advanceOver_rest {c : Cursor} {text rest : List Char} (h : c.rest = text ++ rest)
    : (c.advanceOver text).rest = rest := by
  rw [advanceOver, h, List.drop_left]

/-- Looking ahead shows what advancing as often would bring to the front, by induction on the number
of characters to look over.
-/
theorem peek_eq_iterate (c : Cursor) (k : Nat) : c.peek k = (advance^[k] c).peek 0 := by
  induction k generalizing c with
  | zero => rfl
  | succ k ih =>
      rw [Function.iterate_succ_apply, ← ih]
      cases h : c.rest with
      | nil => rw [advance_of_nil h, peek, peek, h, List.getElem?_nil, List.getElem?_nil]
      | cons next rest => rw [advance_of_cons h, peek, peek, h, List.getElem?_cons_succ]

/-- Accepts the characters of a text one by one, up to the first that is not there. -/
def acceptEach (c : Cursor) : List Char → Bool × Cursor
  | [] => (true, c)
  | next :: text => if c.peek 0 = some next then c.advance.acceptEach text else (false, c)

/-- Characters that all are there are accepted one by one, by induction on them. -/
theorem acceptEach_append {c : Cursor} {text rest : List Char} (h : c.rest = text ++ rest)
    : c.acceptEach text = (true, c.advanceOver text) := by
  induction text generalizing c with
  | nil =>
      obtain rfl : c.rest = rest := h
      rfl
  | cons next text ih =>
      have hpeek : c.peek 0 = some next := by rw [peek_zero, h]; rfl
      have hadvance := advance_of_cons h
      have hrest : c.advance.rest = text ++ rest := by rw [hadvance]; rfl
      rw [acceptEach, if_pos hpeek, ih hrest, hadvance]
      simp [advanceOver, h]

/-- If characters are accepted one by one, they all are there, by induction on them. -/
theorem prefix_of_acceptEach {c : Cursor} {text : List Char} (h : (c.acceptEach text).1 = true)
    : text <+: c.rest := by
  induction text generalizing c with
  | nil => exact List.nil_prefix
  | cons next text ih =>
      rw [acceptEach] at h
      split at h
      · rename_i hpeek
        obtain ⟨rest, hrest⟩ := rest_of_peek hpeek
        rw [advance_of_cons hrest] at h
        rw [hrest]
        exact (List.prefix_cons_inj next).mpr (ih h)
      · cases h

/-- A text is accepted exactly if its characters would be one by one, and leads to the same place;
otherwise the cursor stays where it is.
-/
theorem accept_eq (c : Cursor) (text : List Char)
    : c.accept text = if (c.acceptEach text).1 then c.acceptEach text else (false, c) := by
  by_cases ahead : text <+: c.rest
  · obtain ⟨rest, hrest⟩ := ahead
    have hstarts : c.startsWith text = true := by simp [startsWith, ← hrest]
    rw [acceptEach_append hrest.symm, accept, if_pos hstarts]
    rfl
  · have hstarts : c.startsWith text = false := by
      rw [startsWith, Bool.eq_false_iff]
      exact fun h => ahead (List.isPrefixOf_iff_prefix.mp h)
    have heach : ¬ (c.acceptEach text).1 = true := fun h => ahead (prefix_of_acceptEach h)
    rw [if_neg heach, accept, hstarts]
    rfl

-----------------------------------------------------------------------------------------
-- Cursors of a source
-----------------------------------------------------------------------------------------

end Cursor

/-- The mark is of a place in the source. -/
def Mark.IsIn (m : Mark) (source : List Char) : Prop :=
  ∃ before, source = before ++ m.rest ∧ m.position = Position.start.advanceOver before

namespace Cursor

/-- The cursor was made for the source and stands at one of its places. -/
structure IsIn (c : Cursor) (source : List Char) : Prop where
  source_eq : c.source = source
  place : c.mark.IsIn source

theorem isIn_ofText (source : List Char) : (ofText source).IsIn source :=
  { source_eq := rfl, place := ⟨[], rfl, rfl⟩ }

variable {c : Cursor} {source : List Char}

/-- Moving over a text at the front leads to a place in the source. -/
theorem IsIn.over (h : c.IsIn source) {front rest : List Char} (hrest : c.rest = front ++ rest)
    : IsIn { c with rest, position := c.position.advanceOver front } source := by
  obtain ⟨before, hsource, hposition⟩ := h.place
  refine { source_eq := h.source_eq, place := ⟨before ++ front, ?_, ?_⟩ }
  · rw [hsource, List.append_assoc]
    exact congrArg (before ++ ·) hrest
  · rw [Position.advanceOver_append, ← hposition]
    rfl

theorem IsIn.rewind (h : c.IsIn source) {m : Mark} (hm : m.IsIn source)
    : (c.rewind m).IsIn source :=
  { source_eq := h.source_eq, place := hm }

theorem IsIn.advance (h : c.IsIn source) : c.advance.IsIn source := by
  cases hrest : c.rest with
  | nil => rwa [advance_of_nil hrest]
  | cons next rest =>
      have hfront : c.rest = [next] ++ rest := hrest
      rw [advance_of_cons hrest]
      exact h.over hfront

theorem IsIn.advanceOver (h : c.IsIn source) {front : List Char} (ahead : front <+: c.rest)
    : (c.advanceOver front).IsIn source := by
  obtain ⟨rest, hrest⟩ := ahead
  rw [Cursor.advanceOver, ← hrest, List.drop_left]
  exact h.over hrest.symm

theorem IsIn.advanceWhile (h : c.IsIn source) (p : Char → Bool) : (c.advanceWhile p).2.IsIn source :=
  h.advanceOver (List.takeWhile_prefix p)

theorem IsIn.accept (h : c.IsIn source) (text : List Char) : (c.accept text).2.IsIn source := by
  rw [Cursor.accept]
  split
  · rename_i hstarts
    exact h.advanceOver (by simpa [startsWith] using hstarts)
  · exact h

/-- A cursor of a source has the place behind what it has passed. -/
theorem IsIn.exists_passed (h : c.IsIn source)
    : ∃ passed,
        source = passed ++ c.rest
        ∧ utf8Length passed = c.offset
        ∧ c.position = .behind passed := by
  obtain ⟨passed, hsource, hposition⟩ := h.place
  have hbehind : c.position = .behind passed :=
    hposition.trans (Position.start_advanceOver passed)
  exact ⟨passed, hsource, (congrArg Position.offset hbehind).symm, hbehind⟩

/-- Nothing is left to read exactly at the last offset. -/
theorem IsIn.rest_eq_nil_iff (h : c.IsIn source) : c.rest = [] ↔ c.offset = utf8Length source := by
  obtain ⟨passed, hsource, hoffset, -⟩ := h.exists_passed
  have hlength : utf8Length source = c.offset + utf8Length c.rest := by
    rw [hsource, utf8Length_append, hoffset]
  constructor
  · intro hrest
    rw [hlength, hrest]
    rfl
  · intro hend
    by_contra hne
    have hpos := utf8Length_pos hne
    omega

/-- An offset behind whole characters is found from everywhere: on the way from the start of the
source, or from a place that is not further on.
-/
theorem IsIn.seek_eq_ok (h : c.IsIn source) {before rest : List Char}
    (hsource : source = before ++ rest)
    : c.seek (utf8Length before) = .ok { source, rest, position := .behind before } := by
  obtain ⟨passed, hpassed, hoffset, hposition⟩ := h.exists_passed
  have hin : ¬ utf8Length c.source < utf8Length before := by
    rw [h.source_eq, hsource, utf8Length_append]
    omega
  have hboundary : isCharBoundary c.source (utf8Length before) = true := by
    rw [isCharBoundary_iff, h.source_eq]
    exact ⟨before, rest, hsource, rfl⟩
  have hrewind (m : Mark) (hm : m = { rest, position := .behind before })
      : (Except.ok (c.rewind m) : Except SeekError Cursor)
        = .ok { source, rest, position := .behind before } := by
    rw [hm, ← h.source_eq]
    rfl
  rw [seek, if_neg hin, hboundary, Bool.not_true, if_neg Bool.false_ne_true]
  split
  · have hexact := forward_exact before rest .start
    rw [show Position.start.offset = 0 from rfl, Nat.zero_add] at hexact
    refine hrewind _ ?_
    rw [h.source_eq, hsource, hexact, Position.start_advanceOver]
  · rename_i hle
    rw [Nat.not_lt, ← hoffset] at hle
    obtain ⟨between, rfl, hrest⟩ := exists_between (hpassed.symm.trans hsource) hle
    have htarget : utf8Length (passed ++ between) = c.position.offset + utf8Length between := by
      rw [utf8Length_append, hoffset]
      rfl
    refine hrewind _ ?_
    rw [htarget, hrest, forward_exact, hposition, Position.behind_advanceOver]

/-- An offset behind the end of the source is not found. -/
theorem IsIn.seek_of_pastEnd (h : c.IsIn source) {target : Nat} (past : utf8Length source < target)
    : c.seek target = .error (.outOfBounds target (utf8Length source)) := by
  rw [seek, h.source_eq, if_pos past]

/-- An offset inside of a character is not found. -/
theorem IsIn.seek_of_inside (h : c.IsIn source) {target : Nat} (hle : target ≤ utf8Length source)
    (inside : ¬ IsBoundary source target)
    : c.seek target = .error (.notCharBoundary target) := by
  have hboundary : isCharBoundary source target = false := by
    rwa [Bool.eq_false_iff, ne_eq, isCharBoundary_iff]
  rw [seek, h.source_eq, if_neg (Nat.not_lt.mpr hle), hboundary]
  rfl

/-- A cursor that was moved to an offset stands in the source. -/
theorem IsIn.seek (h : c.IsIn source) {target : Nat} {d : Cursor} (hd : c.seek target = .ok d)
    : d.IsIn source := by
  by_cases hboundary : IsBoundary source target
  · obtain ⟨before, rest, hsource, rfl⟩ := hboundary
    rw [h.seek_eq_ok hsource] at hd
    obtain rfl := Except.ok.inj hd
    exact { source_eq := rfl, place := ⟨before, hsource, (Position.start_advanceOver before).symm⟩ }
  · rcases Nat.lt_or_ge (utf8Length source) target with past | hle
    · rw [h.seek_of_pastEnd past] at hd
      cases hd
    · rw [h.seek_of_inside hle hboundary] at hd
      cases hd

end Cursor

-----------------------------------------------------------------------------------------
-- Moves one after another
-----------------------------------------------------------------------------------------

/-- What a caller does with a cursor. Marks are numbered in the order in which they are taken. -/
inductive Move where
  | advance
  | advanceWhile (p : Char → Bool)
  | acceptChar (c : Char)
  | accept (text : List Char)
  | mark
  | rewind (number : Nat)
  | seek (target : Nat)

/-- A cursor in use, with the marks that were taken on it. -/
structure MarkedCursor where
  cursor : Cursor
  marks : List Mark

namespace MarkedCursor

def ofText (source : List Char) : MarkedCursor := { cursor := .ofText source, marks := [] }

def withCursor (c : MarkedCursor) (cursor : Cursor) : MarkedCursor := { c with cursor }

/-- Makes a move. A seek that fails moves nothing, and there is no way back to a mark that was never
taken.
-/
def move (c : MarkedCursor) : Move → MarkedCursor
  | .advance => c.withCursor c.cursor.advance
  | .advanceWhile p => c.withCursor (c.cursor.advanceWhile p).2
  | .acceptChar x => c.withCursor (c.cursor.accept [x]).2
  | .accept text => c.withCursor (c.cursor.accept text).2
  | .mark => { c with marks := c.marks ++ [c.cursor.mark] }
  | .rewind number => c.withCursor ((c.marks[number]?.map c.cursor.rewind).getD c.cursor)
  | .seek target => c.withCursor ((c.cursor.seek target).toOption.getD c.cursor)

def moveAll (c : MarkedCursor) (moves : List Move) : MarkedCursor := moves.foldl move c

/-- The cursor and all marks are of places in the source. -/
structure IsIn (c : MarkedCursor) (source : List Char) : Prop where
  cursor : c.cursor.IsIn source
  marks : ∀ m ∈ c.marks, m.IsIn source

/-- No move leaves the source, by cases on the moves. -/
theorem IsIn.move {c : MarkedCursor} {source : List Char} (h : c.IsIn source) (m : Move)
    : (c.move m).IsIn source := by
  cases m with
  | advance => exact { h with cursor := h.cursor.advance }
  | advanceWhile p => exact { h with cursor := h.cursor.advanceWhile p }
  | acceptChar x => exact { h with cursor := h.cursor.accept [x] }
  | accept text => exact { h with cursor := h.cursor.accept text }
  | mark =>
      refine { h with marks := ?_ }
      intro m hm
      rcases List.mem_append.mp hm with hm | hm
      · exact h.marks m hm
      · obtain rfl := List.mem_singleton.mp hm
        exact h.cursor.place
  | rewind number =>
      refine { h with cursor := ?_ }
      change ((c.marks[number]?.map c.cursor.rewind).getD c.cursor).IsIn source
      cases hm : c.marks[number]? with
      | none => exact h.cursor
      | some m => exact h.cursor.rewind (h.marks m (List.mem_of_getElem? hm))
  | seek target =>
      refine { h with cursor := ?_ }
      change ((c.cursor.seek target).toOption.getD c.cursor).IsIn source
      cases hd : c.cursor.seek target with
      | error e => exact h.cursor
      | ok d => exact h.cursor.seek hd

/-- No moves leave the source, by induction on them. -/
theorem IsIn.moveAll {c : MarkedCursor} {source : List Char} (h : c.IsIn source)
    (moves : List Move)
    : (c.moveAll moves).IsIn source := by
  induction moves generalizing c with
  | nil => exact h
  | cons m moves ih => exact ih (h.move m)

theorem isIn_ofText (source : List Char) : (ofText source).IsIn source := by
  refine { cursor := Cursor.isIn_ofText source, marks := ?_ }
  intro m hm
  cases hm

end MarkedCursor

/-- All that a cursor of a source can be relied on for, wherever it stands: its place is the one
behind the text before it; looking ahead is advancing; a text is accepted like its characters one by
one; and seeking finds every boundary, from everywhere at the same place, and nothing else.
-/
structure Cursor.Reliable (c : Cursor) (source : List Char) : Prop where
  place
    : ∃ before,
        source = before ++ c.rest
        ∧ utf8Length before = c.offset
        ∧ c.position = .behind before
  peek : ∀ k, c.peek k = (advance^[k] c).peek 0
  accept : ∀ text, c.accept text = if (c.acceptEach text).1 then c.acceptEach text else (false, c)
  found
    : ∀ before rest,
        source = before ++ rest
        → c.seek (utf8Length before) = .ok { source, rest, position := .behind before }
  pastEnd
    : ∀ target,
        utf8Length source < target
        → c.seek target = .error (.outOfBounds target (utf8Length source))
  inside
    : ∀ target,
        target ≤ utf8Length source
        → ¬ IsBoundary source target
        → c.seek target = .error (.notCharBoundary target)

/-- Whatever moves are made, the cursor is reliable, and a seek that fails is no move. -/
theorem MarkedCursor.moveAll_reliable (source : List Char) (moves : List Move)
    : let c := (ofText source).moveAll moves
      c.cursor.Reliable source
      ∧ ∀ target e, c.cursor.seek target = .error e → c.move (.seek target) = c := by
  intro c
  have h : c.IsIn source := (isIn_ofText source).moveAll moves
  refine ⟨?_, ?_⟩
  · constructor
    case place => exact h.cursor.exists_passed
    case peek => exact c.cursor.peek_eq_iterate
    case accept => exact c.cursor.accept_eq
    case found => exact fun before rest hsource => h.cursor.seek_eq_ok hsource
    case pastEnd => exact fun target past => h.cursor.seek_of_pastEnd past
    case inside => exact fun target hle inside => h.cursor.seek_of_inside hle inside
  · intro target e he
    rw [move, he]
    rfl

/-- Behind a character of two bytes and a line feed, seeking into that character moves nothing, and
seeking back to the start of the line finds the position that was passed.
-/
theorem MarkedCursor.moveAll_reliable_twoBytes
    : let source := ['é', '\n', 'b']
      let c := (ofText source).moveAll
        [.advance, .mark, .acceptChar '\n', .seek 9, .rewind 0, .accept ['\n', 'b']]
      c.cursor.position = { line := 2, column := 2, offset := 4 }
      ∧ c.cursor.seek 1 = .error (.notCharBoundary 1)
      ∧ c.move (.seek 1) = c
      ∧ c.cursor.seek 3
        = .ok { source, rest := ['b'], position := { line := 2, column := 1, offset := 3 } } := by
  intro source c
  obtain ⟨reliable, failing⟩ := moveAll_reliable source
    [.advance, .mark, .acceptChar '\n', .seek 9, .rewind 0, .accept ['\n', 'b']]
  have inside : ¬ IsBoundary source 1 := by
    rw [← isCharBoundary_iff]
    decide
  have herror := reliable.inside 1 (by decide) inside
  exact ⟨rfl, herror, failing 1 _ herror, reliable.found ['é', '\n'] ['b'] rfl⟩

end GrammarFrontend
