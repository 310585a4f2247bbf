import GrammarFrontend.Proofs.Lexeme.Enclosure
import GrammarFrontend.Proofs.Literal.Spelling
import Mathlib.Data.List.Forall2

/-! Escapes in string literals. What a scanner takes for an escape can be longer than a backslash
and the character after it, but what else it takes closes no literal and hides nothing. So a literal
ends where it would if a backslash only hid the next character, and its faults are the backslashes
that begin no escape and that no other one hides.
-/

namespace GrammarFrontend

-----------------------------------------------------------------------------------------
-- Wrong escapes and their faults
-----------------------------------------------------------------------------------------

/-- The text goes on at the index with a backslash that no other one hides and that begins no
well-formed escape.
-/
structure WrongEscape (text : List Char) (index : Nat) : Prop where
  backslash : text[index]? = some '\\'
  unhidden : hidesNext (text.take index) = false
  wrong
    : ∀ spelling value rest,
        Literal.Escape spelling value → text.drop (index + 1) ≠ spelling ++ rest

/-- The indices below `length` of the wrong escapes of a text, in increasing order. -/
structure WrongEscapes (text : List Char) (length : Nat) (indices : List Nat) : Prop where
  increasing : indices.Pairwise (· < ·)
  mem_iff : ∀ index, index ∈ indices ↔ index < length ∧ WrongEscape text index

/-- The faults are those of the wrong escapes below `length`, one for each, in their order. -/
def FaultsOf (text : List Char) (length : Nat) (faults : List Fault) : Prop :=
  ∃ indices,
    WrongEscapes text length indices
    ∧ List.Forall₂ (fun index f => f.kind = .invalidEscapeSequence ∧ f.start = text.drop index)
        indices faults

/-- Behind a front that leaves hidden what it hid, the wrong escapes are those of the rest. -/
theorem WrongEscape.append_iff {front : List Char}
    (clears : ∀ text, hidesNext (front ++ text) = hidesNext text) (rest : List Char) (index : Nat)
    : WrongEscape (front ++ rest) (front.length + index) ↔ WrongEscape rest index := by
  have hget : (front ++ rest)[front.length + index]? = rest[index]? := by
    rw [List.getElem?_append_right (Nat.le_add_right _ _), Nat.add_sub_cancel_left]
  have htake : hidesNext ((front ++ rest).take (front.length + index))
      = hidesNext (rest.take index) := by
    rw [List.take_length_add_append, clears]
  have hdrop : (front ++ rest).drop (front.length + index + 1) = rest.drop (index + 1) := by
    rw [Nat.add_assoc, List.drop_length_add_append]
  constructor
  · intro ⟨backslash, unhidden, wrong⟩
    exact ⟨hget ▸ backslash, htake ▸ unhidden, hdrop ▸ wrong⟩
  · intro ⟨backslash, unhidden, wrong⟩
    exact ⟨hget ▸ backslash, htake ▸ unhidden, hdrop ▸ wrong⟩

namespace WrongEscapes

variable {text front rest : List Char} {length : Nat} {first indices : List Nat}

theorem of_silent (silent : ∀ index, index < length → ¬ WrongEscape text index)
    : WrongEscapes text length [] := by
  refine ⟨.nil, ?_⟩
  intro index
  simp only [List.not_mem_nil, false_iff, not_and]
  exact silent index

/-- The first character is the only wrong escape below `length`. -/
theorem of_first (hlength : 0 < length) (wrong : WrongEscape text 0)
    (silent : ∀ index, 0 < index → index < length → ¬ WrongEscape text index)
    : WrongEscapes text length [0] := by
  refine ⟨List.pairwise_singleton _ _, ?_⟩
  intro index
  rw [List.mem_singleton]
  constructor
  · rintro rfl
    exact ⟨hlength, wrong⟩
  · rintro ⟨hlt, wrong⟩
    rcases Nat.eq_zero_or_pos index with hzero | hpos
    · exact hzero
    · exact absurd wrong (silent index hpos hlt)

/-- The wrong escapes of a text are those of its front and then those of the rest. -/
theorem append (clears : ∀ text, hidesNext (front ++ text) = hidesNext text)
    (hf : WrongEscapes (front ++ rest) front.length first) (hr : WrongEscapes rest length indices)
    : WrongEscapes (front ++ rest) (front.length + length)
        (first ++ indices.map (front.length + ·)) := by
  constructor
  case increasing =>
    refine List.pairwise_append.mpr ⟨hf.increasing, ?_, ?_⟩
    · refine List.pairwise_map.mpr (hr.increasing.imp ?_)
      intro a b hlt
      exact Nat.add_lt_add_left hlt _
    · intro a ha b hb
      obtain ⟨k, -, rfl⟩ := List.mem_map.mp hb
      exact Nat.lt_of_lt_of_le ((hf.mem_iff a).mp ha).1 (Nat.le_add_right _ _)
  case mem_iff =>
    intro index
    rw [List.mem_append, List.mem_map, hf.mem_iff]
    constructor
    · rintro (⟨hlt, wrong⟩ | ⟨k, hk, rfl⟩)
      · exact ⟨Nat.lt_add_right _ hlt, wrong⟩
      · obtain ⟨hlt, wrong⟩ := (hr.mem_iff k).mp hk
        exact ⟨Nat.add_lt_add_left hlt _, (WrongEscape.append_iff clears rest k).mpr wrong⟩
    · rintro ⟨hlt, wrong⟩
      rcases Nat.lt_or_ge index front.length with hfront | hrest
      · exact .inl ⟨hfront, wrong⟩
      · obtain ⟨k, rfl⟩ := Nat.exists_eq_add_of_le hrest
        have hk := (WrongEscape.append_iff clears rest k).mp wrong
        exact .inr ⟨k, (hr.mem_iff k).mpr ⟨Nat.lt_of_add_lt_add_left hlt, hk⟩, rfl⟩

end WrongEscapes

/-- The faults are those of the wrong escapes of a text before the place where `rest` is left. -/
def FaultsUpTo (text rest : List Char) (faults : List Fault) : Prop :=
  ∃ consumed, text = consumed ++ rest ∧ FaultsOf text consumed.length faults

theorem FaultsUpTo.nil (text : List Char) : FaultsUpTo text text [] :=
  ⟨[], rfl, [], .of_silent (by simp), .nil⟩

theorem FaultsUpTo.of_append {consumed rest : List Char} {faults : List Fault}
    (h : FaultsUpTo (consumed ++ rest) rest faults)
    : FaultsOf (consumed ++ rest) consumed.length faults := by
  obtain ⟨before, htext, hfaults⟩ := h
  obtain rfl := List.append_cancel_right htext
  exact hfaults

/-- The faults of a text are those of its front and then those of what follows. -/
theorem FaultsUpTo.append {front text rest : List Char} {first faults : List Fault}
    (clears : ∀ text, hidesNext (front ++ text) = hidesNext text)
    (hf : FaultsOf (front ++ text) front.length first) (hr : FaultsUpTo text rest faults)
    : FaultsUpTo (front ++ text) rest (first ++ faults) := by
  obtain ⟨consumed, htext, late, wrongText, hlate⟩ := hr
  obtain ⟨early, wrongFront, hearly⟩ := hf
  refine ⟨front ++ consumed, ?_, ?_⟩
  · rw [List.append_assoc, ← htext]
  · rw [List.length_append]
    refine ⟨_, wrongFront.append clears wrongText, List.rel_append hearly ?_⟩
    rw [List.forall₂_map_left_iff]
    refine hlate.imp ?_
    rintro index f ⟨hkind, hstart⟩
    exact ⟨hkind, by rw [hstart, List.drop_length_add_append]⟩

-----------------------------------------------------------------------------------------
-- What a scanner takes for an escape
-----------------------------------------------------------------------------------------

namespace StringLiteral

/-- A character that neither closes a literal nor cuts it short nor hides another one. -/
structure Ordinary (c : Char) : Prop where
  backslash : c ≠ '\\'
  quote : c ≠ '\''
  line : isLineBreak c = false

theorem ordinary_of_isHexDigit {c : Char} (h : isHexDigit c = true) : Ordinary c := by
  constructor
  case backslash =>
    rintro rfl
    cases h
  case quote =>
    rintro rfl
    cases h
  case line =>
    simp only [isLineBreak, Bool.or_eq_false_iff, beq_eq_false_iff_ne]
    constructor
    · rintro rfl
      cases h
    · rintro rfl
      cases h

/-- Digits in braces are ordinary, and so are the braces, whether or not there are enough digits. -/
theorem bracedDigits_passed (text : List Char)
    : ∃ passed, (∀ c ∈ passed, Ordinary c) ∧ text = passed ++ (bracedDigits text).2 := by
  have hdigits : ∀ c ∈ text.takeWhile isHexDigit, Ordinary c := by
    intro c hc
    exact ordinary_of_isHexDigit (List.all_eq_true.mp List.all_takeWhile c hc)
  simp only [bracedDigits]
  split
  · rename_i rest hdrop
    refine ⟨text.takeWhile isHexDigit ++ ['}'], ?_, ?_⟩
    · rintro c hc
      rcases List.mem_append.mp hc with hc | hc
      · exact hdigits c hc
      · obtain rfl := List.mem_singleton.mp hc
        exact ⟨by decide, by decide, by decide⟩
    · rw [List.append_assoc]
      exact Literal.digits_append hdrop
  · exact ⟨_, hdigits, List.takeWhile_append_dropWhile.symm⟩

/-- Up to four digits are ordinary. -/
theorem fourDigits_passed (text : List Char)
    : ∃ passed, (∀ c ∈ passed, Ordinary c) ∧ text = passed ++ (fourDigits text).2 := by
  refine ⟨(text.take 4).takeWhile isHexDigit, ?_, Literal.fourDigits_append text⟩
  intro c hc
  exact ordinary_of_isHexDigit (List.all_eq_true.mp List.all_takeWhile c hc)

/-- A wrong escape stands before a line break and takes nothing of it; any other one takes the
character after the backslash, whatever it is, and ordinary characters.
-/
theorem escape_passed (c : Char) (text : List Char)
    : isLineBreak c = true ∧ escape (c :: text) = (false, c :: text)
      ∨ isLineBreak c = false
        ∧ ∃ passed, (∀ d ∈ passed, Ordinary d) ∧ text = passed ++ (escape (c :: text)).2 := by
  by_cases hu : c = 'u'
  · subst hu
    refine .inr ⟨by decide, ?_⟩
    by_cases hbrace : text.head? = some '{'
    · obtain ⟨digits, rfl⟩ := List.head?_eq_some_iff.mp hbrace
      obtain ⟨passed, ordinary, hdigits⟩ := bracedDigits_passed digits
      rw [escape_braced]
      refine ⟨'{' :: passed, ?_, congrArg ('{' :: ·) hdigits⟩
      exact List.forall_mem_cons.mpr ⟨⟨by decide, by decide, by decide⟩, ordinary⟩
    · rw [escape_digits hbrace]
      exact fourDigits_passed text
  · rw [escape_cons hu]
    cases hbreak : isLineBreak c with
    | true =>
        have hsimple : isSimpleEscape c = false := by
          simp only [isLineBreak, Bool.or_eq_true, beq_iff_eq] at hbreak
          rcases hbreak with rfl | rfl <;> rfl
        rw [hsimple]
        exact .inl ⟨rfl, rfl⟩
    | false =>
        refine .inr ⟨rfl, [], by simp, ?_⟩
        split <;> rfl

/-- Ordinary characters do not say where a text between quotes ends. -/
theorem lineClose_ordinary {passed : List Char} (ordinary : ∀ c ∈ passed, Ordinary c)
    (text : List Char)
    : lineClose '\'' (passed ++ text) = lineClose '\'' text := by
  induction passed with
  | nil => rfl
  | cons c passed ih =>
      obtain ⟨hc, ordinary⟩ := List.forall_mem_cons.mp ordinary
      rw [List.cons_append, lineClose_cons hc.backslash hc.line hc.quote, ih ordinary]

/-- A text between quotes ends behind an escape where it ends behind its backslash. -/
theorem lineClose_behind_escape (text : List Char)
    : lineClose '\'' ('\\' :: text) = lineClose '\'' (escape text).2 := by
  cases text with
  | nil => rfl
  | cons c text =>
      rcases escape_passed c text with ⟨hbreak, hescape⟩ | ⟨hbreak, passed, ordinary, htext⟩
      · rw [hescape, lineClose_escape_of_break hbreak, lineClose_of_break hbreak]
      · rw [lineClose_escape hbreak]
        exact (congrArg (lineClose '\'') htext).trans (lineClose_ordinary ordinary _)

/-- A literal ends at a closing quote or with its line, whatever escapes it has, by the recursion of
`close`.
-/
theorem close_eq (text : List Char)
    : ((close text).closed, (close text).rest) = lineClose '\'' text := by
  fun_induction close text with
  | case1 => rfl
  | case2 text found _ ih => rw [lineClose_behind_escape, ih]
  | case3 text found _ ih => exact ih.trans (lineClose_behind_escape text).symm
  | case4 c text _ hbreak => exact (lineClose_of_break hbreak text).symm
  | case5 text => exact (lineClose_closing (by decide) (by decide) text).symm
  | case6 c text hslash hbreak hquote ih =>
      rw [lineClose_cons hslash (Bool.eq_false_iff.mpr hbreak) hquote, ih]

-----------------------------------------------------------------------------------------
-- Faults
-----------------------------------------------------------------------------------------

/-- Characters that are no backslashes hide nothing. -/
theorem hidesNext_append {passed : List Char} (plain : ∀ c ∈ passed, c ≠ '\\') (text : List Char)
    : hidesNext (passed ++ text) = hidesNext text := by
  induction passed with
  | nil => rfl
  | cons c passed ih =>
      obtain ⟨hc, plain⟩ := List.forall_mem_cons.mp plain
      rw [List.cons_append, hidesNext_cons hc, ih plain]

/-- Behind a backslash and the character that it hides, what is passed has no wrong escape. -/
theorem not_wrongEscape_of_passed {c : Char} {passed rest : List Char}
    (plain : ∀ d ∈ passed, d ≠ '\\') {index : Nat} (hpos : 0 < index)
    (hlt : index < passed.length + 2)
    : ¬ WrongEscape ('\\' :: c :: (passed ++ rest)) index := by
  intro wrong
  match index with
  | 1 => cases wrong.unhidden
  | index + 2 =>
      have hindex : index < passed.length := by omega
      have hget := wrong.backslash
      rw [List.getElem?_cons_succ, List.getElem?_cons_succ, List.getElem?_append_left hindex]
        at hget
      exact plain _ (List.mem_of_getElem? hget) rfl

/-- A backslash begins a wrong escape exactly if a scanner takes what follows for none. -/
theorem wrongEscape_iff (text : List Char)
    : WrongEscape ('\\' :: text) 0 ↔ (escape text).1 = false := by
  constructor
  · intro wrong
    cases known : (escape text).1 with
    | false => rfl
    | true =>
        obtain ⟨spelling, value, hescape, htext⟩ :=
          Literal.escape_of_scan (Prod.ext known rfl : escape text = (true, (escape text).2))
        exact absurd htext (wrong.wrong spelling value _ hescape)
  · intro unknown
    refine ⟨rfl, rfl, ?_⟩
    intro spelling value rest hescape htext
    rw [List.drop_one, List.tail_cons] at htext
    rw [htext, hescape.scan rest] at unknown
    cases unknown

/-- The fault of a backslash that begins no well-formed escape. -/
def escapeFaults (text : List Char) : List Fault :=
  if (escape text).1 then []
  else [{ kind := .invalidEscapeSequence, start := '\\' :: text, stop := (escape text).2 }]

/-- A backslash has its fault where nothing else below `length` is a wrong escape. -/
theorem faultsOf_backslash {text : List Char} {length : Nat} (hlength : 0 < length)
    (silent : ∀ index, 0 < index → index < length → ¬ WrongEscape ('\\' :: text) index)
    : FaultsOf ('\\' :: text) length (escapeFaults text) := by
  rw [escapeFaults]
  cases known : (escape text).1 with
  | false =>
      have wrong := (wrongEscape_iff text).mpr known
      exact ⟨[0], .of_first hlength wrong silent, .cons ⟨rfl, rfl⟩ .nil⟩
  | true =>
      refine ⟨[], .of_silent ?_, .nil⟩
      intro index hlt wrong
      rcases Nat.eq_zero_or_pos index with rfl | hpos
      · rw [wrongEscape_iff, known] at wrong
        cases wrong
      · exact silent index hpos hlt wrong

/-- A backslash before a line break or the end is a wrong escape, and the literal ends behind it. -/
theorem faults_before_break {text : List Char}
    (ends : close (escape text).2 = { closed := false, rest := text, faults := [] })
    : FaultsUpTo ('\\' :: text) (close (escape text).2).rest
        (escapeFaults text ++ (close (escape text).2).faults) := by
  rw [ends, List.append_nil]
  refine ⟨['\\'], rfl, faultsOf_backslash Nat.one_pos ?_⟩
  intro index hpos hlt
  exact absurd hpos (Nat.not_lt.mpr (Nat.le_of_lt_succ hlt))

/-- A backslash is passed with the character that it hides and with ordinary ones, and what follows
has its faults as before.
-/
theorem faults_behind_escape {c : Char} {text passed rest : List Char} {faults : List Fault}
    (ordinary : ∀ d ∈ passed, Ordinary d) (htext : text = passed ++ (escape (c :: text)).2)
    (h : FaultsUpTo (escape (c :: text)).2 rest faults)
    : FaultsUpTo ('\\' :: c :: text) rest (escapeFaults (c :: text) ++ faults) := by
  have plain : ∀ d ∈ passed, d ≠ '\\' := fun d hd => (ordinary d hd).backslash
  have hfront : '\\' :: c :: text = ('\\' :: c :: passed) ++ (escape (c :: text)).2 :=
    congrArg ('\\' :: c :: ·) htext
  have hfirst : FaultsOf ('\\' :: c :: text) (passed.length + 2) (escapeFaults (c :: text)) := by
    refine faultsOf_backslash (Nat.succ_pos _) ?_
    intro index hpos hlt
    rw [htext]
    exact not_wrongEscape_of_passed plain hpos hlt
  rw [hfront] at hfirst ⊢
  refine FaultsUpTo.append ?_ hfirst h
  intro tail
  rw [List.cons_append, List.cons_append, hidesNext_escape, hidesNext_append plain]

/-- Where the faults behind a backslash are those of the wrong escapes, they are so from it on. -/
theorem faults_behind_backslash {text : List Char}
    (h : FaultsUpTo (escape text).2 (close (escape text).2).rest (close (escape text).2).faults)
    : FaultsUpTo ('\\' :: text) (close (escape text).2).rest
        (escapeFaults text ++ (close (escape text).2).faults) := by
  cases text with
  | nil => exact faults_before_break (by rw [escape, close])
  | cons c text =>
      rcases escape_passed c text with ⟨hbreak, hescape⟩ | ⟨-, passed, ordinary, htext⟩
      · refine faults_before_break ?_
        rw [hescape, close_cons (ne_backslash_of_break hbreak), if_pos hbreak]
      · exact faults_behind_escape ordinary htext h

/-- A character that is no backslash has no fault, and it hides nothing. -/
theorem faults_behind_character {c : Char} {text rest : List Char} {faults : List Fault}
    (hc : c ≠ '\\') (h : FaultsUpTo text rest faults)
    : FaultsUpTo (c :: text) rest faults := by
  have hfirst : FaultsOf ([c] ++ text) [c].length [] := by
    refine ⟨[], .of_silent ?_, .nil⟩
    intro index hlt wrong
    obtain rfl : index = 0 := Nat.lt_one_iff.mp hlt
    exact hc (Option.some.inj wrong.backslash)
  exact FaultsUpTo.append (hidesNext_cons hc) hfirst h

/-- A literal is read up to where it ends, and its faults are those of the wrong escapes there, by
the recursion of `close`.
-/
theorem close_faults (text : List Char)
    : FaultsUpTo text (close text).rest (close text).faults := by
  fun_induction close text with
  | case1 => exact .nil []
  | case2 text found known ih =>
      have h := faults_behind_backslash ih
      rwa [escapeFaults, if_pos known] at h
  | case3 text found unknown ih =>
      have h := faults_behind_backslash ih
      rwa [escapeFaults, if_neg unknown] at h
  | case4 c text => exact .nil (c :: text)
  | case5 text => exact faults_behind_character (by decide) (.nil text)
  | case6 c text hslash hbreak hquote ih => exact faults_behind_character hslash ih

end StringLiteral

end GrammarFrontend
