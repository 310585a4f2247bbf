import GrammarFrontend.Proofs.Lexeme.Rereading

/-! Tokens that no delimiter opens: marks of punctuation, words, openers of blocks, digits and
blanks. Where one of them stands at the front of a text, the longest one is read, and the order in
which the recognisers are tried does not matter.
-/

namespace GrammarFrontend

/-- The marks of punctuation. -/
def Punctuation.marks : List (List Char × TokenKind) :=
  [([':'], .colon), ([':', ':'], .doubleColon), ([','], .comma), ([';'], .semicolon),
    (['('], .leftParen), ([')'], .rightParen), (['-', '>'], .arrow), (['<'], .less),
    (['>'], .greater), (['='], .assign), (['?'], .question), (['=', '>'], .synpred),
    (['*'], .star), (['+'], .plus), (['+', '='], .plusAssign), (['|'], .bar), (['$'], .dollar),
    (['.'], .dot), (['.', '.'], .range), (['.', '.', '.'], .ellipsis), (['@'], .atSign),
    (['#'], .pound), (['~'], .tilde), (['}'], .rightBrace)]

/-- A text that can name something. -/
structure IsName (text : List Char) : Prop where
  start : ∃ c ∈ text.head?, isNameStart c = true
  rest : ∀ c ∈ text.tail, isNameChar c = true

/-- A text that is a word of a kind. An opener of a block has its brace in it, with the blanks before
the brace. All other words are told apart by the table of keywords, and names by the naming
convention.
-/
inductive WordToken (naming : Naming) : List Char → TokenKind → Prop
  | opener {word : String} {kind : TokenKind} {gap : List Char}
    (listed : (word, kind) ∈ TokenKind.blockOpeners) (blank : ∀ c ∈ gap, isBlank c = true)
    : WordToken naming (word.toList ++ (gap ++ ['{'])) kind
  | keyword {word : String} {kind : TokenKind} (listed : (word, kind) ∈ TokenKind.keywords)
    : WordToken naming word.toList kind
  | name {word : String} (isName : IsName word.toList)
    (unlisted : ∀ kind, (word, kind) ∉ TokenKind.keywords)
    : WordToken naming word.toList (if naming word then .tokenRef else .ruleRef)

/-- A text that is a token of a kind where no delimiter opens it. -/
inductive PlainToken (naming : Naming) (text : List Char) : TokenKind → Prop
  | mark {kind : TokenKind} (listed : (text, kind) ∈ Punctuation.marks) : PlainToken naming text kind
  | blank (filled : text ≠ []) (blank : ∀ c ∈ text, isBlank c = true)
    : PlainToken naming text .blank
  | int (filled : text ≠ []) (digits : ∀ c ∈ text, c.isDigit = true) : PlainToken naming text .int
  | word {kind : TokenKind} (word : WordToken naming text kind) : PlainToken naming text kind

/-- The longest such token that an input begins with. -/
structure LongestToken (naming : Naming) (input text : List Char) (kind : TokenKind) : Prop where
  token : PlainToken naming text kind
  ahead : text <+: input
  longest
    : ∀ other otherKind,
        PlainToken naming other otherKind → other <+: input → other.length ≤ text.length

-----------------------------------------------------------------------------------------
-- Punctuation
-----------------------------------------------------------------------------------------

namespace Punctuation

theorem lookup_marks : ∀ entry ∈ marks, marks.lookup entry.1 = some entry.2 := by
  decide

theorem read_mark {text rest : List Char} {kind : TokenKind} (h : read text = some (kind, rest))
    : ∃ mark, (mark, kind) ∈ marks ∧ text = mark ++ rest := by
  unfold read at h
  split at h <;> simp only [Option.some.injEq, Prod.mk.injEq, reduceCtorEq] at h <;>
    obtain ⟨rfl, rfl⟩ := h <;>
    first
    | exact ⟨[_], by simp [marks], rfl⟩
    | exact ⟨[_, _], by simp [marks], rfl⟩
    | exact ⟨[_, _, _], by simp [marks], rfl⟩

/-- Where nothing is read, no mark is ahead. -/
theorem no_mark_of_read {text : List Char} (h : read text = none)
    : ∀ entry ∈ marks, ¬ entry.1 <+: text := by
  unfold read at h
  split at h <;> simp only [reduceCtorEq] at h
  simp only [marks, List.forall_mem_cons, List.not_mem_nil, false_implies, implies_true, and_true]
  and_intros <;>
    · rintro ⟨tail, rfl⟩
      solve_by_elim

/-- Two dots are read, and a third one with them. -/
theorem read_range_suffix {tail rest : List Char} {kind : TokenKind}
    (h : read ('.' :: '.' :: tail) = some (kind, rest))
    : rest <:+ tail := by
  cases tail with
  | nil => exact (Prod.mk.inj (Option.some.inj h)).2 ▸ List.suffix_refl _
  | cons c tail =>
      by_cases hc : c = '.'
      · subst hc
        exact (Prod.mk.inj (Option.some.inj h)).2 ▸ List.suffix_cons _ _
      · have hread : read ('.' :: '.' :: c :: tail) = some (.range, c :: tail) := by
          simp [read, hc]
        rw [hread] at h
        exact (Prod.mk.inj (Option.some.inj h)).2 ▸ List.suffix_refl _

/-- Where a mark is ahead, at least that mark is read. -/
theorem read_of_mark {entry : List Char × TokenKind} (listed : entry ∈ marks) (tail : List Char)
    : ∃ kind rest, read (entry.1 ++ tail) = some (kind, rest) ∧ rest <:+ tail := by
  cases hread : read (entry.1 ++ tail) with
  | none => exact absurd (List.prefix_append _ _) (no_mark_of_read hread _ listed)
  | some found =>
      obtain ⟨kind, rest⟩ := found
      refine ⟨kind, rest, rfl, ?_⟩
      simp only [marks, List.mem_cons, List.not_mem_nil, or_false] at listed
      rcases listed with rfl | rfl | rfl | rfl | rfl | rfl | rfl | rfl | rfl | rfl | rfl | rfl | rfl
        | rfl | rfl | rfl | rfl | rfl | rfl | rfl | rfl | rfl | rfl | rfl <;>
        first
        | exact read_suffix hread
        | exact read_range_suffix hread
        | exact (Prod.mk.inj (Option.some.inj hread)).2 ▸ List.suffix_refl _

/-- The mark that is read is the longest one ahead. -/
theorem read_longest {text rest : List Char} {kind : TokenKind} (h : read text = some (kind, rest))
    : ∃ mark,
        (mark, kind) ∈ marks
        ∧ text = mark ++ rest
        ∧ ∀ other ∈ marks, other.1 <+: text → other.1.length ≤ mark.length := by
  obtain ⟨mark, listed, split⟩ := read_mark h
  refine ⟨mark, listed, split, ?_⟩
  intro other hother ahead
  obtain ⟨tail, htail⟩ := ahead
  obtain ⟨found, left, hread, hs⟩ := read_of_mark hother tail
  rw [htail, h] at hread
  obtain ⟨-, rfl⟩ := Prod.mk.inj (Option.some.inj hread)
  have hlength := congrArg List.length (htail.trans split)
  rw [List.length_append, List.length_append] at hlength
  have hle := hs.length_le
  omega

end Punctuation

-----------------------------------------------------------------------------------------
-- The first character
-----------------------------------------------------------------------------------------

/-- No blank is a digit or a character of names. -/
theorem isBlank_front {c : Char} (h : isBlank c = true)
    : c.isDigit = false ∧ isNameChar c = false := by
  have hblanks
      : [' ', '\t', '\x0c', '\r', '\n'].all (fun d => !d.isDigit && !isNameChar d) = true := by
    decide
  have hmem : c ∈ [' ', '\t', '\x0c', '\r', '\n'] := by
    simpa [isBlank, isInlineBlank, isLineBreak, or_assoc] using h
  simpa using List.all_eq_true.mp hblanks c hmem

/-- No name starts with a digit. -/
theorem isDigit_front {c : Char} (h : c.isDigit = true) : isNameStart c = false := by
  simp only [Char.isDigit, Bool.and_eq_true, decide_eq_true_eq, ge_iff_le,
    UInt32.le_iff_toNat_le] at h
  obtain ⟨hfirst, hlast⟩ := h
  change 48 ≤ c.toNat at hfirst
  change c.toNat ≤ 57 at hlast
  simp only [isNameStart, inRanges, nameStartRanges, List.any_cons, List.any_nil, Bool.or_false,
    Bool.or_eq_false_iff, Bool.and_eq_false_iff, decide_eq_false_iff_not]
  omega

theorem isNameChar_of_isNameStart {c : Char} (h : isNameStart c = true) : isNameChar c = true := by
  rw [isNameChar, h, Bool.true_or]

/-- No name starts with a blank or a digit. -/
theorem isNameStart_front {c : Char} (h : isNameStart c = true)
    : isBlank c = false ∧ c.isDigit = false := by
  constructor
  · rw [Bool.eq_false_iff]
    intro hblank
    have hchar := (isBlank_front hblank).2
    rw [isNameChar_of_isNameStart h] at hchar
    cases hchar
  · rw [Bool.eq_false_iff]
    intro hdigit
    rw [isDigit_front hdigit] at h
    cases h

/-- A mark begins with no character of another token. -/
theorem Punctuation.marks_front
    : ∀ entry ∈ marks,
        ∀ c ∈ entry.1.head?, isBlank c = false ∧ c.isDigit = false ∧ isNameStart c = false := by
  have hmarks
      : ∀ entry ∈ marks,
          entry.1.head?.all (fun c => !isBlank c && (!c.isDigit && !isNameStart c)) = true := by
    decide
  intro entry hentry c hc
  simpa [Option.mem_def.mp hc] using hmarks entry hentry

-----------------------------------------------------------------------------------------
-- Words
-----------------------------------------------------------------------------------------

theorem takeWhile_exact {f : Char → Bool} {front tail : List Char} (hfront : ∀ c ∈ front, f c = true)
    (hstop : ∀ c ∈ tail.head?, f c = false)
    : (front ++ tail).takeWhile f = front := by
  rw [List.takeWhile_append_of_pos hfront]
  cases tail with
  | nil => simp
  | cons c tail => simp [hstop c rfl]

theorem dropWhile_exact {f : Char → Bool} {front tail : List Char} (hfront : ∀ c ∈ front, f c = true)
    (hstop : ∀ c ∈ tail.head?, f c = false)
    : (front ++ tail).dropWhile f = tail := by
  rw [List.dropWhile_append_of_pos hfront]
  cases tail with
  | nil => rfl
  | cons c tail => simp [hstop c rfl]

/-- A front in which all characters are of a class is in the run of that class. -/
theorem prefix_takeWhile {f : Char → Bool} {front text : List Char}
    (hfront : ∀ c ∈ front, f c = true) (ahead : front <+: text)
    : front <+: text.takeWhile f := by
  obtain ⟨tail, rfl⟩ := ahead
  rw [List.takeWhile_append_of_pos hfront]
  exact List.prefix_append _ _

/-- A text has one front of each length. -/
theorem front_unique {front other text : List Char} (ahead : front <+: text)
    (otherAhead : other <+: text) (hlength : front.length = other.length)
    : front = other := by
  have inside := List.prefix_of_prefix_length_le ahead otherAhead (Nat.le_of_eq hlength)
  exact inside.eq_of_length hlength

theorem IsName.all {text : List Char} (h : IsName text) : ∀ c ∈ text, isNameChar c = true := by
  obtain ⟨c, hc, hstart⟩ := h.start
  obtain ⟨rest, rfl⟩ := List.head?_eq_some_iff.mp hc
  rw [List.forall_mem_cons]
  exact ⟨isNameChar_of_isNameStart hstart, h.rest⟩

theorem isName_takeWhile {c : Char} (text : List Char) (hc : isNameStart c = true)
    : IsName ((c :: text).takeWhile isNameChar) := by
  rw [List.takeWhile_cons_of_pos (isNameChar_of_isNameStart hc)]
  exact { start := ⟨c, rfl, hc⟩, rest := List.all_eq_true.mp List.all_takeWhile }

namespace TokenKind

theorem tables_isName : ∀ entry ∈ keywords ++ blockOpeners, IsName entry.1.toList := by
  have htables
      : ∀ entry ∈ keywords ++ blockOpeners,
          entry.1.toList.head?.any isNameStart = true
          ∧ entry.1.toList.tail.all isNameChar = true := by
    decide
  intro entry hentry
  obtain ⟨start, rest⟩ := htables entry hentry
  exact { start := (Option.any_eq_true _ _).mp start, rest := List.all_eq_true.mp rest }

theorem lookup_keywords : ∀ entry ∈ keywords, keywords.lookup entry.1 = some entry.2 := by
  decide

theorem lookup_blockOpeners
    : ∀ entry ∈ blockOpeners, blockOpeners.lookup entry.1 = some entry.2 := by
  decide

end TokenKind

namespace WordToken

variable {naming : Naming} {text input : List Char} {kind : TokenKind}

/-- The parts of an opener in an input that begins with it. -/
theorem opener_parts {word : String} {gap : List Char} (tail : List Char)
    (listed : (word, kind) ∈ TokenKind.blockOpeners) (blank : ∀ c ∈ gap, isBlank c = true)
    : let input := word.toList ++ (gap ++ '{' :: tail)
      input.takeWhile isNameChar = word.toList
      ∧ (input.dropWhile isNameChar).takeWhile isBlank = gap
      ∧ Word.brace (input.dropWhile isNameChar) = some ((), tail) := by
  intro input
  have hword : ∀ c ∈ word.toList, isNameChar c = true :=
    (TokenKind.tables_isName _ (List.mem_append_right _ listed)).all
  have hgap : ∀ c ∈ (gap ++ '{' :: tail).head?, isNameChar c = false := by
    cases gap with
    | nil =>
        rintro c ⟨⟩
        rfl
    | cons d gap =>
        rintro c ⟨⟩
        exact (isBlank_front (blank d List.mem_cons_self)).2
  have hbrace : ∀ c ∈ ('{' :: tail).head?, isBlank c = false := by
    rintro c ⟨⟩
    rfl
  rw [dropWhile_exact hword hgap, Word.brace_eq_some_iff]
  exact ⟨takeWhile_exact hword hgap, takeWhile_exact blank hbrace, dropWhile_exact blank hbrace⟩

/-- The text of a word token at the front of an input is in the word there, or it is an opener with
the blanks and the brace that follow the word.
-/
theorem reaches (h : WordToken naming text kind) (ahead : text <+: input)
    : text <+: input.takeWhile isNameChar
      ∨ (∃ rest, Word.brace (input.dropWhile isNameChar) = some ((), rest))
        ∧ text
          = input.takeWhile isNameChar
            ++ ((input.dropWhile isNameChar).takeWhile isBlank ++ ['{'])
        ∧ (String.ofList (input.takeWhile isNameChar), kind) ∈ TokenKind.blockOpeners := by
  cases h with
  | @opener word _ gap listed blank =>
      obtain ⟨tail, rfl⟩ := ahead
      have hsplit
          : word.toList ++ (gap ++ ['{']) ++ tail = word.toList ++ (gap ++ '{' :: tail) := by
        simp only [List.append_assoc, List.singleton_append]
      obtain ⟨hword, hgap, hbrace⟩ := opener_parts tail listed blank
      rw [hsplit, hword, hgap, hbrace, String.ofList_toList]
      exact .inr ⟨⟨tail, rfl⟩, rfl, listed⟩
  | keyword listed =>
      have isName := TokenKind.tables_isName _ (List.mem_append_left _ listed)
      exact .inl (prefix_takeWhile isName.all ahead)
  | name isName => exact .inl (prefix_takeWhile isName.all ahead)

theorem isDiscarded (h : WordToken naming text kind) : kind.isDiscarded = false := by
  have htables
      : ∀ entry ∈ TokenKind.keywords ++ TokenKind.blockOpeners, entry.2.isDiscarded = false := by
    decide
  cases h with
  | opener listed => exact htables _ (List.mem_append_right _ listed)
  | keyword listed => exact htables _ (List.mem_append_left _ listed)
  | name => split <;> rfl

theorem start (h : WordToken naming text kind) : ∃ c ∈ text.head?, isNameStart c = true := by
  cases h with
  | @opener word _ gap listed =>
      obtain ⟨c, hc, hstart⟩ := (TokenKind.tables_isName _ (List.mem_append_right _ listed)).start
      obtain ⟨rest, hword⟩ := List.head?_eq_some_iff.mp hc
      rw [hword]
      exact ⟨c, rfl, hstart⟩
  | keyword listed => exact (TokenKind.tables_isName _ (List.mem_append_left _ listed)).start
  | name isName => exact isName.start

/-- A name is a word of the kind that the tables and the convention give it. -/
theorem of_isName (naming : Naming) {word : String} (isName : IsName word.toList)
    : WordToken naming word.toList (Word.kindOf naming word) := by
  rw [Word.kindOf]
  split
  · rename_i kind hlookup
    exact .keyword (Word.mem_of_lookup hlookup)
  · rename_i hlookup
    refine .name isName ?_
    intro kind listed
    rw [TokenKind.lookup_keywords _ listed] at hlookup
    cases hlookup

/-- A word in which no brace stands is of the kind of its name. -/
theorem kind_eq_kindOf (h : WordToken naming text kind) (hall : ∀ c ∈ text, isNameChar c = true)
    : kind = Word.kindOf naming (String.ofList text) := by
  cases h with
  | opener =>
      have hbrace : isNameChar '{' = true := hall '{' (by simp)
      cases hbrace
  | keyword listed => rw [String.ofList_toList, Word.kindOf, TokenKind.lookup_keywords _ listed]
  | @name word isName unlisted =>
      rw [String.ofList_toList, Word.kindOf]
      cases hlookup : TokenKind.keywords.lookup word with
      | some kind => exact absurd (Word.mem_of_lookup hlookup) (unlisted kind)
      | none => rfl

/-- A text is a word of one kind at most. -/
theorem kind_unique {other : TokenKind} (h : WordToken naming text kind)
    (hother : WordToken naming text other)
    : kind = other := by
  have hname (inside : text <+: text.takeWhile isNameChar) : kind = other := by
    have hall : ∀ c ∈ text, isNameChar c = true :=
      fun c hc => List.all_eq_true.mp List.all_takeWhile c (inside.subset hc)
    rw [h.kind_eq_kindOf hall, hother.kind_eq_kindOf hall]
  rcases h.reaches (List.prefix_refl _) with inside | ⟨-, -, listed⟩
  · exact hname inside
  rcases hother.reaches (List.prefix_refl _) with inside | ⟨-, -, otherListed⟩
  · exact hname inside
  have hlookup := TokenKind.lookup_blockOpeners _ listed
  rw [TokenKind.lookup_blockOpeners _ otherListed] at hlookup
  exact (Option.some.inj hlookup).symm

end WordToken

/-- A word is read as the longest word token ahead, by cases on the trial of the brace. -/
theorem Word.read_longest (naming : Naming) {p : Probe} {c : Char} {text : List Char}
    (opens : p.rest = c :: text) (hc : isNameStart c = true)
    : ∃ token kind next,
        WordToken naming token kind
        ∧ read naming p = .plain kind next
        ∧ p.rest = token ++ next.rest
        ∧ ∀ other otherKind,
            WordToken naming other otherKind → other <+: p.rest → other.length ≤ token.length := by
  let word := p.rest.takeWhile isNameChar
  let after := p.rest.dropWhile isNameChar
  have hsplit : p.rest = word ++ after := List.takeWhile_append_dropWhile.symm
  have named : WordToken naming word (kindOf naming (String.ofList word)) := by
    have hname : IsName word := by
      simp only [word, opens]
      exact isName_takeWhile text hc
    rw [← String.toList_ofList (l := word)] at hname
    have htoken := WordToken.of_isName naming hname
    rwa [String.toList_ofList] at htoken
  -- Where no block is opened, the word alone is the token.
  have halone
      (hno : ∀ rest kind,
        brace after = some ((), rest) → (String.ofList word, kind) ∉ TokenKind.blockOpeners)
      : ∀ other otherKind,
          WordToken naming other otherKind → other <+: p.rest → other.length ≤ word.length := by
    intro other otherKind token ahead
    rcases token.reaches ahead with inside | ⟨⟨rest, hbrace⟩, -, listed⟩
    · exact inside.length_le
    · exact absurd listed (hno rest otherKind hbrace)
  simp only [read]
  split
  · rename_i hlookup
    refine ⟨word, _, _, named, rfl, hsplit, halone ?_⟩
    intro rest kind hbrace listed
    rw [TokenKind.lookup_blockOpeners _ listed] at hlookup
    cases hlookup
  · rename_i opener hlookup
    cases hbrace : brace after with
    | none =>
        rw [Probe.speculate_of_none hbrace]
        refine ⟨word, _, _, named, rfl, hsplit, halone ?_⟩
        intro rest kind hsome
        rw [hbrace] at hsome
        cases hsome
    | some found =>
        obtain ⟨⟨⟩, rest⟩ := found
        rw [Probe.speculate_of_some hbrace]
        have hafter : after = after.takeWhile isBlank ++ ('{' :: rest) := by
          rw [← brace_eq_some_iff.mp hbrace, List.takeWhile_append_dropWhile]
        refine ⟨word ++ (after.takeWhile isBlank ++ ['{']), opener, _, ?_, rfl, ?_, ?_⟩
        · have htoken : WordToken naming _ opener :=
            .opener (mem_of_lookup hlookup) (List.all_eq_true.mp (List.all_takeWhile (l := after)))
          rwa [String.toList_ofList] at htoken
        · calc
            p.rest = word ++ (after.takeWhile isBlank ++ '{' :: rest) := by rw [← hafter, ← hsplit]
            _ = word ++ (after.takeWhile isBlank ++ ['{']) ++ rest := by
              simp only [List.append_assoc, List.singleton_append]
        · intro other otherKind token ahead
          rcases token.reaches ahead with inside | ⟨-, rfl, -⟩
          · exact Nat.le_trans inside.length_le (List.prefix_append _ _).length_le
          · exact Nat.le_refl _

-----------------------------------------------------------------------------------------
-- The longest token
-----------------------------------------------------------------------------------------

namespace PlainToken

variable {naming : Naming} {text : List Char} {kind : TokenKind} {c : Char}

/-- The first character of a token tells what it is. -/
theorem of_head (h : PlainToken naming text kind) (head : text.head? = some c)
    : if isBlank c then kind = .blank ∧ ∀ d ∈ text, isBlank d = true
      else if c.isDigit then kind = .int ∧ ∀ d ∈ text, d.isDigit = true
      else if isNameStart c then WordToken naming text kind
      else (text, kind) ∈ Punctuation.marks := by
  cases h with
  | mark listed =>
      obtain ⟨hblank, hdigit, hname⟩ := Punctuation.marks_front _ listed c head
      simp only [hblank, hdigit, hname, Bool.false_eq_true, if_false]
      exact listed
  | blank filled blank =>
      rw [if_pos (blank c (List.mem_of_head? head))]
      exact ⟨rfl, blank⟩
  | int filled digits =>
      have hdigit : c.isDigit = true := digits c (List.mem_of_head? head)
      have hblank : ¬ isBlank c = true := by
        intro hblank
        rw [(isBlank_front hblank).1] at hdigit
        cases hdigit
      rw [if_neg hblank, if_pos hdigit]
      exact ⟨rfl, digits⟩
  | word word =>
      obtain ⟨d, hd, hname⟩ := word.start
      obtain rfl : c = d := Option.some.inj (head.symm.trans hd)
      obtain ⟨hblank, hdigit⟩ := isNameStart_front hname
      simp only [hblank, hdigit, hname, Bool.false_eq_true, if_false, if_true]
      exact word

theorem filled (h : PlainToken naming text kind) : text ≠ [] := by
  cases h with
  | mark listed =>
      have hmarks : ∀ entry ∈ Punctuation.marks, entry.1 ≠ [] := by decide
      exact hmarks _ listed
  | blank filled | int filled => exact filled
  | word word =>
      obtain ⟨c, hc, -⟩ := word.start
      exact List.ne_nil_of_mem (List.mem_of_head? hc)

/-- A token at the front of an input begins with the first character of the input. -/
theorem head_of_prefix {rest : List Char} (h : PlainToken naming text kind)
    (ahead : text <+: c :: rest)
    : text.head? = some c := by
  obtain ⟨d, inner, rfl⟩ := List.exists_cons_of_ne_nil h.filled
  obtain ⟨rfl, -⟩ := List.cons_prefix_cons.mp ahead
  rfl

/-- A text is a token of one kind at most. -/
theorem kind_unique {other : TokenKind} (h : PlainToken naming text kind)
    (hother : PlainToken naming text other)
    : kind = other := by
  obtain ⟨c, rest, rfl⟩ := List.exists_cons_of_ne_nil h.filled
  have hleft := h.of_head rfl
  have hright := hother.of_head rfl
  by_cases hblank : isBlank c = true
  · rw [if_pos hblank] at hleft hright
    rw [hleft.1, hright.1]
  rw [if_neg hblank] at hleft hright
  by_cases hdigit : c.isDigit = true
  · rw [if_pos hdigit] at hleft hright
    rw [hleft.1, hright.1]
  rw [if_neg hdigit] at hleft hright
  by_cases hname : isNameStart c = true
  · rw [if_pos hname] at hleft hright
    exact hleft.kind_unique hright
  rw [if_neg hname] at hleft hright
  have hlookup := Punctuation.lookup_marks _ hleft
  rw [Punctuation.lookup_marks _ hright] at hlookup
  exact (Option.some.inj hlookup).symm

theorem isDiscarded (h : PlainToken naming text kind) : kind.isDiscarded = false := by
  cases h with
  | mark listed =>
      have hmarks : ∀ entry ∈ Punctuation.marks, entry.2.isDiscarded = false := by decide
      exact hmarks _ listed
  | blank | int => rfl
  | word word => exact word.isDiscarded

end PlainToken

/-- An input has one longest token at most. -/
theorem LongestToken.unique {naming : Naming} {input text other : List Char}
    {kind otherKind : TokenKind} (h : LongestToken naming input text kind)
    (hother : LongestToken naming input other otherKind)
    : text = other ∧ kind = otherKind := by
  have hlength : text.length = other.length :=
    Nat.le_antisymm (hother.longest _ _ h.token h.ahead) (h.longest _ _ hother.token hother.ahead)
  obtain rfl : text = other := front_unique h.ahead hother.ahead hlength
  exact ⟨rfl, h.token.kind_unique hother.token⟩

/-- A run of characters of a class is the longest token ahead, if all tokens there are of it. -/
theorem LongestToken.run {naming : Naming} {input : List Char} {kind : TokenKind}
    {f : Char → Bool} (token : PlainToken naming (input.takeWhile f) kind)
    (only
      : ∀ other otherKind,
          PlainToken naming other otherKind → other <+: input → ∀ c ∈ other, f c = true)
    : LongestToken naming input (input.takeWhile f) kind := by
  refine { token, ahead := List.takeWhile_prefix f, longest := ?_ }
  intro other otherKind htoken ahead
  exact (prefix_takeWhile (only other otherKind htoken ahead) ahead).length_le

/-- What no delimiter opens is read as the longest token ahead, or as a character that begins none.
-/
theorem Lexeme.undelimited_longest (naming : Naming) {p : Probe} {c : Char} {text : List Char}
    (opens : p.rest = c :: text) (hmark : c ≠ '\uFEFF')
    : (∃ token kind next,
        LongestToken naming p.rest token kind
        ∧ undelimited naming p c text = .plain kind next
        ∧ p.rest = token ++ next.rest)
      ∨ (∀ token kind, PlainToken naming token kind → ¬ token <+: p.rest)
        ∧ undelimited naming p c text = .plain .errorChar (p.moveTo text) := by
  have hsplit (f : Char → Bool) : p.rest = p.rest.takeWhile f ++ (p.skipWhile f).rest :=
    List.takeWhile_append_dropWhile.symm
  have hhead {other : List Char} {otherKind : TokenKind} (token : PlainToken naming other otherKind)
      (ahead : other <+: p.rest)
      : other.head? = some c :=
    token.head_of_prefix (opens ▸ ahead)
  have hrun {f : Char → Bool} (hc : f c = true) : p.rest.takeWhile f ≠ [] := by
    rw [opens, List.takeWhile_cons_of_pos hc]
    exact List.cons_ne_nil _ _
  rw [undelimited, if_neg hmark]
  split
  · rename_i hc
    refine .inl ⟨_, _, _, .run (.blank (hrun hc) ?_) ?_, rfl, hsplit isBlank⟩
    · exact List.all_eq_true.mp List.all_takeWhile
    · intro other otherKind token ahead
      have hkind := token.of_head (hhead token ahead)
      rw [if_pos hc] at hkind
      exact hkind.2
  rename_i hblank
  split
  · rename_i hc
    refine .inl ⟨_, _, _, .run (.int (hrun hc) ?_) ?_, rfl, hsplit Char.isDigit⟩
    · exact List.all_eq_true.mp List.all_takeWhile
    · intro other otherKind token ahead
      have hkind := token.of_head (hhead token ahead)
      rw [if_neg hblank, if_pos hc] at hkind
      exact hkind.2
  rename_i hdigit
  split
  · rename_i kind rest hread
    obtain ⟨mark, listed, split, longest⟩ := Punctuation.read_longest hread
    have token : PlainToken naming mark kind := .mark listed
    have ahead : mark <+: p.rest := ⟨rest, split.symm⟩
    obtain ⟨-, -, hname⟩ := Punctuation.marks_front _ listed c (hhead token ahead)
    refine .inl ⟨mark, kind, _, { token, ahead, longest := ?_ }, rfl, split⟩
    intro other otherKind otherToken otherAhead
    have hother := otherToken.of_head (hhead otherToken otherAhead)
    rw [if_neg hblank, if_neg hdigit, if_neg (Bool.eq_false_iff.mp hname)] at hother
    exact longest _ hother otherAhead
  rename_i hread
  split
  · rename_i hc
    obtain ⟨token, kind, next, word, hword, split, longest⟩ := Word.read_longest naming opens hc
    refine .inl ⟨token, kind, next, ?_, hword, split⟩
    refine { token := .word word, ahead := ⟨_, split.symm⟩, longest := ?_ }
    intro other otherKind otherToken ahead
    have hother := otherToken.of_head (hhead otherToken ahead)
    rw [if_neg hblank, if_neg hdigit, if_pos hc] at hother
    exact longest other otherKind hother ahead
  · rename_i hname
    refine .inr ⟨?_, rfl⟩
    intro token kind htoken ahead
    have hlisted := htoken.of_head (hhead htoken ahead)
    rw [if_neg hblank, if_neg hdigit, if_neg hname] at hlisted
    exact Punctuation.no_mark_of_read hread _ hlisted ahead

end GrammarFrontend
