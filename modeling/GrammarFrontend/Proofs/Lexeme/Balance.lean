import GrammarFrontend.Proofs.Lexeme.Enclosure

/-! Nested code cut into items: hidden characters, quotations, comments where these count, and
single characters. Code ends behind the first closing mark at which the marks among the items are
even, whatever stands inside the other items.
-/

namespace GrammarFrontend

-----------------------------------------------------------------------------------------
-- The end of a comment
-----------------------------------------------------------------------------------------

namespace Comment

/-- A text that a closing mark follows has no earlier one, not even one that reaches into it. -/
def EndsFirst (body : List Char) : Prop :=
  ∀ before after, body ++ ['*', '/'] = before ++ '*' :: '/' :: after → after = []

/-- A text holds no closing mark. -/
def Open (text : List Char) : Prop := ∀ before after, text ≠ before ++ '*' :: '/' :: after

/-- What follows the first closing mark, by the recursion of `afterClose`. -/
theorem exists_body {text rest : List Char} (h : afterClose text = some rest)
    : ∃ body, EndsFirst body ∧ text = body ++ '*' :: '/' :: rest := by
  fun_induction afterClose text with
  | case1 => cases h
  | case2 text =>
      obtain rfl := Option.some.inj h
      refine ⟨[], ?_, rfl⟩
      intro before after hmark
      have hlength := congrArg List.length hmark
      simp only [List.length_append, List.length_cons, List.length_nil] at hlength
      exact List.length_eq_zero_iff.mp (by omega)
  | case3 c text hopen ih =>
      obtain ⟨body, first, rfl⟩ := ih h
      refine ⟨c :: body, ?_, rfl⟩
      intro before after hmark
      cases before with
      | cons d before =>
          rw [List.cons_append, List.cons_append, List.cons.injEq] at hmark
          exact first before after hmark.2
      | nil =>
          rw [List.cons_append, List.nil_append, List.cons.injEq] at hmark
          obtain ⟨rfl, hslash⟩ := hmark
          -- The text would begin with a closing mark.
          cases body with
          | nil => cases hslash
          | cons d body =>
              obtain ⟨rfl, -⟩ := List.cons.inj hslash
              exact (hopen _ rfl rfl).elim

/-- A comment goes on behind its first closing mark, by induction on what stands before the mark. -/
theorem afterClose_of_endsFirst {body : List Char} (first : EndsFirst body) (rest : List Char)
    : afterClose (body ++ '*' :: '/' :: rest) = some rest := by
  induction body with
  | nil => rfl
  | cons c body ih =>
      have hmore : EndsFirst body := by
        intro before after hmark
        exact first (c :: before) after (congrArg (c :: ·) hmark)
      rw [List.cons_append, afterClose_cons, ih hmore]
      rintro ⟨rfl, hhead⟩
      cases body with
      | nil => cases hhead
      | cons d body =>
          obtain rfl : d = '/' := Option.some.inj hhead
          have hnil := first [] (body ++ ['*', '/']) rfl
          simp at hnil

/-- A comment has no end exactly where no closing mark stands. -/
theorem afterClose_eq_none_iff {text : List Char} : afterClose text = none ↔ Open text := by
  constructor
  · intro h before after htext
    subst htext
    induction before with
    | nil => cases h
    | cons c before ih =>
        rw [List.cons_append] at h
        by_cases hmark : c = '*' ∧ (before ++ '*' :: '/' :: after).head? = some '/'
        · obtain ⟨rfl, hhead⟩ := hmark
          obtain ⟨rest, hrest⟩ := List.head?_eq_some_iff.mp hhead
          rw [hrest] at h
          cases h
        · rw [afterClose_cons hmark] at h
          exact ih h
  · intro unclosed
    cases hrest : afterClose text with
    | none => rfl
    | some rest =>
        obtain ⟨body, -, htext⟩ := exists_body hrest
        exact absurd htext (unclosed body rest)

end Comment

theorem Probe.skip_one_of_cons {p : Probe} {c : Char} {text : List Char} (h : p.rest = c :: text)
    : (p.skip 1).rest = text := by
  rw [skip, moveTo, h]
  rfl

namespace Nesting

-----------------------------------------------------------------------------------------
-- Items
-----------------------------------------------------------------------------------------

/-- The first item of `piece ++ rest` is `piece`. A quote that opens no quotation is an item of its
own; comments are items only where they hide what they contain.
-/
inductive Item (comments : Bool) : List Char → List Char → Prop
  | escape (c : Char) (rest : List Char) : Item comments ['\\', c] rest
  | backslash : Item comments ['\\'] []
  | quotation {quote : Char} {body : List Char} (isQuote : Quotation.isQuote quote = true)
    (enclosed : Enclosed quote body) (rest : List Char)
    : Item comments (quote :: (body ++ [quote])) rest
  | quote {quote : Char} {rest : List Char} (isQuote : Quotation.isQuote quote = true)
    (unclosed : Unclosed quote rest)
    : Item comments [quote] rest
  | blockComment {body : List Char} (hides : comments = true) (first : Comment.EndsFirst body)
    (rest : List Char)
    : Item comments ('/' :: '*' :: (body ++ ['*', '/'])) rest
  | openComment {body : List Char} (hides : comments = true) (unclosed : Comment.Open body)
    : Item comments ('/' :: '*' :: body) []
  | lineComment {body rest : List Char} (hides : comments = true)
    (line : ∀ c ∈ body, isLineBreak c = false) (ends : AtLineEnd rest)
    : Item comments ('/' :: '/' :: body) rest
  | character {c : Char} {rest : List Char} (plain : c ≠ '\\')
    (noQuote : Quotation.isQuote c = false)
    (noComment
      : comments = true → c = '/' → rest.head? ≠ some '*' ∧ rest.head? ≠ some '/')
    : Item comments [c] rest

/-- What is left behind the first item of a text. -/
def afterItem (comments : Bool) : List Char → List Char
  | [] => []
  | '\\' :: text => text.drop 1
  | c :: text =>
      if Quotation.isQuote c then (Quotation.rest? c text).getD text
      else if comments && c == '/' && text.head? == some '*' then
        (Comment.afterClose text.tail).getD []
      else if comments && c == '/' && text.head? == some '/' then afterLine text.tail
      else text

theorem Item.ne_nil {comments : Bool} {piece rest : List Char} (h : Item comments piece rest)
    : piece ≠ [] := by
  cases h <;> exact List.cons_ne_nil _ _

/-- A quote is neither a backslash nor a line break. -/
theorem isQuote_cases {quote : Char} (h : Quotation.isQuote quote = true)
    : quote ≠ '\\' ∧ isLineBreak quote = false := by
  simp only [Quotation.isQuote, Bool.or_eq_true, beq_iff_eq] at h
  rcases h with rfl | rfl <;> decide

theorem afterItem_quote {comments : Bool} {quote : Char} (h : Quotation.isQuote quote = true)
    (text : List Char)
    : afterItem comments (quote :: text) = (Quotation.rest? quote text).getD text := by
  rw [afterItem]
  · rw [if_pos h]
  · exact (isQuote_cases h).1

theorem afterItem_character {comments : Bool} {c : Char} {text : List Char} (plain : c ≠ '\\')
    (noQuote : Quotation.isQuote c = false)
    (noComment : comments = true → c = '/' → text.head? ≠ some '*' ∧ text.head? ≠ some '/')
    : afterItem comments (c :: text) = text := by
  rw [afterItem]
  · rw [if_neg (Bool.eq_false_iff.mp noQuote), if_neg, if_neg]
    · intro hmark
      simp only [Bool.and_eq_true, beq_iff_eq] at hmark
      exact (noComment hmark.1.1 hmark.1.2).2 hmark.2
    · intro hmark
      simp only [Bool.and_eq_true, beq_iff_eq] at hmark
      exact (noComment hmark.1.1 hmark.1.2).1 hmark.2
  · exact plain

/-- A character that is neither a backslash nor a quote, and begins no comment, is an item. -/
theorem afterItem_of_plain {c : Char} {text : List Char} (hslash : c ≠ '\\')
    (noQuote : ¬ Quotation.isQuote c = true)
    (hblock : ∀ rest, c = '/' → text = '*' :: rest → False)
    (hline : ∀ rest, c = '/' → text = '/' :: rest → False)
    : afterItem true (c :: text) = text := by
  refine afterItem_character hslash (Bool.eq_false_iff.mpr noQuote) ?_
  intro _ hc
  constructor
  · intro hhead
    obtain ⟨rest, hrest⟩ := List.head?_eq_some_iff.mp hhead
    exact hblock rest hc hrest
  · intro hhead
    obtain ⟨rest, hrest⟩ := List.head?_eq_some_iff.mp hhead
    exact hline rest hc hrest

/-- Behind an item is what follows it, by its form. -/
theorem Item.after {comments : Bool} {piece rest : List Char} (h : Item comments piece rest)
    : afterItem comments (piece ++ rest) = rest := by
  cases h with
  | escape c => rfl
  | backslash => rfl
  | @quotation quote body isQuote enclosed =>
      obtain ⟨hslash, hline⟩ := isQuote_cases isQuote
      have hrest : Quotation.rest? quote (body ++ quote :: rest) = some rest :=
        (Quotation.rest?_eq_some_iff hslash hline).mpr ⟨body, enclosed, rfl⟩
      rw [List.cons_append, List.append_assoc, List.singleton_append, afterItem_quote isQuote,
        hrest]
      rfl
  | @quote quote _ isQuote unclosed =>
      obtain ⟨hslash, hline⟩ := isQuote_cases isQuote
      have hrest : Quotation.rest? quote rest = none :=
        (Quotation.rest?_eq_none_iff hslash hline).mpr unclosed
      rw [List.singleton_append, afterItem_quote isQuote, hrest]
      rfl
  | @blockComment body hides first =>
      simp [afterItem, Quotation.isQuote, hides, Comment.afterClose_of_endsFirst first]
  | @openComment body hides unclosed =>
      simp [afterItem, Quotation.isQuote, hides, Comment.afterClose_eq_none_iff.mpr unclosed]
  | @lineComment body _ hides line ends =>
      simp [afterItem, Quotation.isQuote, hides, afterLine_append line ends]
  | character plain noQuote noComment => exact afterItem_character plain noQuote noComment

/-- A quote begins a quotation, or it is an item of its own. -/
theorem exists_item_quote (comments : Bool) {quote : Char} (h : Quotation.isQuote quote = true)
    (text : List Char)
    : ∃ piece,
        quote :: text = piece ++ (Quotation.rest? quote text).getD text
        ∧ Item comments piece ((Quotation.rest? quote text).getD text) := by
  obtain ⟨hslash, hline⟩ := isQuote_cases h
  cases hrest : Quotation.rest? quote text with
  | none =>
      have unclosed := (Quotation.rest?_eq_none_iff hslash hline).mp hrest
      exact ⟨[quote], rfl, .quote h unclosed⟩
  | some rest =>
      obtain ⟨body, enclosed, rfl⟩ := (Quotation.rest?_eq_some_iff hslash hline).mp hrest
      exact ⟨quote :: (body ++ [quote]), by simp, .quotation h enclosed rest⟩

/-- Every text that is not empty begins with an item. -/
theorem exists_item (comments : Bool) (c : Char) (text : List Char)
    : ∃ piece,
        c :: text = piece ++ afterItem comments (c :: text)
        ∧ Item comments piece (afterItem comments (c :: text)) := by
  by_cases hslash : c = '\\'
  · subst hslash
    cases text with
    | nil => exact ⟨['\\'], rfl, .backslash⟩
    | cons d text => exact ⟨['\\', d], rfl, .escape d text⟩
  rw [afterItem]
  · split
    · rename_i isQuote
      exact exists_item_quote comments isQuote text
    split
    · rename_i noQuote hmark
      simp only [Bool.and_eq_true, beq_iff_eq] at hmark
      obtain ⟨⟨hides, rfl⟩, hhead⟩ := hmark
      obtain ⟨text, rfl⟩ := List.head?_eq_some_iff.mp hhead
      rw [List.tail_cons]
      cases hrest : Comment.afterClose text with
      | none =>
          have unclosed := Comment.afterClose_eq_none_iff.mp hrest
          exact ⟨'/' :: '*' :: text, by simp, .openComment hides unclosed⟩
      | some rest =>
          obtain ⟨body, first, rfl⟩ := Comment.exists_body hrest
          exact ⟨_, by simp, .blockComment hides first rest⟩
    split
    · rename_i noQuote noBlock hmark
      simp only [Bool.and_eq_true, beq_iff_eq] at hmark
      obtain ⟨⟨hides, rfl⟩, hhead⟩ := hmark
      obtain ⟨text, rfl⟩ := List.head?_eq_some_iff.mp hhead
      refine ⟨'/' :: '/' :: firstLine text, ?_, ?_⟩
      · exact congrArg ('/' :: '/' :: ·) (firstLine_append text).symm
      · exact .lineComment hides (firstLine_line text) (afterLine_ends text)
    · rename_i noQuote noBlock noLine
      simp only [Bool.and_eq_true, beq_iff_eq, not_and] at noBlock noLine
      refine ⟨[c], rfl, .character hslash (Bool.eq_false_iff.mpr noQuote) ?_⟩
      intro hides hc
      exact ⟨noBlock ⟨hides, hc⟩, noLine ⟨hides, hc⟩⟩
  · exact hslash

theorem afterItem_suffix (comments : Bool) (c : Char) (text : List Char)
    : afterItem comments (c :: text) <:+ c :: text := by
  obtain ⟨piece, hsplit, -⟩ := exists_item comments c text
  exact ⟨piece, hsplit.symm⟩

theorem afterItem_length_lt (comments : Bool) (c : Char) (text : List Char)
    : (afterItem comments (c :: text)).length < (c :: text).length := by
  obtain ⟨piece, hsplit, item⟩ := exists_item comments c text
  have hpos := List.length_pos_iff.mpr item.ne_nil
  have hlength := congrArg List.length hsplit
  rw [List.length_append] at hlength
  omega

/-- Of a text that begins with two items, both are one. -/
theorem Item.unique {comments : Bool} {first second rest more : List Char}
    (hf : Item comments first rest) (hs : Item comments second more)
    (h : first ++ rest = second ++ more)
    : first = second ∧ rest = more := by
  have hrest : rest = more := by rw [← hf.after, h, hs.after]
  subst hrest
  exact ⟨List.append_cancel_right h, rfl⟩

-----------------------------------------------------------------------------------------
-- Cuts and even marks
-----------------------------------------------------------------------------------------

/-- The text `pieces.flatten ++ rest` is cut from the left into these items as far as `rest`. -/
inductive Cut (comments : Bool) : List (List Char) → List Char → Prop
  | nil (rest : List Char) : Cut comments [] rest
  | cons {piece rest : List Char} {pieces : List (List Char)}
    (item : Item comments piece (pieces.flatten ++ rest)) (more : Cut comments pieces rest)
    : Cut comments (piece :: pieces) rest

/-- Code is cut as far as the first closing mark at which as many closing as opening marks have been
cut off. Only items that are a mark alone count.
-/
structure Closing (comments : Bool) (opening closing : Char) (pieces : List (List Char))
    (rest : List Char)
    : Prop where
  cut : Cut comments pieces rest
  last : pieces.getLast? = some [closing]
  even : pieces.count [closing] = pieces.count [opening]
  first
    : ∀ earlier,
        earlier <+: pieces
        → earlier ≠ pieces
        → earlier.getLast? = some [closing]
        → earlier.count [closing] ≠ earlier.count [opening]

/-- Of two cuts of one text the one that leaves no less is the beginning of the other, by induction
on it.
-/
theorem Cut.prefix_of_length_le {comments : Bool} {pieces others : List (List Char)}
    {rest more : List Char} (hf : Cut comments pieces rest) (hs : Cut comments others more)
    (h : pieces.flatten ++ rest = others.flatten ++ more) (hlength : more.length ≤ rest.length)
    : pieces <+: others := by
  induction hf generalizing others with
  | nil => exact List.nil_prefix
  | @cons piece rest pieces item _ ih =>
      cases hs with
      | nil =>
          have hpiece := List.length_pos_iff.mpr item.ne_nil
          have hwhole := congrArg List.length h
          simp only [List.flatten_cons, List.flatten_nil, List.length_append, List.length_nil]
            at hwhole
          omega
      | cons itemToo moreToo =>
          rw [List.flatten_cons, List.flatten_cons, List.append_assoc, List.append_assoc] at h
          obtain ⟨rfl, hrest⟩ := item.unique itemToo h
          exact (List.prefix_cons_inj _).mpr (ih moreToo hrest hlength)

/-- Code has one end only: of two cuts to such an end the shorter one is no cut to an earlier end of
the longer one.
-/
theorem Closing.unique {comments : Bool} {opening closing : Char} {pieces others : List (List Char)}
    {rest more : List Char} (hf : Closing comments opening closing pieces rest)
    (hs : Closing comments opening closing others more)
    (h : pieces.flatten ++ rest = others.flatten ++ more)
    : pieces = others ∧ rest = more := by
  have hpieces : pieces = others := by
    rcases Nat.le_total more.length rest.length with hle | hle
    · by_cases he : pieces = others
      · exact he
      · exact absurd hf.even (hs.first pieces (hf.cut.prefix_of_length_le hs.cut h hle) he hf.last)
    · by_cases he : others = pieces
      · exact he.symm
      · exact absurd hs.even
          (hf.first others (hs.cut.prefix_of_length_le hf.cut h.symm hle) he hs.last)
  subst hpieces
  exact ⟨rfl, List.append_cancel_left h⟩

-----------------------------------------------------------------------------------------
-- Reading level by level
-----------------------------------------------------------------------------------------

/-- Code that is read with `depth` marks open: each opening mark opens one more, each closing one
closes one, and reading ends when none is open or nothing is left.
-/
inductive Levels (comments : Bool) (opening closing : Char)
    : Nat → List (List Char) → Ending → List Char → Prop
  | unfinished {depth : Nat} : Levels comments opening closing depth [] .unfinished []
  | opened {depth : Nat} {pieces : List (List Char)} {ending : Ending} {rest : List Char}
    (more : Levels comments opening closing (depth + 1) pieces ending rest)
    : Levels comments opening closing depth ([opening] :: pieces) ending rest
  | closed {rest : List Char} : Levels comments opening closing 1 [[closing]] .closed rest
  | closes {depth : Nat} {pieces : List (List Char)} {ending : Ending} {rest : List Char}
    (more : Levels comments opening closing (depth + 1) pieces ending rest)
    : Levels comments opening closing (depth + 2) ([closing] :: pieces) ending rest
  | item {depth : Nat} {c : Char} {piece rest : List Char} {pieces : List (List Char)}
    {ending : Ending} (item : Item comments (c :: piece) (pieces.flatten ++ rest))
    (noOpening : c ≠ opening) (noClosing : c ≠ closing)
    (more : Levels comments opening closing depth pieces ending rest)
    : Levels comments opening closing depth ((c :: piece) :: pieces) ending rest

namespace Levels

variable {comments : Bool} {opening closing : Char} {depth : Nat} {pieces : List (List Char)}
  {ending : Ending} {rest : List Char}

/-- Reading cuts the code into items, if the marks are such. -/
theorem cut (h : Levels comments opening closing depth pieces ending rest)
    (mark : ∀ c text, c = opening ∨ c = closing → Item comments [c] text)
    : Cut comments pieces rest := by
  induction h with
  | unfinished => exact .nil []
  | opened _ ih => exact .cons (mark _ _ (.inl rfl)) ih
  | closed => exact .cons (mark _ _ (.inr rfl)) (.nil _)
  | closes _ ih => exact .cons (mark _ _ (.inr rfl)) ih
  | item item _ _ _ ih => exact .cons item ih

/-- Reading ends with the last closing mark, or it goes on until nothing is left. -/
theorem ends (h : Levels comments opening closing depth pieces ending rest)
    : ending = .closed ∧ pieces.getLast? = some [closing]
      ∨ ending = .unfinished ∧ rest = [] := by
  induction h with
  | unfinished => exact .inr ⟨rfl, rfl⟩
  | closed => exact .inl ⟨rfl, rfl⟩
  | opened _ ih | closes _ ih | item _ _ _ _ ih =>
      refine ih.imp_left ?_
      rintro ⟨hclosed, hlast⟩
      exact ⟨hclosed, by rw [List.getLast?_cons, hlast]; rfl⟩

theorem cons_ne_cons_of_head {c d : Char} (h : c ≠ d) (piece other : List Char)
    : c :: piece ≠ d :: other := by
  intro he
  exact h (List.cons.inj he).1

/-- At the end the closing marks are as many as the opening ones and those that were open before. -/
theorem even (h : Levels comments opening closing depth pieces ending rest)
    (hne : opening ≠ closing) (closed : ending = .closed)
    : pieces.count [closing] = pieces.count [opening] + depth := by
  induction h with
  | unfinished => cases closed
  | closed => simp [hne.symm]
  | opened _ ih =>
      have heven := ih closed
      rw [List.count_cons_self, List.count_cons_of_ne (cons_ne_cons_of_head hne _ _)]
      omega
  | closes _ ih =>
      have heven := ih closed
      rw [List.count_cons_self, List.count_cons_of_ne (cons_ne_cons_of_head hne.symm _ _)]
      omega
  | item _ noOpening noClosing _ ih =>
      simpa [List.count_cons, noOpening, noClosing] using ih closed

/-- Before the end the closing marks are fewer, by induction on the reading. -/
theorem fewer (h : Levels comments opening closing depth pieces ending rest)
    (hne : opening ≠ closing) (hdepth : 0 < depth) {earlier : List (List Char)}
    (hp : earlier <+: pieces) (before : earlier ≠ pieces ∨ ending = .unfinished)
    : earlier.count [closing] < earlier.count [opening] + depth := by
  induction h generalizing earlier with
  | unfinished =>
      obtain rfl := List.prefix_nil.mp hp
      simpa using hdepth
  | closed =>
      rcases List.prefix_cons_iff.mp hp with rfl | ⟨more, rfl, hmore⟩
      · simp
      · obtain rfl := List.prefix_nil.mp hmore
        simp at before
  | opened _ ih =>
      rcases List.prefix_cons_iff.mp hp with rfl | ⟨more, rfl, hmore⟩
      · simpa using hdepth
      · have hfewer := ih (Nat.succ_pos _) hmore (before.imp_left (fun h he => h (he ▸ rfl)))
        rw [List.count_cons_self, List.count_cons_of_ne (cons_ne_cons_of_head hne _ _)]
        omega
  | closes _ ih =>
      rcases List.prefix_cons_iff.mp hp with rfl | ⟨more, rfl, hmore⟩
      · simp
      · have hfewer := ih (Nat.succ_pos _) hmore (before.imp_left (fun h he => h (he ▸ rfl)))
        rw [List.count_cons_self, List.count_cons_of_ne (cons_ne_cons_of_head hne.symm _ _)]
        omega
  | item _ noOpening noClosing _ ih =>
      rcases List.prefix_cons_iff.mp hp with rfl | ⟨more, rfl, hmore⟩
      · simpa using hdepth
      · have hfewer := ih hdepth hmore (before.imp_left (fun h he => h (he ▸ rfl)))
        simpa [List.count_cons, noOpening, noClosing] using hfewer

/-- Of code with its opening mark, the marks are not even at any closing mark before the end. -/
theorem not_even (h : Levels comments opening closing 1 pieces ending rest)
    (hne : opening ≠ closing) {earlier : List (List Char)} (hp : earlier <+: [opening] :: pieces)
    (hlast : earlier.getLast? = some [closing])
    (before : earlier ≠ [opening] :: pieces ∨ ending = .unfinished)
    : earlier.count [closing] ≠ earlier.count [opening] := by
  rcases List.prefix_cons_iff.mp hp with rfl | ⟨more, rfl, hmore⟩
  · cases hlast
  · have hfewer := h.fewer hne Nat.one_pos hmore (before.imp_left (fun h he => h (he ▸ rfl)))
    rw [List.count_cons_self, List.count_cons_of_ne (cons_ne_cons_of_head hne _ _)]
    omega

/-- Reading behind an opening mark that ends with a closing one is a cut to the end of the code. -/
theorem closing_of_closed (h : Levels comments opening closing 1 pieces .closed rest)
    (hne : opening ≠ closing) (mark : ∀ c text, c = opening ∨ c = closing → Item comments [c] text)
    : Closing comments opening closing ([opening] :: pieces) rest := by
  have whole : Levels comments opening closing 0 ([opening] :: pieces) .closed rest := .opened h
  constructor
  case cut => exact whole.cut mark
  case last =>
    rcases whole.ends with ⟨-, hlast⟩ | ⟨hopen, -⟩
    · exact hlast
    · cases hopen
  case even => exact whole.even hne rfl
  case first =>
    intro earlier hp before hlast
    exact h.not_even hne hp hlast (.inl before)

/-- Reading behind an opening mark to the end of the input leaves no cut to an end of the code. -/
theorem not_closing_of_unfinished (h : Levels comments opening closing 1 pieces .unfinished rest)
    (hne : opening ≠ closing) (mark : ∀ c text, c = opening ∨ c = closing → Item comments [c] text)
    {others : List (List Char)} {more : List Char}
    (split : others.flatten ++ more = opening :: (pieces.flatten ++ rest))
    : ¬ Closing comments opening closing others more := by
  intro closes
  have whole : Levels comments opening closing 0 ([opening] :: pieces) .unfinished rest := .opened h
  obtain rfl : rest = [] := by
    rcases whole.ends with ⟨hclosed, -⟩ | ⟨-, hrest⟩
    · cases hclosed
    · exact hrest
  have hp : others <+: [opening] :: pieces :=
    closes.cut.prefix_of_length_le (whole.cut mark) split (Nat.zero_le _)
  exact h.not_even hne hp closes.last (.inr rfl) closes.even

end Levels

-----------------------------------------------------------------------------------------
-- The readers of braces and brackets
-----------------------------------------------------------------------------------------

theorem skipQuotation_rest (c : Char) (text : List Char) (trials : Trials)
    : (skipQuotation { rest := c :: text, trials }).rest
      = (Quotation.rest? c text).getD text := by
  cases h : Quotation.rest? c text with
  | none => exact skipQuotation_of_none h
  | some rest => exact skipQuotation_of_some h

/-- What is read behind an item is read behind the item's first character. -/
theorem Levels.of_afterItem {comments : Bool} {opening closing c : Char} {depth : Nat}
    {ending : Ending} {text rest : List Char} (noOpening : c ≠ opening) (noClosing : c ≠ closing)
    (h : ∃ pieces,
      Levels comments opening closing depth pieces ending rest
      ∧ afterItem comments (c :: text) = pieces.flatten ++ rest)
    : ∃ pieces,
        Levels comments opening closing depth pieces ending rest
        ∧ c :: text = pieces.flatten ++ rest := by
  obtain ⟨pieces, levels, hafter⟩ := h
  obtain ⟨piece, htext, item⟩ := exists_item comments c text
  obtain ⟨d, piece, rfl⟩ := List.exists_cons_of_ne_nil item.ne_nil
  rw [List.cons_append, List.cons.injEq] at htext
  obtain ⟨rfl, htext⟩ := htext
  rw [hafter] at item htext
  refine ⟨(c :: piece) :: pieces, .item item noOpening noClosing levels, ?_⟩
  rw [List.flatten_cons, List.append_assoc, List.cons_append, ← htext]

/-- Braces are read level by level, with comments as items, by the recursion of `closeBrace`. -/
theorem closeBrace_levels {depth : Nat} {p : Probe} (h : 0 < depth)
    : ∃ pieces,
        Levels true '{' '}' depth pieces (closeBrace depth p).1 (closeBrace depth p).2.rest
        ∧ p.rest = pieces.flatten ++ (closeBrace depth p).2.rest := by
  fun_induction closeBrace depth p with
  | case1 => exact ⟨[], .unfinished, rfl⟩
  | case2 depth text trials ih =>
      obtain ⟨pieces, levels, htext⟩ := ih (Nat.succ_pos _)
      exact ⟨_, .opened levels, congrArg ('{' :: ·) htext⟩
  | case3 => exact absurd h (Nat.lt_irrefl 0)
  | case4 text => exact ⟨_, .closed, rfl⟩
  | case5 text trials depth ih =>
      obtain ⟨pieces, levels, htext⟩ := ih (Nat.succ_pos _)
      exact ⟨_, .closes levels, congrArg ('}' :: ·) htext⟩
  | case6 depth text trials ih =>
      exact Levels.of_afterItem (by decide) (by decide) (ih h)
  | case7 depth text trials ih =>
      refine Levels.of_afterItem (by decide) (by decide) ?_
      simpa [afterItem, Quotation.isQuote] using ih h
  | case8 depth text trials ih =>
      refine Levels.of_afterItem (by decide) (by decide) ?_
      simpa [afterItem, Quotation.isQuote, afterLine] using ih h
  | case9 depth c text trials hopen hclose hslash hblock hline isQuote ih =>
      rw [skipQuotation_rest] at ih
      refine Levels.of_afterItem hopen hclose ?_
      rw [afterItem_quote isQuote]
      exact ih h
  | case10 depth c text trials hopen hclose hslash hblock hline noQuote ih =>
      refine Levels.of_afterItem hopen hclose ?_
      rw [afterItem_of_plain hslash noQuote hblock hline]
      exact ih h

/-- Brackets are read level by level, and comments hide nothing there, by the recursion of
`closeBracket`.
-/
theorem closeBracket_levels {depth : Nat} {p : Probe} (h : 0 < depth)
    : ∃ pieces,
        Levels false '[' ']' depth pieces (closeBracket depth p).1 (closeBracket depth p).2.rest
        ∧ p.rest = pieces.flatten ++ (closeBracket depth p).2.rest := by
  fun_induction closeBracket depth p with
  | case1 => exact ⟨[], .unfinished, rfl⟩
  | case2 depth text trials ih =>
      obtain ⟨pieces, levels, htext⟩ := ih (Nat.succ_pos _)
      exact ⟨_, .opened levels, congrArg ('[' :: ·) htext⟩
  | case3 => exact absurd h (Nat.lt_irrefl 0)
  | case4 text => exact ⟨_, .closed, rfl⟩
  | case5 text trials depth ih =>
      obtain ⟨pieces, levels, htext⟩ := ih (Nat.succ_pos _)
      exact ⟨_, .closes levels, congrArg (']' :: ·) htext⟩
  | case6 depth text trials ih =>
      exact Levels.of_afterItem (by decide) (by decide) (ih h)
  | case7 depth c text trials hopen hclose hslash isQuote ih =>
      rw [skipQuotation_rest] at ih
      refine Levels.of_afterItem hopen hclose ?_
      rw [afterItem_quote isQuote]
      exact ih h
  | case8 depth c text trials hopen hclose hslash noQuote ih =>
      refine Levels.of_afterItem hopen hclose ?_
      rw [afterItem_character hslash (Bool.eq_false_iff.mpr noQuote) (by simp)]
      exact ih h

-----------------------------------------------------------------------------------------
-- The ends of code
-----------------------------------------------------------------------------------------

/-- No cut of the text reaches an end of the code that it begins with. -/
def Endless (comments : Bool) (opening closing : Char) (text : List Char) : Prop :=
  ∀ pieces rest, Closing comments opening closing pieces rest → text ≠ pieces.flatten ++ rest

/-- The only cut to the end of the code says where reading it level by level ends, and without such
a cut nothing is left. What is read is one of two cuts: to the end of the code or of the input.
-/
theorem Levels.decided {comments : Bool} {opening closing : Char} {text : List Char}
    {reading : Ending × Probe}
    (h : ∃ pieces,
      Levels comments opening closing 1 pieces reading.1 reading.2.rest
      ∧ text = pieces.flatten ++ reading.2.rest)
    (hne : opening ≠ closing) (mark : ∀ c text, c = opening ∨ c = closing → Item comments [c] text)
    : (∀ pieces rest,
        Closing comments opening closing pieces rest
        → opening :: text = pieces.flatten ++ rest
        → ∃ next, reading = (.closed, next) ∧ next.rest = rest)
      ∧ (Endless comments opening closing (opening :: text)
        → ∃ next, reading = (.unfinished, next) ∧ next.rest = []) := by
  obtain ⟨ending, next⟩ := reading
  obtain ⟨read, levels, htext⟩ := h
  rcases levels.ends with ⟨rfl, -⟩ | ⟨rfl, hrest⟩
  · have closes := levels.closing_of_closed hne mark
    have hwhole : opening :: text = ([opening] :: read).flatten ++ next.rest :=
      congrArg (opening :: ·) htext
    constructor
    · intro pieces rest also split
      exact ⟨next, rfl, (closes.unique also (hwhole.symm.trans split)).2⟩
    · intro endless
      exact absurd hwhole (endless _ _ closes)
  · constructor
    · intro pieces rest also split
      rw [htext] at split
      exact absurd also (levels.not_closing_of_unfinished hne mark split.symm)
    · intro _
      exact ⟨next, rfl, hrest⟩

theorem item_brace (c : Char) (text : List Char) (h : c = '{' ∨ c = '}') : Item true [c] text := by
  rcases h with rfl | rfl <;> exact .character (by decide) (by decide) (by simp)

theorem item_bracket (c : Char) (text : List Char) (h : c = '[' ∨ c = ']')
    : Item false [c] text := by
  rcases h with rfl | rfl <;> exact .character (by decide) (by decide) (by simp)

/-- A cut to the end of code in braces is where reading the braces ends, and without one it has
nothing left.
-/
theorem closeBrace_decided {p : Probe} {text : List Char} (opens : p.rest = '{' :: text)
    : (∀ pieces rest,
        Closing true '{' '}' pieces rest
        → p.rest = pieces.flatten ++ rest
        → ∃ next, closeBrace 1 (p.skip 1) = (.closed, next) ∧ next.rest = rest)
      ∧ (Endless true '{' '}' p.rest
        → ∃ next, closeBrace 1 (p.skip 1) = (.unfinished, next) ∧ next.rest = []) := by
  have levels := closeBrace_levels (p := p.skip 1) Nat.one_pos
  rw [Probe.skip_one_of_cons opens] at levels
  rw [opens]
  exact Levels.decided levels (by decide) item_brace

/-- Code in braces is a predicate if a question mark follows, and else an action. -/
theorem action_of_closed {p next : Probe} (h : closeBrace 1 (p.skip 1) = (.closed, next))
    : action p
      = if next.rest.head? = some '?' then .plain .sempred (next.skip 1)
        else .plain .action next := by
  rw [action, h]
  dsimp only
  split
  · rename_i rest hrest
    rw [Probe.skip, hrest]
    rfl
  · rename_i hother
    rw [if_neg]
    intro hhead
    obtain ⟨rest, hrest⟩ := List.head?_eq_some_iff.mp hhead
    exact hother rest hrest

/-- A cut to the end of code in brackets is where reading the brackets ends, and without one it has
nothing left.
-/
theorem closeBracket_decided {p : Probe} {text : List Char} (opens : p.rest = '[' :: text)
    : (∀ pieces rest,
        Closing false '[' ']' pieces rest
        → p.rest = pieces.flatten ++ rest
        → ∃ next, closeBracket 1 (p.skip 1) = (.closed, next) ∧ next.rest = rest)
      ∧ (Endless false '[' ']' p.rest
        → ∃ next, closeBracket 1 (p.skip 1) = (.unfinished, next) ∧ next.rest = []) := by
  have levels := closeBracket_levels (p := p.skip 1) Nat.one_pos
  rw [Probe.skip_one_of_cons opens] at levels
  rw [opens]
  exact Levels.decided levels (by decide) item_bracket

end Nesting

end GrammarFrontend
