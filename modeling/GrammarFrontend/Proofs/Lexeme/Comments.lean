import GrammarFrontend.Proofs.Lexeme.Balance
import GrammarFrontend.Proofs.Lexeme.Longest

/-! Comments by their text. A block comment is told by where its first closing mark stands and by
its own first characters, although a second star is tried before the closing mark is looked for. A
line comment is all of its line, and the note at its front is told by the form of the comment,
although the trial of the note may break off anywhere in the line.
-/

namespace GrammarFrontend

namespace Comment

/-- A block comment at the front of a text. With four characters its closing mark shares none with
its opening mark.
-/
structure Closed (text comment : List Char) : Prop where
  ahead : comment <+: text
  long : 4 ≤ comment.length
  closes : ['*', '/'] <:+ comment

/-- The block comment that ends first. -/
structure ShortestClosed (text comment : List Char) : Prop where
  closed : Closed text comment
  shortest : ∀ other, Closed text other → comment.length ≤ other.length

/-- The kind of a block comment, by its text. A second star makes it documentation, unless it is
part of the closing mark.
-/
def kindOf (comment : List Char) : TokenKind :=
  if ['/', '*', '*'] <+: comment ∧ comment ≠ ['/', '*', '*', '/'] then .docComment else .comment

theorem kindOf_isDiscarded (comment : List Char) : (kindOf comment).isDiscarded = false := by
  rw [kindOf]
  split <;> rfl

/-- What is wrong with a comment of a kind that is not closed. -/
def faultOf (kind : TokenKind) : DiagnosticKind :=
  if kind = .docComment then .unterminatedDocComment else .unterminatedComment

-----------------------------------------------------------------------------------------
-- The first closing mark
-----------------------------------------------------------------------------------------

/-- A closed comment is its two marks with a text between them. -/
theorem closed_iff {text comment : List Char}
    : Closed ('/' :: '*' :: text) comment
      ↔ ∃ body, comment = '/' :: '*' :: (body ++ ['*', '/']) ∧ body ++ ['*', '/'] <+: text := by
  constructor
  · intro h
    obtain ⟨front, hfront⟩ := h.closes
    have hlong := h.long
    have hahead := h.ahead
    rw [← hfront] at hlong hahead ⊢
    rw [List.length_append] at hlong
    match front with
    | [] | [_] => simp at hlong
    | c :: d :: body =>
        simp only [List.cons_append, List.cons_prefix_cons] at hahead
        obtain ⟨rfl, rfl, hbody⟩ := hahead
        exact ⟨body, rfl, hbody⟩
  · rintro ⟨body, rfl, hbody⟩
    refine { ahead := ?_, long := by simp, closes := ⟨'/' :: '*' :: body, rfl⟩ }
    exact List.cons_prefix_cons.mpr ⟨rfl, List.cons_prefix_cons.mpr ⟨rfl, hbody⟩⟩

/-- A text with no closing mark before its end begins the comment that ends first. -/
theorem shortestClosed_of_endsFirst {body : List Char} (first : EndsFirst body) (rest : List Char)
    : ShortestClosed ('/' :: '*' :: (body ++ '*' :: '/' :: rest))
        ('/' :: '*' :: (body ++ ['*', '/'])) := by
  have hbody : body ++ ['*', '/'] <+: body ++ '*' :: '/' :: rest := ⟨rest, by simp⟩
  refine { closed := closed_iff.mpr ⟨body, rfl, hbody⟩, shortest := ?_ }
  intro other hother
  obtain ⟨before, rfl, hbefore⟩ := closed_iff.mp hother
  by_cases hle : body.length ≤ before.length
  · simpa using hle
  -- An earlier mark would lie in the text up to the first one.
  · have hinner : before ++ ['*', '/'] <+: body ++ ['*', '/'] := by
      refine List.prefix_of_prefix_length_le hbefore hbody ?_
      simp only [List.length_append]
      omega
    obtain ⟨after, hafter⟩ := hinner
    obtain rfl : after = [] := first before after (by simpa using hafter.symm)
    have hlength := congrArg List.length hafter
    simp only [List.length_append, List.length_nil] at hlength
    omega

/-- A text begins with one such comment at most. -/
theorem ShortestClosed.unique {text comment other : List Char} (h : ShortestClosed text comment)
    (hother : ShortestClosed text other)
    : comment = other := by
  have hlength : comment.length = other.length :=
    Nat.le_antisymm (h.shortest _ hother.closed) (hother.shortest _ h.closed)
  exact front_unique h.closed.ahead hother.closed.ahead hlength

theorem not_closed_of_open {text : List Char} (unclosed : Open text) (comment : List Char)
    : ¬ Closed ('/' :: '*' :: text) comment := by
  intro h
  obtain ⟨body, -, after, hafter⟩ := closed_iff.mp h
  exact unclosed body after (by rw [← hafter]; simp)

-----------------------------------------------------------------------------------------
-- The second star
-----------------------------------------------------------------------------------------

/-- The trial of the second star does not move the first closing mark. -/
theorem afterClose_docStar (text : List Char)
    : afterClose (((docStar text).map (·.2)).getD text) = afterClose text := by
  unfold docStar
  split
  · rfl
  · rename_i rest hslash
    refine (afterClose_cons ?_).symm
    rintro ⟨-, hhead⟩
    obtain ⟨after, rfl⟩ := List.head?_eq_some_iff.mp hhead
    exact hslash after rfl
  · rfl

theorem docStar_isSome_iff {text : List Char}
    : (docStar text).isSome ↔ text.head? = some '*' ∧ text.tail.head? ≠ some '/' := by
  cases text with
  | nil => simp [docStar]
  | cons c text =>
      by_cases hc : c = '*'
      · subst hc
        by_cases hslash : text.head? = some '/'
        · obtain ⟨rest, rfl⟩ := List.head?_eq_some_iff.mp hslash
          simp [docStar]
        · simp [docStar_star hslash, hslash]
      · simp [docStar_other hc, hc]

/-- The kind of what the trial of the second star finds. -/
def starKind (text : List Char) : TokenKind :=
  if (docStar text).isSome then .docComment else .comment

/-- Behind the opening mark, one character tells the kind, if it is not part of a closing mark. -/
theorem kindOf_opened {inner text : List Char}
    (same
      : ['*'] <+: inner ∧ inner ≠ ['*', '/']
        ↔ text.head? = some '*' ∧ text.tail.head? ≠ some '/')
    : kindOf ('/' :: '*' :: inner) = starKind text := by
  have hmarks
      : ['/', '*', '*'] <+: '/' :: '*' :: inner ∧ '/' :: '*' :: inner ≠ ['/', '*', '*', '/']
        ↔ ['*'] <+: inner ∧ inner ≠ ['*', '/'] := by
    simp [List.cons_prefix_cons]
  simp only [kindOf, starKind, docStar_isSome_iff, hmarks, same]

theorem kindOf_of_endsFirst {body : List Char} (first : EndsFirst body) (rest : List Char)
    : kindOf ('/' :: '*' :: (body ++ ['*', '/'])) = starKind (body ++ '*' :: '/' :: rest) := by
  refine kindOf_opened ?_
  match body with
  | [] => simp
  | [c] => simp [List.cons_prefix_cons, @eq_comm _ '*']
  | c :: d :: body =>
      have hmark : c = '*' → d ≠ '/' := by
        rintro rfl rfl
        have hnil := first [] (body ++ ['*', '/']) rfl
        simp at hnil
      simpa [List.cons_prefix_cons, @eq_comm _ '*'] using hmark

theorem kindOf_of_open {text : List Char} (unclosed : Open text)
    : kindOf ('/' :: '*' :: text) = starKind text := by
  refine kindOf_opened ?_
  match text with
  | [] => simp
  | [c] => simp [List.cons_prefix_cons, @eq_comm _ '*']
  | c :: d :: text =>
      have hmark : c = '*' → d ≠ '/' := by
        rintro rfl rfl
        exact unclosed [] text rfl
      simp only [List.cons_prefix_cons, List.nil_prefix, and_true, @eq_comm _ '*',
        List.head?_cons, List.tail_cons, Option.some.injEq, ne_eq, List.cons.injEq, not_and]
      constructor
      · rintro ⟨hc, -⟩
        exact ⟨hc, hmark hc⟩
      · rintro ⟨hc, hd⟩
        exact ⟨hc, fun _ he => absurd he hd⟩

-----------------------------------------------------------------------------------------
-- The whole comment
-----------------------------------------------------------------------------------------

theorem speculate_docStar_isSome (p : Probe)
    : (p.speculate docStar).1.isSome = (docStar p.rest).isSome := by
  cases h : docStar p.rest with
  | none => rw [Probe.speculate_of_none h]; rfl
  | some found => rw [Probe.speculate_of_some h]; rfl

/-- What is read of a block comment, by the first closing mark and the second star. -/
theorem block_eq {p : Probe} {text : List Char} (opens : p.rest = '/' :: '*' :: text)
    : ∃ next : Probe,
        next.rest = (afterClose text).getD []
        ∧ block p
          = if (afterClose text).isSome then .plain (starKind text) next
            else .unterminated (starKind text) next p.rest (faultOf (starKind text)) := by
  have hskip : (p.skip 2).rest = text := by
    rw [Probe.skip, Probe.moveTo, opens]
    rfl
  have hclose : afterClose ((p.skip 2).speculate docStar).2.rest = afterClose text := by
    rw [Probe.speculate_rest, hskip, afterClose_docStar]
  have hstar := speculate_docStar_isSome (p.skip 2)
  rw [hskip] at hstar
  refine ⟨((p.skip 2).speculate docStar).2.moveTo ((afterClose text).getD []), rfl, ?_⟩
  simp only [block, hclose, hstar, starKind]
  generalize (docStar text).isSome = star
  cases star <;> cases afterClose text <;> rfl

/-- A text with an opening mark begins a shortest closed comment, which is what is read of it, or no
closed one, and then all of it is read. -/
theorem block_decided {p : Probe} {text : List Char} (opens : p.rest = '/' :: '*' :: text)
    : (∃ comment next,
        ShortestClosed p.rest comment
        ∧ p.rest = comment ++ next.rest
        ∧ block p = .plain (kindOf comment) next)
      ∨ (∀ comment, ¬ Closed p.rest comment)
        ∧ ∃ next,
            next.rest = []
            ∧ block p
              = .unterminated (kindOf p.rest) next p.rest (faultOf (kindOf p.rest)) := by
  obtain ⟨next, hnext, hblock⟩ := block_eq opens
  cases hclose : afterClose text with
  | some rest =>
      obtain ⟨body, first, rfl⟩ := exists_body hclose
      rw [hclose] at hnext hblock
      refine .inl ⟨'/' :: '*' :: (body ++ ['*', '/']), next, ?_, ?_, ?_⟩
      · rw [opens]
        exact shortestClosed_of_endsFirst first rest
      · rw [opens, hnext]
        simp
      · rw [hblock, kindOf_of_endsFirst first rest]
        rfl
  | none =>
      have unclosed := afterClose_eq_none_iff.mp hclose
      rw [hclose] at hnext hblock
      refine .inr ⟨?_, next, hnext, ?_⟩
      · rw [opens]
        exact not_closed_of_open unclosed
      · rw [hblock, opens, kindOf_of_open unclosed]
        rfl

-----------------------------------------------------------------------------------------
-- Notes of sources
-----------------------------------------------------------------------------------------

/-- A run of blanks within a line. -/
structure IsGap (gap : List Char) : Prop where
  filled : gap ≠ []
  blank : ∀ c ∈ gap, isInlineBlank c = true

end Comment

/-- A note of the file and the line that a text comes from, by its parts. -/
structure SourceNote where
  beforeWord : List Char
  beforeFile : List Char
  file : List Char
  beforeLine : List Char
  digits : List Char
  wordGap : Comment.IsGap beforeWord
  fileGap : Comment.IsGap beforeFile
  quoted : Enclosed '"' file
  lineGap : Comment.IsGap beforeLine
  filled : digits ≠ []
  decimal : ∀ c ∈ digits, c.isDigit = true
  fits : decimalValue digits < sizeBound

namespace SourceNote

/-- The text of a note behind the two slashes of its comment. -/
def body (n : SourceNote) : List Char :=
  " $ANTLR".toList
  ++ (n.beforeWord
    ++ ("src".toList
      ++ (n.beforeFile ++ '"' :: (n.file ++ '"' :: (n.beforeLine ++ n.digits)))))

theorem body_append (n : SourceNote) (rest : List Char)
    : n.body ++ rest
      = " $ANTLR".toList
        ++ (n.beforeWord
          ++ ("src".toList
            ++ (n.beforeFile
              ++ '"' :: (n.file ++ '"' :: (n.beforeLine ++ (n.digits ++ rest)))))) := by
  have hassoc (mark word : List Char)
      : mark
          ++ (n.beforeWord
            ++ (word
              ++ (n.beforeFile ++ '"' :: (n.file ++ '"' :: (n.beforeLine ++ n.digits)))))
          ++ rest
        = mark
          ++ (n.beforeWord
            ++ (word
              ++ (n.beforeFile
                ++ '"' :: (n.file ++ '"' :: (n.beforeLine ++ (n.digits ++ rest)))))) := by
    simp only [List.append_assoc, List.cons_append]
  exact hassoc _ _

def text (n : SourceNote) : List Char := '/' :: '/' :: n.body

def line (n : SourceNote) : Nat := decimalValue n.digits

/-- A text begins with a note, and the line number in it does not go on. -/
def Heads (n : SourceNote) (text : List Char) : Prop :=
  ∃ rest, text = n.text ++ rest ∧ ∀ c ∈ rest.head?, c.isDigit = false

end SourceNote

namespace Comment

theorem after?_eq_some_iff {word : String} {text rest : List Char}
    : after? word text = some rest ↔ text = word.toList ++ rest := by
  rw [after?]
  constructor
  · intro h
    split at h
    · rename_i hfront
      obtain ⟨after, rfl⟩ := List.isPrefixOf_iff_prefix.mp hfront
      rw [← String.length_toList, List.drop_left] at h
      rw [Option.some.inj h]
    · cases h
  · rintro rfl
    rw [if_pos (List.isPrefixOf_iff_prefix.mpr (List.prefix_append _ _)), ← String.length_toList,
      List.drop_left]

/-- The blanks at the front are all passed. -/
theorem afterBlanks?_eq_some_iff {text rest : List Char}
    : afterBlanks? text = some rest
      ↔ ∃ gap, IsGap gap ∧ text = gap ++ rest ∧ ∀ c ∈ rest.head?, isInlineBlank c = false := by
  simp only [afterBlanks?]
  constructor
  · intro h
    split at h
    · rename_i hshort
      obtain rfl := Option.some.inj h
      have hsplit := List.takeWhile_append_dropWhile (p := isInlineBlank) (l := text)
      refine ⟨text.takeWhile isInlineBlank, ?_, hsplit.symm, ?_⟩
      · refine { filled := ?_, blank := List.all_eq_true.mp List.all_takeWhile }
        intro hempty
        rw [hempty, List.nil_append] at hsplit
        rw [hsplit] at hshort
        exact Nat.lt_irrefl _ hshort
      · intro c hc
        have hstop := List.head?_dropWhile_not isInlineBlank text
        rw [hc] at hstop
        simpa using hstop
    · cases h
  · rintro ⟨gap, isGap, rfl, hstop⟩
    rw [dropWhile_exact isGap.blank hstop, if_pos]
    have hpos := List.length_pos_iff.mpr isGap.filled
    rw [List.length_append]
    omega

theorem fileName?_eq_some_iff {text rest file : List Char}
    : fileName? text = some (file, rest)
      ↔ Enclosed '"' file ∧ text = '"' :: (file ++ '"' :: rest) := by
  constructor
  · intro h
    unfold fileName? at h
    split at h
    · rename_i inner
      obtain ⟨after, hafter, hfound⟩ := Option.map_eq_some_iff.mp h
      obtain ⟨hfile, rfl⟩ := Prod.mk.inj hfound
      obtain ⟨body, enclosed, rfl⟩ :=
        (Quotation.rest?_eq_some_iff (by decide) (by decide)).mp hafter
      have hquoted : body ++ '"' :: after = (body ++ ['"']) ++ after := by simp
      rw [hquoted, textBefore_append, List.dropLast_concat] at hfile
      subst hfile
      exact ⟨enclosed, rfl⟩
    · cases h
  · rintro ⟨enclosed, rfl⟩
    have hrest : Quotation.rest? '"' (file ++ '"' :: rest) = some rest :=
      (Quotation.rest?_eq_some_iff (by decide) (by decide)).mpr ⟨file, enclosed, rfl⟩
    have hquoted : file ++ '"' :: rest = (file ++ ['"']) ++ rest := by simp
    rw [fileName?, hrest, Option.map_some, hquoted, textBefore_append, List.dropLast_concat]

theorem lineNumber?_eq_some_iff {text rest : List Char} {line : Nat}
    : lineNumber? text = some (line, rest)
      ↔ ∃ digits,
          (digits ≠ [] ∧ (∀ c ∈ digits, c.isDigit = true) ∧ decimalValue digits < sizeBound)
          ∧ text = digits ++ rest
          ∧ (∀ c ∈ rest.head?, c.isDigit = false)
          ∧ line = decimalValue digits := by
  simp only [lineNumber?]
  constructor
  · intro h
    split at h
    · cases h
    · rename_i hvalid
      simp only [Bool.or_eq_true, List.isEmpty_iff, decide_eq_true_eq, not_or, Nat.not_le]
        at hvalid
      obtain ⟨hline, hrest⟩ := Prod.mk.inj (Option.some.inj h)
      refine ⟨text.takeWhile Char.isDigit, ⟨hvalid.1, ?_, hvalid.2⟩, ?_, ?_, hline.symm⟩
      · exact List.all_eq_true.mp List.all_takeWhile
      · rw [← hrest, List.takeWhile_append_dropWhile]
      · intro c hc
        have hstop := List.head?_dropWhile_not Char.isDigit text
        rw [hrest, hc] at hstop
        simpa using hstop
  · rintro ⟨digits, ⟨hfilled, hdecimal, hfits⟩, rfl, hstop, rfl⟩
    rw [takeWhile_exact hdecimal hstop, dropWhile_exact hdecimal hstop, if_neg]
    simp only [Bool.or_eq_true, List.isEmpty_iff, decide_eq_true_eq, not_or, Nat.not_le]
    exact ⟨hfilled, hfits⟩

/-- A line number does not begin with a blank. -/
theorem digits_stop {digits : List Char} (filled : digits ≠ [])
    (decimal : ∀ c ∈ digits, c.isDigit = true) (rest : List Char)
    : ∀ c ∈ (digits ++ rest).head?, isInlineBlank c = false := by
  obtain ⟨d, digits, rfl⟩ := List.exists_cons_of_ne_nil filled
  rintro c ⟨⟩
  rw [Bool.eq_false_iff]
  intro hblank
  have hfront := isBlank_front (c := d) (by rw [isBlank, hblank, Bool.true_or])
  rw [decimal d List.mem_cons_self] at hfront
  cases hfront.1

/-- The trial of a directive finds exactly the notes, each reading one part of the note. -/
theorem directive_eq_some_iff {text rest file : List Char} {line : Nat}
    : directive text = some ((file, line), rest)
      ↔ ∃ n : SourceNote,
          text = n.body ++ rest
          ∧ (∀ c ∈ rest.head?, c.isDigit = false)
          ∧ file = n.file
          ∧ line = n.line := by
  constructor
  · intro h
    simp only [directive, Option.bind_eq_bind, Option.bind_eq_some_iff] at h
    obtain ⟨t₁, hfront, t₂, hwordGap, t₃, hword, t₄, hfileGap, ⟨name, t₅⟩, hname, t₆, hlineGap,
      ⟨number, t₇⟩, hnumber, hfound⟩ := h
    obtain ⟨hpair, rfl⟩ := Prod.mk.inj (Option.some.inj hfound)
    obtain ⟨rfl, rfl⟩ := Prod.mk.inj hpair
    rw [after?_eq_some_iff] at hfront hword
    obtain ⟨beforeWord, wordGap, rfl, -⟩ := afterBlanks?_eq_some_iff.mp hwordGap
    obtain ⟨beforeFile, fileGap, rfl, -⟩ := afterBlanks?_eq_some_iff.mp hfileGap
    obtain ⟨quoted, rfl⟩ := fileName?_eq_some_iff.mp hname
    obtain ⟨beforeLine, lineGap, rfl, -⟩ := afterBlanks?_eq_some_iff.mp hlineGap
    obtain ⟨digits, ⟨filled, decimal, fits⟩, rfl, hstop, hline⟩ := lineNumber?_eq_some_iff.mp hnumber
    let n : SourceNote :=
      {
        beforeWord, beforeFile, file := name, beforeLine, digits
        wordGap, fileGap, quoted, lineGap, filled, decimal, fits
      }
    refine ⟨n, ?_, hstop, rfl, hline⟩
    rw [hfront, hword]
    exact (n.body_append t₇).symm
  · rintro ⟨n, rfl, hstop, rfl, rfl⟩
    rw [n.body_append]
    simp only [directive, Option.bind_eq_bind, Option.bind_eq_some_iff]
    refine ⟨_, after?_eq_some_iff.mpr rfl, _, afterBlanks?_eq_some_iff.mpr ⟨_, n.wordGap, rfl, ?_⟩,
      _, after?_eq_some_iff.mpr rfl, _, afterBlanks?_eq_some_iff.mpr ⟨_, n.fileGap, rfl, ?_⟩,
      _, fileName?_eq_some_iff.mpr ⟨n.quoted, rfl⟩, _,
      afterBlanks?_eq_some_iff.mpr ⟨_, n.lineGap, rfl, digits_stop n.filled n.decimal rest⟩,
      _, lineNumber?_eq_some_iff.mpr ⟨_, ⟨n.filled, n.decimal, n.fits⟩, rfl, hstop, rfl⟩, rfl⟩
    · rintro c ⟨⟩
      rfl
    · rintro c ⟨⟩
      rfl

-----------------------------------------------------------------------------------------
-- Line comments
-----------------------------------------------------------------------------------------

/-- The note that is found at the front of a line, and what is left of the line behind it. -/
def originOf (line tail : List Char) : Option Origin :=
  (directive line).map
    (fun found => { file := found.1.1, line := found.1.2, stop := found.2 ++ tail })

/-- What is read of a line comment: its line, and the note at the front of the line. Wherever the
trial of the note breaks off or ends, it stays in the line.
-/
theorem line_eq {p : Probe} {text : List Char} (opens : p.rest = '/' :: '/' :: text)
    : ∃ next : Probe,
        next.rest = afterLine text
        ∧ line p
          = {
              kind := .comment
              next
              faults := []
              origin := originOf (firstLine text) (afterLine text)
            } := by
  have hskip : (p.skip 2).rest = text := by
    rw [Probe.skip, Probe.moveTo, opens]
    rfl
  have halone
      : directive text
        = (directive (firstLine text)).map (fun found => (found.1, found.2 ++ afterLine text)) := by
    rw [← directive_alone (afterLine_ends text), firstLine_append]
  refine ⟨((p.skip 2).speculate directive).2.skipWhile (fun c => !isLineBreak c), ?_, ?_⟩
  · change afterLine ((p.skip 2).speculate directive).2.rest = afterLine text
    rw [Probe.speculate_rest, hskip, halone]
    cases hfound : directive (firstLine text) with
    | none => rfl
    | some found =>
        have hs : found.2 <:+ firstLine text := directive_suffix hfound
        exact afterLine_append (fun c hc => firstLine_line text c (hs.subset hc))
          (afterLine_ends text)
  · cases hfound : directive (firstLine text) with
    | none =>
        have hwhole : directive (p.skip 2).rest = none := by
          rw [hskip, halone, hfound]
          rfl
        rw [line, Probe.speculate_of_none hwhole, originOf, hfound]
        rfl
    | some found =>
        have hwhole : directive (p.skip 2).rest = some (found.1, found.2 ++ afterLine text) := by
          rw [hskip, halone, hfound]
          rfl
        rw [line, Probe.speculate_of_some hwhole, originOf, hfound]
        rfl

end Comment

end GrammarFrontend
