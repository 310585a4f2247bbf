import GrammarFrontend.Lexeme.Basic
import GrammarFrontend.Lexeme.Quotation
import GrammarFrontend.Source.Character
import GrammarFrontend.Source.Cursor
import GrammarFrontend.Source.Size

/-! Comments. A block comment runs to its first closing mark and is a documentation comment if a
second star opens it; a line comment runs to the end of the line and may name the file and line
that the text comes from.
-/

namespace GrammarFrontend.Comment

/-- What follows the first closing mark. -/
def afterClose : List Char → Option (List Char)
  | [] => none
  | '*' :: '/' :: text => some text
  | _ :: text => afterClose text

theorem afterClose_suffix {text rest : List Char} (h : afterClose text = some rest)
    : rest <:+ text := by
  fun_induction afterClose text with
  | case1 => simp at h
  | case2 text =>
      obtain rfl := Option.some.inj h
      exact List.suffix_append ['*', '/'] _
  | case3 c text _ ih => exact (ih h).trans (List.suffix_cons c text)

/-- The trial of the second star; a comment of two stars and nothing between is no
documentation. -/
def docStar : List Char → Option (Unit × List Char)
  | '*' :: '/' :: _ => none
  | '*' :: text => some ((), text)
  | _ => none

theorem docStar_suffix {text rest : List Char} {finding : Unit}
    (h : docStar text = some (finding, rest))
    : rest <:+ text := by
  unfold docStar at h
  split at h
  · simp at h
  · obtain ⟨-, rfl⟩ := Prod.mk.inj (Option.some.inj h)
    exact List.suffix_cons _ _
  · simp at h

/-- A block comment; the probe stands before its opening mark. -/
def block (p : Probe) : Lexeme :=
  let (star, body) := (p.skip 2).speculate docStar
  let kind : TokenKind := if star.isSome then .docComment else .comment
  match afterClose body.rest with
  | some rest => .plain kind (body.moveTo rest)
  | none =>
      .unterminated kind (body.moveTo []) p.rest
        (if star.isSome then .unterminatedDocComment else .unterminatedComment)

theorem block_suffix (p : Probe) : (block p).rest <:+ p.rest.drop 2 := by
  have hs : ((p.skip 2).speculate docStar).2.rest <:+ p.rest.drop 2 :=
    Probe.speculate_suffix (p.skip 2) (fun _ _ h => docStar_suffix h)
  simp only [block]
  split
  · rename_i rest h
    exact (afterClose_suffix h).trans hs
  · exact List.nil_suffix

/-- What follows `word`, if the text starts with it. -/
def after? (word : String) (text : List Char) : Option (List Char) :=
  if word.toList.isPrefixOf text then some (text.drop word.length) else none

/-- What follows the blanks at the front, of which there is at least one. -/
def afterBlanks? (text : List Char) : Option (List Char) :=
  let rest := text.dropWhile isInlineBlank
  if rest.length < text.length then some rest else none

/-- A quoted file name, without its quotes, and what follows it. -/
def fileName? : List Char → Option (List Char × List Char)
  | '"' :: text =>
      (Quotation.rest? '"' text).map (fun rest => ((textBefore text rest).dropLast, rest))
  | _ => none

/-- A line number, which fits in 64 bits, and what follows it. -/
def lineNumber? (text : List Char) : Option (Nat × List Char) :=
  let digits := text.takeWhile Char.isDigit
  if digits.isEmpty || sizeBound ≤ decimalValue digits then none
  else some (decimalValue digits, text.dropWhile Char.isDigit)

/-- The trial of a source directive, which stands right after the two slashes. -/
def directive (text : List Char) : Option ((List Char × Nat) × List Char) := do
  let text ← after? " $ANTLR" text
  let text ← afterBlanks? text
  let text ← after? "src" text
  let text ← afterBlanks? text
  let (file, text) ← fileName? text
  let text ← afterBlanks? text
  let (line, text) ← lineNumber? text
  return ((file, line), text)

theorem after?_suffix {word : String} {text rest : List Char} (h : after? word text = some rest)
    : rest <:+ text := by
  unfold after? at h
  split at h
  · obtain rfl := Option.some.inj h
    exact List.drop_suffix _ _
  · simp at h

theorem afterBlanks?_suffix {text rest : List Char} (h : afterBlanks? text = some rest)
    : rest <:+ text := by
  simp only [afterBlanks?] at h
  split at h
  · obtain rfl := Option.some.inj h
    exact List.dropWhile_suffix _
  · simp at h

theorem fileName?_suffix {text rest file : List Char} (h : fileName? text = some (file, rest))
    : rest <:+ text := by
  unfold fileName? at h
  split at h
  · rename_i text
    obtain ⟨after, ha, he⟩ := Option.map_eq_some_iff.mp h
    obtain ⟨-, rfl⟩ := Prod.mk.inj he
    exact (Quotation.rest?_suffix ha).trans
      ((List.tail_suffix text).trans (List.suffix_cons _ text))
  · simp at h

theorem lineNumber?_suffix {text rest : List Char} {line : Nat}
    (h : lineNumber? text = some (line, rest))
    : rest <:+ text := by
  simp only [lineNumber?] at h
  split at h
  · simp at h
  · obtain ⟨-, rfl⟩ := Prod.mk.inj (Option.some.inj h)
    exact List.dropWhile_suffix _

theorem directive_suffix {text rest : List Char} {finding : List Char × Nat}
    (h : directive text = some (finding, rest))
    : rest <:+ text := by
  simp only [directive, Option.bind_eq_bind, Option.bind_eq_some_iff] at h
  obtain ⟨t₁, h₁, t₂, h₂, t₃, h₃, t₄, h₄, ⟨file, t₅⟩, h₅, t₆, h₆, ⟨line, t₇⟩, h₇, h⟩ := h
  obtain ⟨-, rfl⟩ := Prod.mk.inj (Option.some.inj h)
  exact (lineNumber?_suffix h₇).trans <| (afterBlanks?_suffix h₆).trans <|
    (fileName?_suffix h₅).trans <| (afterBlanks?_suffix h₄).trans <| (after?_suffix h₃).trans <|
    (afterBlanks?_suffix h₂).trans (after?_suffix h₁)

/-- A line comment, without its line break; the probe stands before the two slashes. -/
def line (p : Probe) : Lexeme :=
  let (found, body) := (p.skip 2).speculate directive
  {
    kind := .comment
    next := body.skipWhile (fun c => !isLineBreak c)
    faults := []
    origin := found.map (fun (file, line) => { file, line, stop := body.rest })
  }

theorem line_suffix (p : Probe) : (line p).rest <:+ p.rest.drop 2 :=
  (List.dropWhile_suffix _).trans
    (Probe.speculate_suffix (p.skip 2) (fun _ _ h => directive_suffix h))

end GrammarFrontend.Comment
