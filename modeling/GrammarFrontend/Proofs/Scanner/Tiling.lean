import GrammarFrontend.Proofs.Scanner.Steps
import GrammarFrontend.Proofs.Source.Excerpt
import Mathlib.Data.List.Chain

/-! Nothing of a source is lost: the tokens and the discarded input of a run, merged by where they
start, tile the source. Each step lays one item after the ones before; the order of the starts then
makes the merge of tokens and discarded input the sequence of the steps.
-/

namespace GrammarFrontend

-----------------------------------------------------------------------------------------
-- Items laid end to end
-----------------------------------------------------------------------------------------

/-- The texts of items one after another. -/
def textOf (items : List Token) : List Char := items.flatMap (·.text.toList)

/-- Items lie end to end from `p` to `q`: each one begins where the one before it ends, takes at
least one character, and ends where moving over its text leads.
-/
def Laid : Position → List Token → Position → Prop
  | p, [], q => p = q
  | p, t :: items, q =>
      t.span.start = p
      ∧ t.text.toList ≠ []
      ∧ t.span.stop = p.advanceOver t.text.toList
      ∧ Laid t.span.stop items q

/-- Items end where moving over all their texts leads, by induction on the items. -/
theorem Laid.stop_eq {p q : Position} {items : List Token} (h : Laid p items q)
    : q = p.advanceOver (textOf items) := by
  induction items generalizing p with
  | nil => exact h.symm
  | cons t items ih =>
      obtain ⟨-, -, stop, rest⟩ := h
      rw [ih rest, stop, ← Position.advanceOver_append]
      rfl

/-- Every item begins at or after the first place and ends after it begins, at or before the last
place, by induction on the items.
-/
theorem Laid.offsets {p q : Position} {items : List Token} (h : Laid p items q)
    : p.offset ≤ q.offset
      ∧ ∀ t ∈ items,
          p.offset ≤ t.span.start.offset
          ∧ t.span.start.offset < t.span.stop.offset
          ∧ t.span.stop.offset ≤ q.offset := by
  induction items generalizing p with
  | nil =>
      obtain rfl : p = q := h
      simp
  | cons t items ih =>
      obtain ⟨start, filled, stop, rest⟩ := h
      obtain ⟨below, inside⟩ := ih rest
      have hlen := utf8Length_pos filled
      have hstop : t.span.stop.offset = p.offset + utf8Length t.text.toList := by
        rw [stop, Position.advanceOver_offset]
      refine ⟨by omega, ?_⟩
      intro u hu
      rcases List.mem_cons.mp hu with rfl | hu
      · rw [start]
        omega
      · obtain ⟨hstart, hlt, hle⟩ := inside u hu
        omega

/-- Items laid end to end begin one after another, by induction on the items. -/
theorem Laid.pairwise {p q : Position} {items : List Token} (h : Laid p items q)
    : items.Pairwise (fun a b => a.span.start.offset < b.span.start.offset) := by
  induction items generalizing p with
  | nil => exact .nil
  | cons t items ih =>
      obtain ⟨start, filled, stop, rest⟩ := h
      refine List.pairwise_cons.mpr ⟨?_, ih rest⟩
      intro u hu
      have hu := (rest.offsets.2 u hu).1
      have ht := ((show Laid p (t :: items) q from ⟨start, filled, stop, rest⟩).offsets.2 t
        (by simp)).2.1
      omega

/-- The text of each item is the text of its span in what the items cover. The induction moves the
items before it into the part of the source that lies before the first place.
-/
theorem Laid.textIn? {p q : Position} {items : List Token} (h : Laid p items q)
    {before after : List Char} (hp : p.offset = utf8Length before)
    : ∀ t ∈ items, t.span.textIn? (before ++ (textOf items ++ after)) = some t.text.toList := by
  induction items generalizing p before with
  | nil => simp
  | cons t items ih =>
      obtain ⟨start, -, stop, rest⟩ := h
      have hstop : t.span.stop.offset = utf8Length before + utf8Length t.text.toList := by
        rw [stop, Position.advanceOver_offset, hp]
      have hsource
          : before ++ (textOf (t :: items) ++ after)
            = before ++ (t.text.toList ++ (textOf items ++ after)) := by
        simp [textOf]
      intro u hu
      rw [hsource]
      rcases List.mem_cons.mp hu with rfl | hu
      · exact Span.textIn?_of_split rfl (by rw [start, hp]) hstop
      · rw [← List.append_assoc]
        exact ih rest (by rw [hstop, utf8Length_append]) u hu

/-- Two neighbours meet: the second begins where the first one ends. -/
theorem Laid.isChain {p q : Position} {items : List Token} (h : Laid p items q)
    : (items ++ [Token.eofAt q]).IsChain (fun a b => b.span.start = a.span.stop) := by
  induction items generalizing p with
  | nil => exact .singleton _
  | cons t items ih =>
      obtain ⟨-, -, -, rest⟩ := h
      rw [List.cons_append, List.isChain_cons]
      refine ⟨?_, ih rest⟩
      intro next hn
      cases items with
      | nil =>
          obtain rfl : Token.eofAt q = next := by simpa using hn
          exact rest.symm
      | cons u items =>
          obtain rfl : u = next := by simpa using hn
          exact rest.1

-----------------------------------------------------------------------------------------
-- Merging what was kept with what was dropped
-----------------------------------------------------------------------------------------

/-- Where one of the two sides has to go first, merging the two parts of a list gives the list
again, by induction on it.
-/
theorem merge_filter_filter_not {α : Type} (p : α → Bool) (goesFirst : α → α → Bool)
    {items : List α}
    (h : items.Pairwise (fun a b => goesFirst a b = true ∧ goesFirst b a = false))
    : (items.filter p).merge (items.filter (!p ·)) goesFirst = items := by
  induction items with
  | nil => simp
  | cons a items ih =>
      obtain ⟨head, tail⟩ := List.pairwise_cons.mp h
      have rest := ih tail
      cases hp : p a with
      | true =>
          rw [List.filter_cons_of_pos hp, List.filter_cons_of_neg (by simp [hp])]
          cases hd : items.filter (!p ·) with
          | nil =>
              rw [hd, List.merge_right] at rest
              rw [List.merge_right, rest]
          | cons b dropped =>
              have hb : b ∈ items := (List.mem_filter.mp (hd ▸ List.mem_cons_self)).1
              rw [List.cons_merge_cons_pos goesFirst _ _ (head b hb).1, ← hd, rest]
      | false =>
          rw [List.filter_cons_of_neg (by simp [hp]), List.filter_cons_of_pos (by simp [hp])]
          cases hk : items.filter p with
          | nil =>
              rw [hk, List.nil_merge] at rest
              rw [List.nil_merge, rest]
          | cons b kept =>
              have hb : b ∈ items := (List.mem_filter.mp (hk ▸ List.mem_cons_self)).1
              have hn : ¬ goesFirst b a = true := by simp [(head b hb).2]
              rw [List.cons_merge_cons_neg goesFirst _ _ hn, ← hk, rest]

-----------------------------------------------------------------------------------------
-- What runs leave behind
-----------------------------------------------------------------------------------------

namespace Lexer

/-- The items of a run lie end to end between the places of the cursor, and their texts and what
is left in the end make up what was left in the beginning. The induction is on the steps; a change
of the mode moves nothing.
-/
theorem Scans.laid {l last : Lexer} {steps : List Step} (run : Scans l steps last)
    : Laid l.cursor.position (steps.map (·.item)) last.cursor.position
      ∧ textOf (steps.map (·.item)) ++ last.cursor.rest = l.cursor.rest := by
  induction run with
  | refl l => exact ⟨rfl, rfl⟩
  | @step s steps last found more ih =>
      obtain ⟨laid, text⟩ := ih
      refine ⟨⟨s.item_start, s.item_text_ne_nil found, s.item_stop, laid⟩, ?_⟩
      calc textOf ((s :: steps).map (·.item)) ++ last.cursor.rest
          = s.item.text.toList ++ (textOf (steps.map (·.item)) ++ last.cursor.rest) := by
            simp [textOf]
        _ = s.item.text.toList ++ s.lexeme.rest := by rw [text]; rfl
        _ = s.lexer.cursor.rest := s.item_text_append found
  | setMode mode more ih => exact ih

/-- A run hands out the items that are not discarded, in order, by induction on the steps. -/
theorem Scans.tokens {l last : Lexer} {steps : List Step} (run : Scans l steps last)
    : last.tokens = l.tokens ++ (steps.map (·.item)).filter (!·.kind.isDiscarded) := by
  induction run with
  | refl l => simp
  | @step s steps last found more ih =>
      rw [ih, s.after_tokens, List.append_assoc, ← List.filter_append]
      rfl
  | setMode mode more ih => exact ih

/-- A run keeps the other items with the discarded input, in order, by induction on the steps. -/
theorem Scans.discarded {l last : Lexer} {steps : List Step} (run : Scans l steps last)
    : last.discarded.reverse
      = l.discarded.reverse ++ (steps.map (·.item)).filter (·.kind.isDiscarded) := by
  induction run with
  | refl l => simp
  | @step s steps last found more ih =>
      rw [ih, s.after_discarded, List.append_assoc, ← List.filter_append]
      rfl
  | setMode mode more ih => exact ih

/-- No item of a run is the end of the input, by induction on the steps. -/
theorem Scans.kind_ne_eof {l last : Lexer} {steps : List Step} (run : Scans l steps last)
    : ∀ t ∈ steps.map (·.item), t.kind ≠ .eof := by
  induction run with
  | refl l => simp
  | @step s steps last found more ih =>
      intro t ht
      rcases List.mem_cons.mp ht with rfl | ht
      · exact s.item_kind_ne_eof found
      · exact ih t ht
  | setMode mode more ih => exact ih

/-- The merged items of a finished run from the beginning are the items of its steps and then the
end of the input, because the steps begin one after another.
-/
theorem Scans.stream_items {source : List Char} {config : ScannerConfig} {naming : Naming}
    {steps : List Step} {last : Lexer} (run : Scans (create source config naming) steps last)
    : last.stream.items = steps.map (·.item) ++ [.eofAt last.cursor.position]
      ∧ last.stream.tokens = last.stream.items.filter (!·.kind.isDiscarded)
      ∧ last.stream.discarded = last.stream.items.filter (·.kind.isDiscarded) := by
  obtain ⟨laid, -⟩ := run.laid
  let items := steps.map (·.item) ++ [Token.eofAt last.cursor.position]
  have htokens : last.stream.tokens = items.filter (!·.kind.isDiscarded) := by
    have hrun := run.tokens
    have hend : (Token.eofAt last.cursor.position).kind.isDiscarded = false := rfl
    simp only [create, Lexer.tokens, Scanner.tokens, Scanner.create, List.reverse_nil,
      List.nil_append] at hrun
    simp [stream, Lexer.tokens, Scanner.tokens, hrun, items, hend]
  have hdiscarded : last.stream.discarded = items.filter (·.kind.isDiscarded) := by
    have hrun := run.discarded
    have hend : (Token.eofAt last.cursor.position).kind.isDiscarded = false := rfl
    simp only [create, List.reverse_nil, List.nil_append] at hrun
    simp [stream, hrun, items, hend]
  have hsorted : items.Pairwise (fun a b => a.span.start.offset < b.span.start.offset) := by
    refine List.pairwise_append.mpr ⟨laid.pairwise, List.pairwise_singleton _ _, ?_⟩
    intro t ht u hu
    obtain rfl := List.mem_singleton.mp hu
    have hoffsets := laid.offsets.2 t ht
    have hend : (Token.eofAt last.cursor.position).span.start = last.cursor.position := rfl
    rw [hend]
    omega
  have hitems : last.stream.items = items := by
    rw [TokenStream.items, htokens, hdiscarded]
    have hmerge := merge_filter_filter_not (fun t : Token => !t.kind.isDiscarded)
      (fun kept dropped : Token => decide (kept.span.start.offset ≤ dropped.span.start.offset))
      (hsorted.imp (fun h => by simp; omega))
    simpa using hmerge
  exact ⟨hitems, by rw [hitems, htokens], by rw [hitems, hdiscarded]⟩

end Lexer

-----------------------------------------------------------------------------------------
-- The tiling of a source
-----------------------------------------------------------------------------------------

/-- The items of a stream tile a source: they start at its first place, meet end to end, have the
texts of their spans, and end with the only token for the end of the input. The marks of byte order
and the characters that begin no token are discarded, and nothing else is.
-/
structure TokenStream.Tiles (s : TokenStream) (source : List Char) : Prop where
  first : s.items.head?.map (·.span.start) = some .start
  meets : s.items.IsChain (fun a b => b.span.start = a.span.stop)
  text : ∀ t ∈ s.items, t.span.textIn? source = some t.text.toList
  stop : ∀ t ∈ s.items, t.span.stop = t.span.start.advanceOver t.text.toList
  filled : ∀ t ∈ s.items.dropLast, t.text ≠ ""
  discarded
    : s.discarded = s.items.filter (fun t => t.kind = .byteOrderMark ∨ t.kind = .errorChar)
  kept : s.tokens = s.items.filter (fun t => ¬ (t.kind = .byteOrderMark ∨ t.kind = .errorChar))
  last
    : ∃ p, p.offset = utf8Length source
        ∧ s.items.getLast? = some (.eofAt p)
        ∧ s.tokens.getLast? = some (.eofAt p)
  eofOnlyLast : ∀ t ∈ s.items.dropLast, t.kind ≠ .eof

/-- The discarded kinds are those of marks of byte order and of characters that begin no token. -/
theorem TokenKind.isDiscarded_eq (kind : TokenKind)
    : kind.isDiscarded = decide (kind = .byteOrderMark ∨ kind = .errorChar) := by
  cases kind <;> rfl

/-- The merged texts of a run to the end of the input are the whole source. -/
theorem Lexer.Scans.textOf_items {source : List Char} {config : ScannerConfig} {naming : Naming}
    {steps : List Step} {last : Lexer} (run : Scans (create source config naming) steps last)
    (final : last.cursor.rest = [])
    : textOf (steps.map (·.item)) = source := by
  have htext := run.laid.2
  rw [final, List.append_nil] at htext
  exact htext

/-- A run to the end of the input leaves a stream that tiles the source. -/
theorem Lexer.Scans.stream_tiles {source : List Char} {config : ScannerConfig} {naming : Naming}
    {steps : List Step} {last : Lexer} (run : Scans (create source config naming) steps last)
    (final : last.cursor.rest = [])
    : last.stream.Tiles source := by
  obtain ⟨laid, -⟩ := run.laid
  obtain ⟨hitems, hkept, hdiscarded⟩ := run.stream_items
  have htext := run.textOf_items final
  have hend : last.cursor.position.offset = utf8Length source := by
    rw [laid.stop_eq, Position.advanceOver_offset, htext]
    exact Nat.zero_add _
  constructor
  case first =>
    rw [hitems]
    cases steps with
    | nil => exact congrArg some (show _ = last.cursor.position from laid).symm
    | cons s steps => exact congrArg some laid.1
  case meets => exact hitems ▸ laid.isChain
  case text =>
    intro t ht
    rcases List.mem_append.mp (hitems ▸ ht) with ht | ht
    · have hin
          : t.span.textIn? ([] ++ (textOf (steps.map (·.item)) ++ [])) = some t.text.toList :=
        laid.textIn? rfl t ht
      rwa [List.append_nil, List.nil_append, htext] at hin
    · obtain rfl := List.mem_singleton.mp ht
      have hsplit : source = source ++ ([] ++ []) := by simp
      exact Span.textIn?_of_split hsplit hend hend
  case stop =>
    intro t ht
    rcases List.mem_append.mp (hitems ▸ ht) with ht | ht
    · obtain ⟨s, -, rfl⟩ := List.mem_map.mp ht
      exact s.item_stop
    · obtain rfl := List.mem_singleton.mp ht
      rfl
  case filled =>
    intro t ht he
    rw [hitems, List.dropLast_concat] at ht
    have hlt := (laid.offsets.2 t ht).2.1
    obtain ⟨s, -, rfl⟩ := List.mem_map.mp ht
    rw [s.item_stop, he] at hlt
    exact Nat.lt_irrefl _ hlt
  case discarded => simpa only [TokenKind.isDiscarded_eq] using hdiscarded
  case kept => simpa only [TokenKind.isDiscarded_eq, decide_not] using hkept
  case last =>
    refine ⟨last.cursor.position, hend, by simp [hitems], ?_⟩
    simp [stream]
  case eofOnlyLast =>
    intro t ht
    rw [hitems, List.dropLast_concat] at ht
    exact run.kind_ne_eof t ht

/-- However tokens are pulled and the mode is changed before the rest is scanned, the stream tiles
the source, and its texts give back the source.
-/
theorem Lexer.tokenize_tiles (source : List Char) (config : ScannerConfig) (naming : Naming)
    (requests : List Request)
    : let stream := ((create source config naming).serveAll requests).tokenize
      stream.Tiles source ∧ stream.reconstruct = String.ofList source := by
  obtain ⟨steps, run, final⟩ := serveAll_drain_scans (create source config naming) requests
  refine ⟨run.stream_tiles final, ?_⟩
  have htext := run.textOf_items final
  rw [tokenize, TokenStream.reconstruct, run.stream_items.1, ← htext]
  simp [textOf, Token.eofAt, Token.visible]

end GrammarFrontend
