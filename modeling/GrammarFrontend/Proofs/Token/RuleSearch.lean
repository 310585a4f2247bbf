import GrammarFrontend.Token.Mode
import Mathlib.Data.List.Basic
import Mathlib.Data.List.Induction

/-! The search for the rule of a colon, told by places in the sequence of kinds before it, and the
modes that a sequence of kinds leads through. The search along the history, the nearest kind first,
finds the same; it looks at few kinds, so that blank text and comments do not matter.
-/

namespace GrammarFrontend

/-- Blank text and comments, which may stand between any two tokens. -/
def TokenKind.isTrivia : TokenKind → Bool
  | blank | comment | docComment => true
  | _ => false

namespace ScanMode

-----------------------------------------------------------------------------------------
-- The search by places
-----------------------------------------------------------------------------------------

/-- The nearest place of an opener of an options block to the left of a place. -/
def openerBefore? (kinds : List TokenKind) : Nat → Option Nat
  | 0 => none
  | i + 1 => if kinds[i]? = some .optionsOpener then some i else openerBefore? kinds i

theorem openerBefore?_lt {kinds : List TokenKind} {i j : Nat}
    (h : openerBefore? kinds i = some j)
    : j < i := by
  induction i with
  | zero => cases h
  | succ i ih =>
      rw [openerBefore?] at h
      split at h
      · obtain rfl := Option.some.inj h
        exact Nat.lt_succ_self i
      · exact Nat.lt_succ_of_lt (ih h)

/-- The mode of the rule that a place belongs to, by the kinds to the left of it. The search goes
from right to left. At a right brace it jumps to the nearest opener of an options block and goes on
left of it; a left parenthesis ends it without a mode, and so does a right brace without an opener;
the name of a token or of a rule ends it with the mode of such a rule. No other kind matters.
-/
def ruleBefore? (kinds : List TokenKind) : Nat → Option ScanMode
  | 0 => none
  | i + 1 =>
      match kinds[i]? with
      | some .rightBrace =>
          match _ : openerBefore? kinds i with
          | some j => ruleBefore? kinds j
          | none => none
      | some .leftParen => none
      | some .tokenRef => some .lexerRule
      | some .ruleRef => some .parserRule
      | _ => ruleBefore? kinds i
termination_by i => i
decreasing_by
  · exact Nat.lt_succ_of_lt (openerBefore?_lt ‹_›)
  · exact Nat.lt_succ_self i

/-- The mode after tokens of these kinds. Only colons act: a colon sets the mode of its rule, if the
kinds before it tell the rule.
-/
def afterKinds (initial : ScanMode) (kinds : List TokenKind) : ScanMode :=
  (List.range kinds.length).foldl
    (fun mode i => if kinds[i]? = some .colon then (ruleBefore? kinds i).getD mode else mode)
    initial

-----------------------------------------------------------------------------------------
-- The search along the history
-----------------------------------------------------------------------------------------

/-- The history at a place begins with the kind to the left of it. -/
theorem reverse_take_succ (kinds : List TokenKind) (i : Nat)
    : (kinds.take (i + 1)).reverse = kinds[i]?.toList ++ (kinds.take i).reverse := by
  rw [List.take_add_one, List.reverse_append]
  cases kinds[i]? <;> rfl

/-- Passing over a block leads to the left of its opener, if there is one, by induction on the
place where the block ends.
-/
theorem searchRule_skipping (kinds : List TokenKind) (i : Nat)
    : searchRule true (kinds.take i).reverse
      = (openerBefore? kinds i).bind (fun j => ofHistory (kinds.take j).reverse) := by
  induction i with
  | zero => rfl
  | succ i ih =>
      rw [reverse_take_succ, openerBefore?]
      cases hk : kinds[i]? with
      | none => simpa using ih
      | some kind =>
          by_cases hopener : kind = .optionsOpener
          · simp [hopener, searchRule, ofHistory]
          · have hpassed : (kind != .optionsOpener) = true := bne_iff_ne.mpr hopener
            simpa [hopener, searchRule, hpassed] using ih

/-- The search by places finds what the search along the history finds, by induction on the place
after what stands to the left of a block.
-/
theorem ruleBefore?_eq (kinds : List TokenKind) (i : Nat)
    : ruleBefore? kinds i = ofHistory (kinds.take i).reverse := by
  fun_induction ruleBefore? kinds i with
  | case1 => rfl
  | case2 i hk j hj ih =>
      rw [reverse_take_succ, hk]
      simp only [Option.toList, List.singleton_append, ofHistory, searchRule]
      rw [searchRule_skipping, hj]
      exact ih
  | case3 i hk hj =>
      rw [reverse_take_succ, hk]
      simp only [Option.toList, List.singleton_append, ofHistory, searchRule]
      rw [searchRule_skipping, hj]
      rfl
  | case4 i hk | case5 i hk | case6 i hk =>
      rw [reverse_take_succ, hk]
      rfl
  | case7 i hbrace hparen htoken hrule ih =>
      rw [reverse_take_succ]
      cases hk : kinds[i]? with
      | none => exact ih
      | some kind =>
          rw [ih]
          simp only [Option.toList, List.singleton_append, ofHistory]
          cases kind <;> simp_all [searchRule]

-----------------------------------------------------------------------------------------
-- One more token
-----------------------------------------------------------------------------------------

/-- What stands at a place or to the right of it does not matter to the search. -/
theorem ruleBefore?_append {kinds : List TokenKind} {i : Nat} (hi : i ≤ kinds.length)
    (more : List TokenKind)
    : ruleBefore? (kinds ++ more) i = ruleBefore? kinds i := by
  rw [ruleBefore?_eq, ruleBefore?_eq, List.take_append_of_le_length hi]

/-- After one more token the mode is the same, unless the token is a colon whose rule can be told
from the kinds before it.
-/
theorem afterKinds_concat (initial : ScanMode) (kinds : List TokenKind) (kind : TokenKind)
    : afterKinds initial (kinds ++ [kind])
      = if kind = .colon then (ofHistory kinds.reverse).getD (afterKinds initial kinds)
        else afterKinds initial kinds := by
  have hearlier
      : (List.range kinds.length).foldl
          (fun mode i =>
            if (kinds ++ [kind])[i]? = some .colon
            then (ruleBefore? (kinds ++ [kind]) i).getD mode else mode)
          initial
        = afterKinds initial kinds := by
    refine List.foldl_ext _ _ _ ?_
    intro mode i hi
    have hlt : i < kinds.length := List.mem_range.mp hi
    rw [ruleBefore?_append (Nat.le_of_lt hlt), List.getElem?_append_left hlt]
  rw [afterKinds, List.length_append, List.length_singleton, List.range_succ, List.foldl_append,
    hearlier]
  simp [ruleBefore?_eq]

-----------------------------------------------------------------------------------------
-- Trivia
-----------------------------------------------------------------------------------------

/-- A token that is trivia is passed over, whether the search is in a block or not. -/
theorem searchRule_of_isTrivia {kind : TokenKind} (h : kind.isTrivia = true) (skipping : Bool)
    (earlier : List TokenKind)
    : searchRule skipping (kind :: earlier) = searchRule skipping earlier := by
  cases kind <;> cases h <;> cases skipping <;> rfl

/-- Trivia in the history do not matter, by induction on it. -/
theorem searchRule_filter (skipping : Bool) (earlier : List TokenKind)
    : searchRule skipping (earlier.filter (!·.isTrivia)) = searchRule skipping earlier := by
  induction earlier generalizing skipping with
  | nil => rfl
  | cons kind earlier ih =>
      cases htrivia : kind.isTrivia with
      | true => simpa [htrivia, searchRule_of_isTrivia htrivia] using ih skipping
      | false =>
          rw [List.filter_cons_of_pos (by simp [htrivia])]
          cases skipping with
          | true => exact ih _
          | false =>
              simp only [searchRule]
              split
              · exact ih true
              · rfl
              · rfl
              · rfl
              · exact ih false

/-- Trivia lead to no other mode, by induction on the kinds from the last one. -/
theorem afterKinds_filter (initial : ScanMode) (kinds : List TokenKind)
    : afterKinds initial (kinds.filter (!·.isTrivia)) = afterKinds initial kinds := by
  induction kinds using List.reverseRecOn with
  | nil => rfl
  | append_singleton kinds kind ih =>
      rw [List.filter_append, afterKinds_concat]
      by_cases htrivia : kind.isTrivia = true
      · have hcolon : kind ≠ .colon := by
          rintro rfl
          cases htrivia
        simpa [htrivia, hcolon] using ih
      · have hkept : [kind].filter (!·.isTrivia) = [kind] := by simp [htrivia]
        rw [hkept, afterKinds_concat, ih, ← List.filter_reverse, ofHistory, searchRule_filter]
        rfl

end ScanMode

end GrammarFrontend
