import GrammarFrontend.Proofs.Scanner.Tiling

/-! Asking for tokens one by one and scanning a source at once come to the same. A request changes
nothing of what draining ends with, the tokens handed out are the front of the stream, and behind the
end of the input every request gives the same token and leaves the lexer as it is.
-/

namespace GrammarFrontend.Lexer

-----------------------------------------------------------------------------------------
-- One request
-----------------------------------------------------------------------------------------

/-- A pull is a run in which no item but the last one is kept, by induction on what is left to
read.
-/
theorem pull_items (l : Lexer)
    : ∃ steps,
        Runs l steps l.pull.2
        ∧ (steps.map (·.item)).filter (!·.kind.isDiscarded) = l.pull.1.toList := by
  cases found : l.lexeme? with
  | none => exact ⟨[], by rw [pull_of_none found]; exact ⟨.refl l, rfl⟩⟩
  | some x =>
      let s : Step := { lexer := l, lexeme := x }
      have hkind : s.item.kind = s.lexeme.kind := rfl
      cases hd : s.lexeme.kind.isDiscarded with
      | true =>
          obtain ⟨steps, run, kept⟩ := pull_items s.after
          rw [pull_of_discarded (s := s) found hd]
          exact ⟨s :: steps, .step found run, by simp [hkind, hd, kept]⟩
      | false =>
          rw [pull_of_kept (s := s) found hd]
          exact ⟨[s], Runs.step (s := s) found (.refl s.after), by simp [hkind, hd]⟩
termination_by l.cursor.rest.length
decreasing_by exact s.after_length_lt found

/-- A pull adds the token that it gives to those handed out. -/
theorem pull_tokens (l : Lexer) : l.pull.2.tokens = l.tokens ++ l.pull.1.toList := by
  obtain ⟨steps, run, kept⟩ := pull_items l
  rw [run.scans.tokens, kept]

/-- A pull never gives the token for the end of the input. -/
theorem pull_kind_ne_eof {l : Lexer} {t : Token} (h : l.pull.1 = some t) : t.kind ≠ .eof := by
  obtain ⟨steps, run, kept⟩ := pull_items l
  have ht : t ∈ (steps.map (·.item)).filter (!·.kind.isDiscarded) := by
    rw [kept, h]
    exact List.mem_singleton_self t
  exact run.scans.kind_ne_eof t (List.mem_filter.mp ht).1

/-- At the end of the input there is nothing to pull, and the lexer stays as it is. -/
theorem pull_of_atEnd {l : Lexer} (h : l.cursor.rest = []) : l.pull = (none, l) :=
  pull_of_none (lexeme?_eq_none_iff.mpr h)

/-- A pull gives no token only at the end of the input. -/
theorem atEnd_of_pull {l : Lexer} (h : l.pull.1 = none) : l.pull.2.cursor.rest = [] := by
  obtain ⟨steps, -, final⟩ := pull_runs l
  exact final h

/-- Draining ends in the same way before and after a pull. -/
theorem drain_pull (l : Lexer) : l.pull.2.drain = l.drain := by
  cases h : l.pull.1 with
  | none =>
      have hend : l.pull.2.pull = (none, l.pull.2) := pull_of_atEnd (atEnd_of_pull h)
      rw [drain_of_none (l := l) (by rw [h]; rfl), drain_of_none (by rw [hend]; rfl), hend]
  | some t => rw [drain_of_isSome (l := l) (by rw [h]; rfl)]

-----------------------------------------------------------------------------------------
-- Requests one after another
-----------------------------------------------------------------------------------------

/-- The lexer after `n` requests for a token. -/
def ask (l : Lexer) (n : Nat) : Lexer := l.serveAll (List.replicate n .next)

/-- The tokens that `n` requests one after another give. -/
def answers (l : Lexer) : Nat → List Token
  | 0 => []
  | n + 1 => l.next.1 :: l.next.2.answers n

theorem answers_succ (l : Lexer) (n : Nat)
    : l.answers (n + 1)
      = l.pull.1.getD (.eofAt l.pull.2.cursor.position) :: l.pull.2.answers n :=
  rfl

/-- Draining ends in the same way before and after requests, by induction on their number. -/
theorem drain_ask (l : Lexer) (n : Nat) : (l.ask n).drain = l.drain := by
  induction n generalizing l with
  | zero => rfl
  | succ n ih => exact (ih l.pull.2).trans (drain_pull l)

/-- The tokens handed out are the answers to the requests, without the token for the end of the
input, by induction on the number of requests.
-/
theorem ask_tokens (l : Lexer) (n : Nat)
    : (l.ask n).tokens = l.tokens ++ (l.answers n).filter (·.kind != .eof) := by
  induction n generalizing l with
  | zero => simp [ask, serveAll, answers]
  | succ n ih =>
      have hask : l.ask (n + 1) = l.pull.2.ask n := rfl
      rw [hask, ih, pull_tokens, answers_succ, List.append_assoc]
      cases h : l.pull.1 with
      | none => rfl
      | some t => simp [pull_kind_ne_eof h]

/-- A lexer at the end of its input answers every request in the same way and stays as it is, by
induction on the number of requests.
-/
theorem atEnd_answers {l : Lexer} (h : l.cursor.rest = []) (n : Nat)
    : l.answers n = List.replicate n (.eofAt l.cursor.position) ∧ l.ask n = l := by
  have hpull := pull_of_atEnd h
  induction n with
  | zero => exact ⟨rfl, rfl⟩
  | succ n ih =>
      have hask : l.ask (n + 1) = l.pull.2.ask n := rfl
      rw [answers_succ, hask, hpull, ih.1, ih.2]
      exact ⟨rfl, rfl⟩

/-- More padding than is asked for makes no difference. -/
theorem take_padded {α : Type} (front : List α) (a : α) (n : Nat)
    : (front ++ List.replicate (n + 1) a).take n = (front ++ List.replicate n a).take n := by
  rw [List.take_append, List.take_append, List.take_replicate, List.take_replicate]
  congr 2
  omega

/-- The answers are the tokens that draining adds to those handed out before, and behind them the
token for the end of the input again and again, by the recursion of `drain`.
-/
theorem exists_answers (l : Lexer)
    : ∃ more,
        l.drain.tokens = l.tokens ++ more
        ∧ ∀ n,
            l.answers n
            = (more ++ List.replicate n (Token.eofAt l.drain.cursor.position)).take n := by
  fun_induction drain l with
  | case1 l h =>
      refine ⟨[], by rw [pull_tokens, h, Option.toList_none], ?_⟩
      intro n
      cases n with
      | zero => rfl
      | succ n =>
          rw [answers_succ, h, (atEnd_answers (atEnd_of_pull h) n).1, List.nil_append,
            List.take_replicate, Nat.min_self]
          rfl
  | case2 l t h ih =>
      obtain ⟨more, htokens, hanswers⟩ := ih
      refine ⟨t :: more, ?_, ?_⟩
      · rw [htokens, pull_tokens, h, List.append_assoc]
        rfl
      · intro n
        cases n with
        | zero => rfl
        | succ n =>
            rw [answers_succ, h, hanswers, List.cons_append, List.take_succ_cons, take_padded]
            rfl

/-- A lexer that gave the token for the end of the input is at the end of it. -/
theorem atEnd_of_answers {l : Lexer} {n : Nat} (h : ∃ t ∈ l.answers n, t.kind = .eof)
    : (l.ask n).cursor.rest = [] := by
  induction n generalizing l with
  | zero =>
      obtain ⟨t, ht, -⟩ := h
      cases ht
  | succ n ih =>
      have hask : l.ask (n + 1) = l.pull.2.ask n := rfl
      obtain ⟨t, ht, heof⟩ := h
      rw [answers_succ, List.mem_cons] at ht
      rw [hask]
      rcases ht with rfl | ht
      · cases h : l.pull.1 with
        | none =>
            have hend := atEnd_of_pull h
            rw [(atEnd_answers hend n).2]
            exact hend
        | some t =>
            rw [h] at heof
            exact absurd heof (pull_kind_ne_eof h)
      · exact ih ⟨t, ht, heof⟩

-----------------------------------------------------------------------------------------
-- The end of a source
-----------------------------------------------------------------------------------------

/-- At the end of the input the cursor stands where moving over the whole source leads. -/
theorem Runs.position_of_atEnd {source : List Char} {config : ScannerConfig} {naming : Naming}
    {steps : List Step} {last : Lexer} (run : Runs (create source config naming) steps last)
    (final : last.cursor.rest = [])
    : last.cursor.position = Position.start.advanceOver source := by
  obtain ⟨laid, -⟩ := run.scans.laid
  rw [laid.stop_eq, run.scans.textOf_items final]
  rfl

/-- Asking for tokens first changes nothing of the stream and the diagnostics of a source. The
answers are the front of the stream, continued by the token for the end of the source, and the
tokens handed out are the answers without it. Once it was given, the lexer never changes again.
-/
theorem answers_agree_with_stream (source : List Char) (config : ScannerConfig) (naming : Naming)
    (n : Nat)
    : let fresh := create source config naming
      let asked := fresh.ask n
      let stop := Token.eofAt (Position.start.advanceOver source)
      asked.tokenize = fresh.tokenize
      ∧ asked.drain.diagnostics = fresh.drain.diagnostics
      ∧ fresh.answers n = (fresh.tokenize.tokens ++ List.replicate n stop).take n
      ∧ asked.tokens = (fresh.answers n).filter (·.kind != .eof)
      ∧ ((∃ t ∈ fresh.answers n, t.kind = .eof)
        → ∀ k, asked.answers k = List.replicate k stop ∧ asked.ask k = asked) := by
  intro fresh asked stop
  obtain ⟨steps, run, final⟩ := drain_runs fresh
  have hstop : Token.eofAt fresh.drain.cursor.position = stop :=
    congrArg Token.eofAt (run.position_of_atEnd final)
  refine ⟨?_, ?_, ?_, ?_, ?_⟩
  · rw [tokenize, drain_ask, tokenize]
  · rw [drain_ask]
  · obtain ⟨more, htokens, hanswers⟩ := exists_answers fresh
    have hfresh : fresh.tokens = [] := rfl
    rw [hfresh, List.nil_append] at htokens
    rw [tokenize, stream, htokens, hanswers, hstop, List.append_assoc, List.singleton_append,
      ← List.replicate_succ, take_padded]
  · exact ask_tokens fresh n
  · intro given k
    have hend : asked.cursor.rest = [] := atEnd_of_answers given
    obtain ⟨steps, run⟩ := serveAll_runs fresh n
    have hposition : Token.eofAt asked.cursor.position = stop :=
      congrArg Token.eofAt (run.position_of_atEnd hend)
    rw [← hposition]
    exact atEnd_answers hend k

/-- Of a source with one token and a character that begins none, the second request reports the
character and gives the token for the end of the source, and later requests do no more.
-/
theorem answers_agree_with_stream_oneToken
    : let fresh := create "a¬".toList {} uppercaseNaming
      let asked := fresh.ask 2
      (∃ t ∈ fresh.answers 2, t.kind = .eof)
      ∧ asked.tokens.map (·.text) = ["a"]
      ∧ asked.diagnostics.map (·.args) = [["¬"]]
      ∧ asked.answers 3 = List.replicate 3 (.eofAt { line := 1, column := 3, offset := 3 })
      ∧ asked.ask 3 = asked := by
  intro fresh asked
  have given : ∃ t ∈ fresh.answers 2, t.kind = .eof := by decide +kernel
  obtain ⟨-, -, -, -, hend⟩ := answers_agree_with_stream "a¬".toList {} uppercaseNaming 2
  obtain ⟨hanswers, hask⟩ := hend given 3
  exact ⟨given, by decide +kernel, by decide +kernel, hanswers, hask⟩

end GrammarFrontend.Lexer
