import GrammarFrontend.Proofs.Scanner.Modes
import GrammarFrontend.Proofs.Scanner.Reports

/-! What the setup of a lexer cannot change. The naming convention decides only between the two
kinds of names, the initial mode matters only where a bracket stands, and directives are only
recorded. So two lexers of one source that are set up differently run side by side as long as
neither of them meets a bracket.
-/

namespace GrammarFrontend

/-- The kinds of names, between which the naming convention decides. -/
def TokenKind.isName : TokenKind → Bool
  | tokenRef | ruleRef => true
  | _ => false

/-- The kinds of what a bracket opens. -/
def TokenKind.isBracket : TokenKind → Bool
  | argAction | charSet => true
  | _ => false

/-- The same kind, except that the two kinds of names may be exchanged. -/
def TokenKind.SameUpToNaming (j k : TokenKind) : Prop :=
  j = k ∨ j.isName = true ∧ k.isName = true

/-- The same token, except that the two kinds of names may be exchanged. -/
structure Token.SameUpToNaming (t u : Token) : Prop where
  kind : t.kind.SameUpToNaming u.kind
  channel : t.channel = u.channel
  text : t.text = u.text
  span : t.span = u.span

/-- The same lexeme, except that the two kinds of names may be exchanged. -/
structure Lexeme.SameUpToNaming (x y : Lexeme) : Prop where
  kind : x.kind.SameUpToNaming y.kind
  next : x.next = y.next
  faults : x.faults = y.faults
  origin : x.origin = y.origin

-----------------------------------------------------------------------------------------
-- Lexemes under two setups
-----------------------------------------------------------------------------------------

namespace TokenKind.SameUpToNaming

variable {j k : TokenKind}

theorem channel_eq (h : j.SameUpToNaming k) : j.channel = k.channel := by
  rcases h with rfl | ⟨hj, hk⟩
  · rfl
  · cases j <;> cases hj <;> cases k <;> cases hk <;> rfl

theorem isDiscarded_eq (h : j.SameUpToNaming k) : j.isDiscarded = k.isDiscarded := by
  rcases h with rfl | ⟨hj, hk⟩
  · rfl
  · cases j <;> cases hj <;> cases k <;> cases hk <;> rfl

theorem isBracket_eq (h : j.SameUpToNaming k) : j.isBracket = k.isBracket := by
  rcases h with rfl | ⟨hj, hk⟩
  · rfl
  · cases j <;> cases hj <;> cases k <;> cases hk <;> rfl

theorem errorChar_iff (h : j.SameUpToNaming k) : j = .errorChar ↔ k = .errorChar := by
  rcases h with rfl | ⟨hj, hk⟩
  · rfl
  · constructor <;> rintro rfl
    · cases hj
    · cases hk

end TokenKind.SameUpToNaming

/-- Discarded input has no name's kind. -/
theorem Token.SameUpToNaming.eq_of_discarded {t u : Token} (h : t.SameUpToNaming u)
    (hd : t.kind.isDiscarded = true)
    : t = u := by
  obtain ⟨hkind, hchannel, htext, hspan⟩ := h
  have he : t.kind = u.kind := by
    rcases hkind with he | ⟨hname, -⟩
    · exact he
    · cases hk : t.kind <;> simp_all [TokenKind.isDiscarded, TokenKind.isName]
  cases t
  cases u
  simp_all

theorem Lexeme.SameUpToNaming.refl (x : Lexeme) : x.SameUpToNaming x :=
  { kind := .inl rfl, next := rfl, faults := rfl, origin := rfl }

theorem Lexeme.sameUpToNaming_plain {j k : TokenKind} (h : j.SameUpToNaming k) (next : Probe)
    : (plain j next).SameUpToNaming (plain k next) :=
  { kind := h, next := rfl, faults := rfl, origin := rfl }

/-- A word is a keyword under every naming convention, or a name under every one. -/
theorem Word.kindOf_sameUpToNaming (naming other : Naming) (word : String)
    : (kindOf naming word).SameUpToNaming (kindOf other word) := by
  unfold kindOf
  split
  · exact .inl rfl
  · exact .inr ⟨by split <;> rfl, by split <;> rfl⟩

/-- A word opens a block under every naming convention, or under none. -/
theorem Word.read_sameUpToNaming (naming other : Naming) (p : Probe)
    : (read naming p).SameUpToNaming (read other p) := by
  simp only [read]
  split
  · exact Lexeme.sameUpToNaming_plain (kindOf_sameUpToNaming naming other _) _
  · split
    · exact .refl _
    · exact Lexeme.sameUpToNaming_plain (kindOf_sameUpToNaming naming other _) _

/-- Of what no delimiter opens, only words depend on the naming convention. -/
theorem Lexeme.undelimited_sameUpToNaming (naming other : Naming) (p : Probe) (c : Char)
    (text : List Char)
    : (undelimited naming p c text).SameUpToNaming (undelimited other p c text) := by
  unfold undelimited
  split
  · exact .refl _
  split
  · exact .refl _
  split
  · exact .refl _
  split
  · exact .refl _
  split
  · exact Word.read_sameUpToNaming naming other p
  · exact .refl _

/-- Where no bracket stands, the mode and the naming convention change at most the kind of a name.
-/
theorem Lexeme.read_sameUpToNaming {mode : ScanMode} {naming : Naming} {p : Probe} {x : Lexeme}
    (found : read mode naming p = some x) (hb : p.rest.head? ≠ some '[') (other : ScanMode)
    (convention : Naming)
    : ∃ y, read other convention p = some y ∧ x.SameUpToNaming y := by
  unfold read at found ⊢
  revert found
  split <;> intro found <;> simp only [Option.some.injEq, reduceCtorEq] at found <;> subst found
  case h_5 opens =>
    rw [opens] at hb
    exact absurd rfl hb
  case h_7 => exact ⟨_, rfl, undelimited_sameUpToNaming naming convention p _ _⟩
  all_goals exact ⟨_, rfl, .refl _⟩

-----------------------------------------------------------------------------------------
-- Two lexers side by side
-----------------------------------------------------------------------------------------

namespace Lexer

/-- Two lexers have come equally far and have found the same, except that the two kinds of names may
be exchanged. Their naming conventions, modes and directives may differ.
-/
structure Parallel (l m : Lexer) : Prop where
  cursor : l.cursor = m.cursor
  trials : l.scanner.trials = m.scanner.trials
  idle : l.scanner.trials.depth = 0
  tokens : List.Forall₂ Token.SameUpToNaming l.tokens m.tokens
  discarded : l.discarded = m.discarded
  diagnostics : l.diagnostics = m.diagnostics

/-- The item of a step is the same for both lexers, except for the kind of a name. -/
theorem Parallel.item {s t : Step} (h : s.lexer.Parallel t.lexer)
    (same : s.lexeme.SameUpToNaming t.lexeme)
    : s.item.SameUpToNaming t.item := by
  have hrest : s.lexeme.rest = t.lexeme.rest := congrArg Probe.rest same.next
  constructor
  case kind => exact same.kind
  case channel => exact same.kind.channel_eq
  case text => simp only [Step.item, Scanner.tokenOf, h.cursor, hrest]
  case span => simp only [Step.item, Scanner.tokenOf, h.cursor, hrest]

/-- Two lexers that find the same lexeme, except for the kind of a name, stay side by side. -/
theorem Parallel.after {s t : Step} (found : s.lexer.lexeme? = some s.lexeme)
    (other : t.lexer.lexeme? = some t.lexeme) (h : s.lexer.Parallel t.lexer)
    (same : s.lexeme.SameUpToNaming t.lexeme)
    : s.after.Parallel t.after := by
  have hitem := h.item same
  constructor
  case cursor =>
    have hrest : s.lexeme.rest = t.lexeme.rest := congrArg Probe.rest same.next
    simp only [Step.after, h.cursor, hrest, hitem.span]
  case trials => rw [s.after_trials, t.after_trials, same.next]
  case idle => exact (s.after_depth found).trans h.idle
  case tokens =>
    rw [s.after_tokens, t.after_tokens]
    refine List.rel_append h.tokens ?_
    simp only [List.filter, hitem.kind.isDiscarded_eq]
    split
    · exact .cons hitem .nil
    · exact .nil
  case discarded =>
    have hd : s.lexeme.kind.isDiscarded = t.lexeme.kind.isDiscarded := same.kind.isDiscarded_eq
    simp only [Step.after, ← hd, h.discarded]
    split
    · rename_i hdiscarded
      rw [hitem.eq_of_discarded hdiscarded]
    · rfl
  case diagnostics =>
    have hreports : s.reports = t.reports := by
      simp only [Step.reports, same.faults, same.kind.errorChar_iff, h.cursor,
        Scanner.unrecognized, hitem.span, hitem.text]
    rw [s.after_diagnostics found h.idle, t.after_diagnostics other (h.trials ▸ h.idle),
      h.diagnostics, hreports]

/-- None of the tokens handed out is what a bracket opens. -/
def BracketFree (l : Lexer) : Prop := ∀ t ∈ l.tokens, t.kind.isBracket = false

instance (l : Lexer) : Decidable l.BracketFree :=
  inferInstanceAs (Decidable (∀ t ∈ l.tokens, _))

/-- What a bracket opens is handed out. -/
theorem head?_ne_of_bracketFree {l : Lexer} (free : l.pull.2.BracketFree)
    : l.cursor.rest.head? ≠ some '[' := by
  intro hhead
  obtain ⟨text, opens⟩ := List.head?_eq_some_iff.mp hhead
  let s : Step :=
    {
      lexer := l
      lexeme := .bracketed l.mode { rest := l.cursor.rest, trials := l.scanner.trials }
    }
  have found : s.lexer.lexeme? = some s.lexeme := Lexeme.read_of_bracket opens
  have hkind : s.lexeme.kind = l.mode.bracketKind := Lexeme.bracketed_kind _ _
  have hd : s.lexeme.kind.isDiscarded = false := by
    rw [hkind]
    cases l.mode <;> rfl
  rw [pull_of_kept (s := s) found hd] at free
  have hitem : s.item ∈ s.after.tokens := by
    have hkept : s.item.kind.isDiscarded = false := hd
    rw [s.after_tokens]
    simp [hkept]
  have hfree := free s.item hitem
  have hbracket : s.item.kind.isBracket = true := by
    rw [show s.item.kind = _ from hkind]
    cases l.mode <;> rfl
  rw [hbracket] at hfree
  cases hfree

/-- A pull keeps two lexers side by side unless it hands out what a bracket opens, by induction on
what is left to read.
-/
theorem Parallel.pull {l m : Lexer} (h : l.Parallel m) (free : l.pull.2.BracketFree)
    : l.pull.2.Parallel m.pull.2 ∧ l.pull.1.isSome = m.pull.1.isSome := by
  cases found : l.lexeme? with
  | none =>
      have hrest : m.cursor.rest = [] := h.cursor ▸ lexeme?_eq_none_iff.mp found
      rw [pull_of_none found, pull_of_none (lexeme?_eq_none_iff.mpr hrest)]
      exact ⟨h, rfl⟩
  | some x =>
      let s : Step := { lexer := l, lexeme := x }
      obtain ⟨y, other, same⟩ :=
        Lexeme.read_sameUpToNaming found (head?_ne_of_bracketFree free) m.scanner.mode
          m.scanner.naming
      let t : Step := { lexer := m, lexeme := y }
      have other : m.lexeme? = some y := by
        rw [lexeme?, ← h.cursor, ← h.trials]
        exact other
      have after : s.after.Parallel t.after := Parallel.after (s := s) (t := t) found other h same
      cases hd : s.lexeme.kind.isDiscarded with
      | true =>
          rw [pull_of_discarded (s := s) found hd] at free ⊢
          rw [pull_of_discarded (s := t) other (same.kind.isDiscarded_eq ▸ hd)]
          exact after.pull free
      | false =>
          rw [pull_of_kept (s := s) found hd] at free ⊢
          rw [pull_of_kept (s := t) other (same.kind.isDiscarded_eq ▸ hd)]
          exact ⟨after, rfl⟩
termination_by l.cursor.rest.length
decreasing_by exact s.after_length_lt found

/-- Tokens handed out early are handed out. -/
theorem BracketFree.of_runs {l last : Lexer} {steps : List Step} (run : Runs l steps last)
    (free : last.BracketFree)
    : l.BracketFree := by
  intro t ht
  refine free t ?_
  rw [run.scans.tokens]
  exact List.mem_append_left _ ht

/-- Two lexers stay side by side to the end of the input unless one of them meets a bracket, by the
recursion of `drain`.
-/
theorem Parallel.drain {l m : Lexer} (h : l.Parallel m) (free : l.drain.BracketFree)
    : l.drain.Parallel m.drain := by
  fun_induction Lexer.drain l generalizing m with
  | case1 l hnone =>
      obtain ⟨hparallel, hsome⟩ := h.pull free
      rw [hnone] at hsome
      rw [drain_of_none (Option.isSome_eq_false_iff.mp hsome.symm)]
      exact hparallel
  | case2 l token htoken ih =>
      obtain ⟨steps, run, -⟩ := drain_runs l.pull.2
      obtain ⟨hparallel, hsome⟩ := h.pull (free.of_runs run)
      rw [htoken] at hsome
      rw [drain_of_isSome hsome.symm]
      exact ih hparallel free

/-- Two lexers stay side by side for that many tokens, by induction on their number. -/
theorem Parallel.serveAll {l m : Lexer} (h : l.Parallel m) (n : Nat)
    (free : (l.serveAll (List.replicate n .next)).BracketFree)
    : (l.serveAll (List.replicate n .next)).Parallel (m.serveAll (List.replicate n .next)) := by
  induction n generalizing l m with
  | zero => exact h
  | succ n ih =>
      obtain ⟨steps, run⟩ := serveAll_runs l.pull.2 n
      exact ih (h.pull (free.of_runs run)).1 free

/-- What is no bracket for one lexer is none for another one beside it. -/
theorem Parallel.bracketFree {l m : Lexer} (h : l.Parallel m) (free : l.BracketFree)
    : m.BracketFree := by
  let isBracket (t : Token) : Bool := t.kind.isBracket
  have hkinds : List.Forall₂ (· = ·) (l.tokens.map isBracket) (m.tokens.map isBracket) :=
    List.rel_map (fun _ _ same => same.kind.isBracket_eq) h.tokens
  rw [List.forall₂_eq_eq_eq] at hkinds
  intro u hu
  obtain ⟨t, ht, he⟩ := List.mem_map.mp (hkinds ▸ List.mem_map_of_mem (f := isBracket) hu)
  exact he.symm.trans (free t ht)

/-- Two lexers have found the same tokens, except that the two kinds of names may be exchanged, the
same discarded input and the same diagnostics.
-/
structure AgreesWith (l m : Lexer) : Prop where
  tokens : List.Forall₂ Token.SameUpToNaming l.stream.tokens m.stream.tokens
  discarded : l.stream.discarded = m.stream.discarded
  diagnostics : l.diagnostics = m.diagnostics

/-- Lexers side by side agree, also on where the input ends. -/
theorem Parallel.agreesWith {l m : Lexer} (h : l.Parallel m) : l.AgreesWith m := by
  have hend : (Token.eofAt l.cursor.position).SameUpToNaming (.eofAt m.cursor.position) := by
    rw [h.cursor]
    exact { kind := .inl rfl, channel := rfl, text := rfl, span := rfl }
  constructor
  case tokens => exact List.rel_append h.tokens (.cons hend .nil)
  case discarded => exact congrArg List.reverse h.discarded
  case diagnostics => exact h.diagnostics

-----------------------------------------------------------------------------------------
-- Recording directives
-----------------------------------------------------------------------------------------

/-- The lexer without the directives that it has recorded, and without recording any. -/
def withoutDirectives (l : Lexer) : Lexer :=
  { l with scanner := { l.scanner with recordsDirectives := false, directives := [] } }

/-- A step of a lexer that records no directives. -/
def Step.withoutDirectives (s : Step) : Step := { s with lexer := s.lexer.withoutDirectives }

/-- A step finds and keeps the same without directives. -/
theorem Step.after_withoutDirectives (s : Step)
    : s.withoutDirectives.after = s.after.withoutDirectives := by
  simp only [Step.after, Step.scanner, Scanner.absorb_eq, Step.withoutDirectives,
    Lexer.withoutDirectives, Scanner.report]
  split
  · rfl
  · split <;> rfl
  · rfl

/-- A pull gives the same token without directives, by induction on what is left to read. -/
theorem pull_withoutDirectives (l : Lexer)
    : l.withoutDirectives.pull = (l.pull.1, l.pull.2.withoutDirectives) := by
  cases found : l.lexeme? with
  | none => rw [pull_of_none found, pull_of_none (l := l.withoutDirectives) found]
  | some x =>
      let s : Step := { lexer := l, lexeme := x }
      have other : s.withoutDirectives.lexer.lexeme? = some s.withoutDirectives.lexeme := found
      cases hd : s.lexeme.kind.isDiscarded with
      | true =>
          rw [pull_of_discarded (s := s) found hd, ← pull_withoutDirectives s.after,
            ← s.after_withoutDirectives]
          exact pull_of_discarded other hd
      | false =>
          rw [pull_of_kept (s := s) found hd, ← s.after_withoutDirectives]
          exact pull_of_kept other hd
termination_by l.cursor.rest.length
decreasing_by exact s.after_length_lt found

/-- Draining is the same without directives, by the recursion of `drain`. -/
theorem drain_withoutDirectives (l : Lexer)
    : l.withoutDirectives.drain = l.drain.withoutDirectives := by
  fun_induction Lexer.drain l with
  | case1 l hnone =>
      rw [drain_of_none, pull_withoutDirectives]
      rw [pull_withoutDirectives, hnone]
      rfl
  | case2 l token htoken ih =>
      rw [drain_of_isSome, pull_withoutDirectives]
      · exact ih
      · rw [pull_withoutDirectives, htoken]
        rfl

/-- Requests are served in the same way without directives, by induction on them. -/
theorem serveAll_withoutDirectives (l : Lexer) (requests : List Request)
    : l.withoutDirectives.serveAll requests = (l.serveAll requests).withoutDirectives := by
  induction requests generalizing l with
  | nil => rfl
  | cons request requests ih =>
      have hserve : l.withoutDirectives.serve request = (l.serve request).withoutDirectives := by
        cases request with
        | next => exact congrArg Prod.snd (pull_withoutDirectives l)
        | setMode mode => rfl
      change (l.withoutDirectives.serve request).serveAll requests = _
      rw [hserve]
      exact ih _

/-- Two lexers have found the same and are in the same mode, whatever directives they record. -/
structure SameButDirectives (l m : Lexer) : Prop where
  tokens : l.stream.tokens = m.stream.tokens
  discarded : l.stream.discarded = m.stream.discarded
  diagnostics : l.diagnostics = m.diagnostics
  mode : l.mode = m.mode

theorem sameButDirectives_of_eq {l m : Lexer} (h : l.withoutDirectives = m.withoutDirectives)
    : l.SameButDirectives m :=
  {
    tokens := congrArg (·.stream.tokens) h
    discarded := congrArg (·.stream.discarded) h
    diagnostics := congrArg (·.diagnostics) h
    mode := congrArg (·.mode) h
  }

-----------------------------------------------------------------------------------------
-- Two setups for one source
-----------------------------------------------------------------------------------------

/-- However many tokens are asked for, and also when the rest is scanned at once: without brackets
the naming convention, the initial mode and the recording of directives change nothing but the kinds
of names, and recording directives changes nothing else in any source.
-/
theorem setups_independent (source : List Char) (config other : ScannerConfig)
    (naming convention : Naming) (records : Bool) (n : Nat)
    : let pulled (l : Lexer) := l.serveAll (List.replicate n .next)
      let l := pulled (create source config naming)
      let m := pulled (create source other convention)
      let k := pulled (create source { config with recordsDirectives := records } naming)
      (l.BracketFree → m.BracketFree ∧ l.AgreesWith m)
      ∧ (l.drain.BracketFree → m.drain.BracketFree ∧ l.drain.AgreesWith m.drain)
      ∧ l.SameButDirectives k
      ∧ l.drain.SameButDirectives k.drain := by
  intro pulled l m k
  have start : (create source config naming).Parallel (create source other convention) := by
    exact {
      cursor := rfl
      trials := rfl
      idle := rfl
      tokens := .nil
      discarded := rfl
      diagnostics := rfl
    }
  have hstart
      : (create source config naming).withoutDirectives
        = (create source { config with recordsDirectives := records } naming).withoutDirectives :=
    rfl
  have hpulled : l.withoutDirectives = k.withoutDirectives := by
    rw [← serveAll_withoutDirectives, ← serveAll_withoutDirectives, hstart]
  have hdrain : l.drain.withoutDirectives = k.drain.withoutDirectives := by
    rw [← drain_withoutDirectives, ← drain_withoutDirectives, hpulled]
  refine ⟨?_, ?_, sameButDirectives_of_eq hpulled, sameButDirectives_of_eq hdrain⟩
  · intro free
    have parallel := start.serveAll n free
    exact ⟨parallel.bracketFree free, parallel.agreesWith⟩
  · intro free
    obtain ⟨steps, run, -⟩ := drain_runs l
    have parallel := (start.serveAll n (free.of_runs run)).drain free
    exact ⟨parallel.bracketFree free, parallel.agreesWith⟩

/-- A rule without brackets has the same tokens under two naming conventions, except for its names.
-/
theorem setups_independent_plainRule
    : let l := (create "A : b ;".toList {} uppercaseNaming).drain
      let m := (create "A : b ;".toList { startsInLexerRule := true } (fun _ => false)).drain
      l.BracketFree ∧ m.BracketFree ∧ l.AgreesWith m ∧ l.tokens ≠ m.tokens := by
  intro l m
  have free : l.BracketFree := by decide +kernel
  obtain ⟨hfree, agrees⟩ := (setups_independent "A : b ;".toList {} { startsInLexerRule := true }
    uppercaseNaming (fun _ => false) true 0).2.1 free
  exact ⟨free, hfree, agrees, by decide +kernel⟩

end Lexer

end GrammarFrontend
