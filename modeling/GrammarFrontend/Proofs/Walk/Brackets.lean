import GrammarFrontend.Walk.Run

/-! The log of a walk as a word of brackets. Productions and alternatives are opened and closed
around what is announced inside them, and every context says which productions are open. What a part
of a walk adds to the log and what it leaves unchanged is one relation between the states around it.
-/

namespace GrammarFrontend

-----------------------------------------------------------------------------------------
-- What is open
-----------------------------------------------------------------------------------------

/-- What a walk opens and closes. -/
inductive Scope where
  | production (p : Production) (n : Node)
  | alternative (alt : Node)
deriving DecidableEq, Repr

def Scope.visit? : Scope → Option (Production × Node)
  | production p n => some (p, n)
  | alternative _ => none

/-- The open productions with their nodes, the innermost first. -/
def openVisits (opened : List Scope) : List (Production × Node) := opened.filterMap Scope.visit?

/-- The kinds of the nodes of the open productions, the innermost first. -/
def openKinds (opened : List Scope) : List NodeKind := (openVisits opened).map (·.2.kind)

/-- The production of the block in a subrule. -/
def Production.blockOf? : Production → Option Production
  | subrule => some block
  | lexerSubrule => some lexerBlock
  | _ => none

/-- A production opened at a node with a suffix has its block opened directly inside. -/
def suffixesBlock (outer : Production × Node) (inner : Production) : Bool :=
  outer.2.kind.isEbnfSuffix && outer.1.blockOf? == some inner

/-- The number of open subrules with a suffix that have their block open directly inside. -/
def suffixedBlocks : List (Production × Node) → Nat
  | [] => 0
  | (p, _) :: opened => (opened.head?.any (suffixesBlock · p)).toNat + suffixedBlocks opened

/-- The context shows what is open: the kinds of the nodes of the open productions, the outermost
first, and the number of suffixed blocks.
-/
structure Context.Shows (c : Context) (opened : List Scope) : Prop where
  trail : c.trail = (openKinds opened).reverse
  ebnfDepth : c.ebnfDepth = suffixedBlocks (openVisits opened)

-----------------------------------------------------------------------------------------
-- Well-nested words
-----------------------------------------------------------------------------------------

def Callback.isBracket : Callback → Bool
  | enter .. | exit .. | enterAlternative _ | exitAlternative _ => true
  | _ => false

/-- A word of events inside of what is open: everything that it opens it closes again with the same
callback data, in proper order, and every event shows what is open at it. What is entered or left
counts as open.
-/
inductive WellNested : List Scope → List Event → Prop
  | nil {opened : List Scope} : WellNested opened []
  | announce {opened : List Scope} {e : Event} {events : List Event}
    (plain : e.callback.isBracket = false) (shows : e.context.Shows opened)
    (more : WellNested opened events)
    : WellNested opened (e :: events)
  | production {opened : List Scope} {p : Production} {n : Node} {entered left : Context}
    {body events : List Event}
    (showsEntered : entered.Shows (.production p n :: opened))
    (inner : WellNested (.production p n :: opened) body)
    (showsLeft : left.Shows (.production p n :: opened))
    (more : WellNested opened events)
    : WellNested opened (⟨.enter p n, entered⟩ :: body ++ ⟨.exit p n, left⟩ :: events)
  | alternative {opened : List Scope} {alt : Node} {entered left : Context}
    {body events : List Event}
    (showsEntered : entered.Shows (.alternative alt :: opened))
    (inner : WellNested (.alternative alt :: opened) body)
    (showsLeft : left.Shows (.alternative alt :: opened))
    (more : WellNested opened events)
    : WellNested opened
        (⟨.enterAlternative alt, entered⟩ :: body ++ ⟨.exitAlternative alt, left⟩ :: events)

/-- Well-nested words inside of the same join to one, by induction on the first. -/
theorem WellNested.append {opened : List Scope} {first second : List Event}
    (hf : WellNested opened first) (hs : WellNested opened second)
    : WellNested opened (first ++ second) := by
  induction hf with
  | nil => exact hs
  | announce plain shows _ ih => exact .announce plain shows (ih hs)
  | production showsEntered inner showsLeft _ _ ih =>
      rw [List.append_assoc]
      exact .production showsEntered inner showsLeft (ih hs)
  | alternative showsEntered inner showsLeft _ _ ih =>
      rw [List.append_assoc]
      exact .alternative showsEntered inner showsLeft (ih hs)

-----------------------------------------------------------------------------------------
-- Parts of walks
-----------------------------------------------------------------------------------------

namespace WalkState

@[simp]
theorem announce_events (s : WalkState) (callback : Callback)
    : (s.announce callback).events = s.events ++ [{ callback, context := s.context }] := by
  simp [announce, events]

@[simp]
theorem report_events (s : WalkState) (e : WalkError) : (s.report e).events = s.events := by
  simp [report, events]

theorem enter_events (s : WalkState) (v : Visit)
    : (s.enter v).events = s.events ++ [⟨.enter v.production v.node, (s.enter v).context⟩] :=
  announce_events _ _

theorem exit_events (s : WalkState) (v : Visit)
    : (s.exit v).events = s.events ++ [⟨.exit v.production v.node, s.context⟩] :=
  s.announce_events _

/-- What a part of a walk does inside of what is open: it adds a well-nested word to the log, and
the nodes on the stack, the path and the number of suffixed blocks are as before.
-/
structure Nests (opened : List Scope) (s after : WalkState) : Prop where
  word : ∃ events, after.events = s.events ++ events ∧ WellNested opened events
  stack : after.stack = s.stack
  path : after.context.path = s.context.path
  ebnfDepth : after.context.ebnfDepth = s.context.ebnfDepth

/-- A part that announces nothing and leaves the rest as it is. -/
theorem Nests.silent {opened : List Scope} {s after : WalkState}
    (hevents : after.events = s.events) (hstack : after.stack = s.stack)
    (hpath : after.context.path = s.context.path)
    (hdepth : after.context.ebnfDepth = s.context.ebnfDepth)
    : s.Nests opened after :=
  ⟨⟨[], by rw [hevents, List.append_nil], .nil⟩, hstack, hpath, hdepth⟩

/-- One part after another adds one word after another. -/
theorem Nests.trans {opened : List Scope} {s middle after : WalkState}
    (hf : s.Nests opened middle) (hs : middle.Nests opened after)
    : s.Nests opened after := by
  obtain ⟨first, hfirst, nested⟩ := hf.word
  obtain ⟨second, hsecond, more⟩ := hs.word
  refine ⟨⟨first ++ second, ?_, nested.append more⟩, ?_, ?_, ?_⟩
  · rw [hsecond, hfirst, List.append_assoc]
  · exact hs.stack.trans hf.stack
  · exact hs.path.trans hf.path
  · exact hs.ebnfDepth.trans hf.ebnfDepth

/-- An announcement that is no bracket is a word of its own. -/
theorem Nests.announce {opened : List Scope} {s : WalkState} {callback : Callback}
    (plain : callback.isBracket = false) (shows : s.context.Shows opened)
    : s.Nests opened (s.announce callback) :=
  ⟨⟨_, s.announce_events callback, .announce plain shows .nil⟩, rfl, rfl, rfl⟩

end WalkState

/-- The events of a visit are those of its plan, between the two of its own. -/
theorem Visit.run_events {config : WalkerConfig} {room : Nat} {v : Visit} {s : WalkState}
    {events : List Event}
    (h
      : (v.plan.run config.resumesOnMismatch (run config room) (s.enter v)).2.events
        = (s.enter v).events ++ events)
    : (v.run config (room + 1) s).2.events
      = s.events
        ++ (⟨.enter v.production v.node, (s.enter v).context⟩ :: events
          ++ [⟨.exit v.production v.node,
            (v.plan.run config.resumesOnMismatch (run config room) (s.enter v)).2.context⟩]) := by
  rw [run, WalkState.exit_events, h, WalkState.enter_events, List.append_assoc, List.append_assoc]
  rfl

end GrammarFrontend
