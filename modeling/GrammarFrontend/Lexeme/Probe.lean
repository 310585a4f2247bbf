/-! A probe into the unread input. Where one character does not decide, a recogniser makes a trial:
it reads ahead, and the probe moves on only if the trial succeeds.
-/

namespace GrammarFrontend

/-- The trials made so far: how many are running, and whether the latest one failed. -/
structure Trials where
  depth : Nat
  failed : Bool
deriving DecidableEq, Repr, Inhabited

namespace Trials

def initial : Trials := { depth := 0, failed := false }

def opened (t : Trials) : Trials := { t with depth := t.depth + 1 }

def closed (t : Trials) (failed : Bool) : Trials := { depth := t.depth - 1, failed }

end Trials

structure Probe where
  rest : List Char
  trials : Trials
deriving DecidableEq, Repr, Inhabited

namespace Probe

def moveTo (p : Probe) (rest : List Char) : Probe := { p with rest }

def skip (p : Probe) (n : Nat) : Probe := p.moveTo (p.rest.drop n)

def skipWhile (f : Char → Bool) (p : Probe) : Probe := p.moveTo (p.rest.dropWhile f)

/-- Makes a trial. A trial that succeeds has a finding and says what it leaves unread; one that
fails leaves the probe where it was. -/
def speculate (attempt : List Char → Option (α × List Char)) (p : Probe) : Option α × Probe :=
  let running := p.trials.opened
  match attempt p.rest with
  | some (finding, rest) => (some finding, { rest, trials := running.closed false })
  | none => (none, { p with trials := running.closed true })

theorem speculate_of_some {attempt : List Char → Option (α × List Char)} {p : Probe}
    {finding : α} {rest : List Char} (h : attempt p.rest = some (finding, rest))
    : p.speculate attempt
      = (some finding, { rest, trials := { depth := p.trials.depth, failed := false } }) := by
  simp [speculate, h, Trials.opened, Trials.closed]

theorem speculate_of_none {attempt : List Char → Option (α × List Char)} {p : Probe}
    (h : attempt p.rest = none)
    : p.speculate attempt
      = (none, { p with trials := { depth := p.trials.depth, failed := true } }) := by
  simp [speculate, h, Trials.opened, Trials.closed]

/-- If what a trial leaves unread is always a suffix of what it is given, the probe only moves
forward. -/
theorem speculate_suffix {attempt : List Char → Option (α × List Char)} (p : Probe)
    (hread : ∀ finding rest, attempt p.rest = some (finding, rest) → rest <:+ p.rest)
    : (p.speculate attempt).2.rest <:+ p.rest := by
  cases h : attempt p.rest with
  | none => simp [speculate_of_none h]
  | some found =>
      obtain ⟨finding, rest⟩ := found
      simpa [speculate_of_some h] using hread _ _ h

end Probe

end GrammarFrontend
